import LlmWorker.Licenses.Notice
import Mathlib.Data.List.Perm.Basic

/-!
# The sections of the NOTICE and the bundled files

The sections of the NOTICE hold each package once, and the paths they cite are
those of the bundled files, each of one package and one file of it. Neither
depends on the order in which the packages are listed.
-/

namespace LlmWorker.Licenses

open Python

-- ---------------------------------------------------------------------------
-- The packages of the sections
-- ---------------------------------------------------------------------------

def Section.packages (sec : Section) : List Package := sec.entries.map (·.package)

variable {u : Unicode} {hostname : Str → Result (Option Str)} {packages : List Package}

theorem familyOf_mem (u : Unicode) (pkg : Package) : familyOf u pkg ∈ familyNames := by
  unfold familyOf licenseFamily familyNames
  cases hfind : licenseFamilies.find? fun family => matchesFamily u family.2 (declaredLicense pkg) with
  | none => simp
  | some family => exact List.mem_append_left _ (List.mem_map_of_mem (List.mem_of_find?_eq_some hfind))

/-- `groups.get(family)`, where a family that does not occur has no packages. -/
def ofFamily (u : Unicode) (packages : List Package) (family : Str) : List Package :=
  packages.filter fun pkg => familyOf u pkg = family

theorem get_groups (packages : List Package) (family : Str) :
    ((Dict.groupBy (familyOf u) packages).get? family).getD [] = ofFamily u packages family :=
  Dict.get?_groupBy _ _ _

theorem perm_flatMap_filter [DecidableEq κ] {labels : List κ} (hnodup : labels.Nodup) (f : α → κ) (l : List α) :
    (labels.flatMap fun k => l.filter fun x => f x = k).Perm (l.filter fun x => f x ∈ labels) := by
  induction labels with
  | nil => simp
  | cons k labels ih =>
    obtain ⟨hk, hnodup⟩ := List.nodup_cons.mp hnodup
    have hfirst : l.filter (fun x => f x = k) =
        (l.filter fun x => f x ∈ k :: labels).filter fun x => f x = k := by
      rw [List.filter_filter]
      refine List.filter_congr fun x _ => ?_
      by_cases h : f x = k <;> simp [h]
    have hrest : l.filter (fun x => f x ∈ labels) =
        (l.filter fun x => f x ∈ k :: labels).filter fun x => !decide (f x = k) := by
      rw [List.filter_filter]
      refine List.filter_congr fun x _ => ?_
      by_cases h : f x = k
      · simp [h, hk]
      · simp [h]
    rw [List.flatMap_cons]
    refine ((ih hnodup).append_left _).trans ?_
    rw [hfirst, hrest]
    exact List.filter_append_perm _ _

theorem perm_ofFamily (packages : List Package) : (familyNames.flatMap (ofFamily u packages)).Perm packages := by
  have hnodup : familyNames.Nodup := by decide
  refine (perm_flatMap_filter hnodup (familyOf u) packages).trans (List.Perm.of_eq ?_)
  exact List.filter_eq_self.mpr fun pkg _ => by simpa using familyOf_mem u pkg

theorem entries_ok (h : entries u hostname pkgs = .ok es) : es.map (·.package) = sortedByName u pkgs := by
  have hpackage {numbered : Package × Nat} {e : Entry} (he : entry u hostname numbered = .ok e) :
      numbered.1 = e.package := by
    obtain ⟨url, -, he⟩ := bind_ok.mp he
    cases he
    rfl
  have hmap : List.Forall₂ (· = ·) (((sortedByName u pkgs).zipIdx 1).map Prod.fst) (es.map (·.package)) := by
    rw [List.forall₂_map_left_iff, List.forall₂_map_right_iff]
    exact (mapM_ok.mp h).imp fun _ _ he => hpackage he
  rw [List.forall₂_eq_eq_eq] at hmap
  rw [← hmap, List.zipIdx_map_fst]

theorem familySections_ok {groups : Dict Str (List Package)} (h : familySections u hostname groups family = .ok secs) :
    (secs.map (·.family)).Sublist [family] ∧
      secs.flatMap Section.packages = sortedByName u ((groups.get? family).getD []) ∧
      ∀ sec ∈ secs, sec.family = family ∧ sec.packages = sortedByName u ((groups.get? family).getD []) := by
  unfold familySections at h
  split at h
  · rename_i hnil
    cases h
    simp [hnil, sortedByName, sortedBy]
  · rename_i pkg pkgs hcons
    obtain ⟨es, hes, hsecs⟩ := bind_ok.mp h
    cases hsecs
    rw [hcons, ← entries_ok hes]
    simp [Section.packages]

theorem parts_ok (h : List.Forall₂ (fun family part =>
      familySections u hostname (Dict.groupBy (familyOf u) packages) family = .ok part) families parts) :
    (parts.flatten.map (·.family)).Sublist families ∧
      parts.flatten.flatMap Section.packages =
        families.flatMap (fun family => sortedByName u (ofFamily u packages family)) ∧
      ∀ sec ∈ parts.flatten, sec.packages = sortedByName u (ofFamily u packages sec.family) := by
  induction h with
  | nil => simp
  | cons hpart _ ih =>
    obtain ⟨hsub, hpackages, hsecs⟩ := familySections_ok hpart
    rw [get_groups] at hpackages hsecs
    refine ⟨?_, ?_, fun sec hsec => ?_⟩
    · rw [List.flatten_cons, List.map_append, ← List.singleton_append]
      exact hsub.append ih.1
    · rw [List.flatten_cons, List.flatMap_append, ih.2.1, hpackages, List.flatMap_cons]
    · rcases List.mem_append.mp hsec with hfirst | hrest
      · obtain ⟨rfl, heq⟩ := hsecs sec hfirst
        exact heq
      · exact ih.2.2 sec hrest

theorem sections_ok (h : sections u hostname packages = .ok secs) :
    (secs.map (·.family)).Sublist familyNames ∧
      secs.flatMap Section.packages =
        familyNames.flatMap (fun family => sortedByName u (ofFamily u packages family)) ∧
      ∀ sec ∈ secs, sec.packages = sortedByName u (ofFamily u packages sec.family) := by
  obtain ⟨parts, hparts, hsecs⟩ := bind_ok.mp h
  cases hsecs
  exact parts_ok (mapM_ok.mp hparts)

theorem headings_nodup (h : sections u hostname packages = .ok secs) : (secs.map (·.family)).Nodup :=
  List.Nodup.sublist (sections_ok h).1 (by decide)

theorem sections_packages (h : sections u hostname packages = .ok secs) :
    (secs.flatMap Section.packages).Perm packages := by
  rw [(sections_ok h).2.1]
  refine List.Perm.trans ?_ (perm_ofFamily (u := u) packages)
  exact List.Perm.flatMap_left _ fun family _ => sortedBy_perm _ _

theorem family_of_entry (h : sections u hostname packages = .ok secs) (hsec : sec ∈ secs) (he : e ∈ sec.entries) :
    familyOf u e.package = sec.family := by
  have hmem : e.package ∈ sec.packages := List.mem_map_of_mem he
  rw [(sections_ok h).2.2 sec hsec] at hmem
  have hgroup : e.package ∈ ofFamily u packages sec.family := (sortedBy_perm _ _).mem_iff.mp hmem
  simpa using (List.mem_filter.mp hgroup).2

theorem sections_error (h : sections u hostname packages = .error e) :
    ∃ pkg ∈ packages, bestUrl u hostname pkg = .error e := by
  rcases bind_error.mp h with hmap | ⟨parts, -, hpure⟩
  · obtain ⟨family, -, hfamily⟩ := mapM_error hmap
    unfold familySections at hfamily
    split at hfamily
    · cases hfamily
    · rename_i pkg pkgs hcons
      rcases bind_error.mp hfamily with hentries | ⟨es, -, hpure⟩
      · obtain ⟨pair, hpair, hurl⟩ := mapM_error hentries
        rcases bind_error.mp hurl with hurl | ⟨url, -, hpure⟩
        · refine ⟨pair.1, ?_, hurl⟩
          have hmem : pair.1 ∈ sortedByName u (pkg :: pkgs) := (List.mem_zipIdx hpair).2.2 ▸ List.getElem_mem _
          have hgroup : pair.1 ∈ ofFamily u packages family := by
            rw [← get_groups]
            exact hcons ▸ (sortedBy_perm _ _).mem_iff.mp hmem
          exact (List.mem_filter.mp hgroup).1
        · cases hpure
      · cases hpure
  · cases hpure

-- ---------------------------------------------------------------------------
-- The paths
-- ---------------------------------------------------------------------------

def Cites (u : Unicode) (packages : List Package) (pkg : Package) (file path : Str) : Prop :=
  pkg ∈ packages ∧ file ∈ pkg.licenseFiles.keys ∧ path = artifactPath u pkg file

def citedPaths (u : Unicode) (secs : List Section) : List Str :=
  secs.flatMap fun sec => sec.entries.flatMap (Entry.cited u)

theorem mem_citedPaths (h : sections u hostname packages = .ok secs) :
    path ∈ citedPaths u secs ↔ ∃ pkg file, Cites u packages pkg file path := by
  have hmem {pkg : Package} : pkg ∈ packages ↔ ∃ sec ∈ secs, ∃ e ∈ sec.entries, e.package = pkg := by
    rw [← (sections_packages h).mem_iff, List.mem_flatMap]
    simp only [Section.packages, List.mem_map]
  have hfiles {pkg : Package} {file : Str} : file ∈ sortedBy id pkg.licenseFiles.keys ↔ file ∈ pkg.licenseFiles.keys :=
    (sortedBy_perm _ _).mem_iff
  simp only [citedPaths, List.mem_flatMap, Entry.cited, List.mem_map, hfiles, Cites, hmem]
  constructor
  · rintro ⟨sec, hsec, e, he, file, hfile, rfl⟩
    exact ⟨e.package, file, ⟨sec, hsec, e, he, rfl⟩, hfile, rfl⟩
  · rintro ⟨pkg, file, ⟨sec, hsec, e, he, rfl⟩, hfile, rfl⟩
    exact ⟨sec, hsec, e, he, file, hfile, rfl⟩

theorem takeWhile_slash {p s : Str} (h : '/' ∉ p) : (p ++ '/' :: s).takeWhile (· ≠ '/') = p := by
  have hall : ∀ c ∈ p, decide (c ≠ '/') = true := by
    intro c hc
    rw [decide_eq_true_eq]
    rintro rfl
    exact h hc
  rw [List.takeWhile_append_of_pos hall]
  simp

theorem append_slash_inj {p q s t : Str} (hp : '/' ∉ p) (hq : '/' ∉ q) (h : p ++ '/' :: s = q ++ '/' :: t) :
    p = q ∧ s = t := by
  have hpq : p = q := by rw [← takeWhile_slash (s := s) hp, h, takeWhile_slash hq]
  subst hpq
  exact ⟨rfl, by simpa using h⟩

theorem artifactPath_ne_notice (u : Unicode) (pkg : Package) (file : Str) : artifactPath u pkg file ≠ noticeKey := by
  intro h
  have hslash : '/' ∈ noticeKey := by
    rw [← h]
    simp [artifactPath]
  exact absurd hslash (by decide)

section

variable (hslash : ∀ pkg ∈ packages, '/' ∉ pkg.name)
  (hdistinct : (packages.map fun pkg => canonicalDir u pkg.name).Nodup)

include hslash hdistinct

theorem artifactPath_inj (hp : p ∈ packages) (hq : q ∈ packages) (h : artifactPath u p f = artifactPath u q g) :
    p = q ∧ f = g := by
  have htail : canonicalDir u p.name ++ '/' :: f = canonicalDir u q.name ++ '/' :: g := by
    simpa [artifactPath] using h
  obtain ⟨hdir, hfile⟩ := append_slash_inj (slash_not_mem_canonicalDir (hslash p hp))
    (slash_not_mem_canonicalDir (hslash q hq)) htail
  exact ⟨List.inj_on_of_nodup_map hdistinct hp hq hdir, hfile⟩

theorem artifacts_nodup : ((artifacts u packages).map Prod.fst).Nodup := by
  have hkeys : (artifacts u packages).map Prod.fst =
      packages.flatMap fun pkg => pkg.licenseFiles.keys.map (artifactPath u pkg) := by
    simp only [artifacts, List.map_flatMap, Dict.keys, List.map_map]
    rfl
  rw [hkeys, List.nodup_flatMap]
  refine ⟨fun pkg hpkg => ?_, ?_⟩
  · exact pkg.licenseFiles.nodup.map_on fun f _ g _ h => (artifactPath_inj hslash hdistinct hpkg hpkg h).2
  · have hne : packages.Pairwise (· ≠ ·) := List.Nodup.of_map _ hdistinct
    refine hne.imp_of_mem fun {p q} hp hq hpq => ?_
    rintro path hpath hpath'
    obtain ⟨f, -, rfl⟩ := List.mem_map.mp hpath
    obtain ⟨g, -, heq⟩ := List.mem_map.mp hpath'
    exact hpq (artifactPath_inj hslash hdistinct hq hp heq).1.symm

theorem get_buildOutputs (h : buildOutputs u hostname cloud packages hasUv = .ok outputs) :
    ∃ secs, sections u hostname packages = .ok secs ∧ ∀ path text, outputs.get? path = some text ↔
      path = noticeKey ∧ text = noticeText u cloud secs hasUv ∨
        ∃ pkg ∈ packages, ∃ file, pkg.licenseFiles.get? file = some text ∧ path = artifactPath u pkg file := by
  obtain ⟨notice, hnotice, houtputs⟩ := bind_ok.mp h
  obtain ⟨secs, hsecs, hpure⟩ := bind_ok.mp hnotice
  cases hpure
  cases houtputs
  refine ⟨secs, hsecs, fun path text => ?_⟩
  have hmem : (path, text) ∈ artifacts u packages ↔
      ∃ pkg ∈ packages, ∃ file, pkg.licenseFiles.get? file = some text ∧ path = artifactPath u pkg file := by
    simp only [artifacts, List.mem_flatMap, List.mem_map, Prod.exists, Prod.mk.injEq, Dict.get?_eq_some]
    constructor
    · rintro ⟨pkg, hpkg, file, text', hfile, rfl, rfl⟩
      exact ⟨pkg, hpkg, file, hfile, rfl⟩
    · rintro ⟨pkg, hpkg, file, hfile, rfl⟩
      exact ⟨pkg, hpkg, file, text, hfile, rfl, rfl⟩
  rw [Dict.get?_update (artifacts_nodup hslash hdistinct), hmem, Dict.get?_set, Dict.get?_empty, or_comm]
  refine or_congr_left ?_
  by_cases hkey : path = noticeKey
  · have hnot : path ∉ (artifacts u packages).map Prod.fst := by
      rintro hin
      obtain ⟨pair, hpair, rfl⟩ := List.mem_map.mp hin
      obtain ⟨pkg, -, hfile⟩ := List.mem_flatMap.mp hpair
      obtain ⟨file, -, rfl⟩ := List.mem_map.mp hfile
      exact artifactPath_ne_notice u pkg file.1 hkey
    simp [hkey ▸ hnot, hkey, eq_comm]
  · simp [hkey]

end

def samplePackage (name expression : String) (files : List (String × String)) : Package where
  name := name.toList
  version := "1.0".toList
  licenseExpression := expression.toList
  classifiers := []
  licenseField := []
  homePage := []
  projectUrls := []
  licenseFiles := Dict.empty.update (files.map fun file => (file.1.toList, file.2.toList))

/-- No URL has a host. -/
def noHost (_url : Str) : Result (Option Str) := .ok none

/-- Two files of one package with one base name, and a package of another family. -/
def twoPackages : List Package :=
  [samplePackage "Zope.Interface" "Apache-2.0" [("LICENSE", "root"), ("licenses/LICENSE", "nested")],
    samplePackage "attrs" "MIT" [("licenses/LICENSE", "text")]]

-- ---------------------------------------------------------------------------
-- The order of the packages
-- ---------------------------------------------------------------------------

theorem familySections_congr {groups groups' : Dict Str (List Package)}
    (h : sortedByName u ((groups.get? family).getD []) = sortedByName u ((groups'.get? family).getD [])) :
    familySections u hostname groups family = familySections u hostname groups' family := by
  have hlength := congrArg List.length h
  simp only [sortedByName, (sortedBy_perm _ _).length_eq] at hlength
  unfold familySections
  cases hpkgs : (groups.get? family).getD [] with
  | nil =>
    rw [hpkgs, List.length_nil] at hlength
    rw [List.length_eq_zero_iff.mp hlength.symm]
  | cons pkg pkgs =>
    cases hpkgs' : (groups'.get? family).getD [] with
    | nil => simp [hpkgs, hpkgs'] at hlength
    | cons pkg' pkgs' =>
      rw [hpkgs, hpkgs'] at h
      simp only [entries, h]

section

variable (hdistinct : (packages.map fun pkg => canonicalDir u pkg.name).Nodup)
  (hsigma : ∀ p ∈ packages, ∀ q ∈ packages, 'Σ' ∈ p.name → u.lower p.name = u.lower q.name → p = q)
  (hperm : packages.Perm packages')

include hdistinct hsigma

theorem lower_name_inj (hp : p ∈ packages) (hq : q ∈ packages) (h : u.lower p.name = u.lower q.name) : p = q := by
  by_cases hps : 'Σ' ∈ p.name
  · exact hsigma p hp q hq hps h
  · by_cases hqs : 'Σ' ∈ q.name
    · exact (hsigma q hq p hp hqs h.symm).symm
    · exact List.inj_on_of_nodup_map hdistinct hp hq (canonicalDir_of_lower hps hqs h)

include hperm

theorem sections_perm : sections u hostname packages = sections u hostname packages' := by
  have hfamily (family : Str) : familySections u hostname (Dict.groupBy (familyOf u) packages) family =
      familySections u hostname (Dict.groupBy (familyOf u) packages') family := by
    refine familySections_congr ?_
    rw [get_groups, get_groups]
    refine sortedBy_congr (hperm.filter _) fun p hp q hq h => ?_
    exact lower_name_inj hdistinct hsigma (List.mem_filter.mp hp).1 (List.mem_filter.mp hq).1 h
  simp only [sections, funext hfamily]

/-- The outputs are one map in whatever order the packages are listed. -/
theorem buildOutputs_perm (hslash : ∀ pkg ∈ packages, '/' ∉ pkg.name) (cloud : Str) (hasUv : Bool) :
    (buildOutputs u hostname cloud packages hasUv).map Dict.get? =
      (buildOutputs u hostname cloud packages' hasUv).map Dict.get? := by
  have hslash' : ∀ pkg ∈ packages', '/' ∉ pkg.name := fun pkg hpkg => hslash pkg (hperm.mem_iff.mpr hpkg)
  have hdistinct' := (hperm.map fun pkg => canonicalDir u pkg.name).nodup_iff.mp hdistinct
  have hsections : sections u hostname packages = sections u hostname packages' := sections_perm hdistinct hsigma hperm
  cases hsecs : sections u hostname packages with
  | error e =>
    have hsecs' := hsections.symm.trans hsecs
    simp only [buildOutputs, renderNotice, hsecs, hsecs', error_bind]
  | ok secs =>
    have hsecs' := hsections.symm.trans hsecs
    obtain ⟨outputs, houtputs⟩ : ∃ outputs, buildOutputs u hostname cloud packages hasUv = .ok outputs := by
      simp only [buildOutputs, renderNotice, hsecs, ok_bind]
      exact ⟨_, rfl⟩
    obtain ⟨outputs', houtputs'⟩ : ∃ outputs, buildOutputs u hostname cloud packages' hasUv = .ok outputs := by
      simp only [buildOutputs, renderNotice, hsecs', ok_bind]
      exact ⟨_, rfl⟩
    rw [houtputs, houtputs']
    refine congrArg Except.ok (funext fun path => Option.ext fun text => ?_)
    obtain ⟨_, hok, hget⟩ := get_buildOutputs hslash hdistinct houtputs
    obtain ⟨_, hok', hget'⟩ := get_buildOutputs hslash' hdistinct' houtputs'
    rw [hsecs] at hok
    rw [hsecs'] at hok'
    cases hok
    cases hok'
    simp only [hget, hget', hperm.mem_iff]

end

theorem buildOutputs_perm_twoPackages :
    (buildOutputs sampleUnicode noHost "aws".toList twoPackages true).map Dict.get? =
      (buildOutputs sampleUnicode noHost "aws".toList twoPackages.reverse true).map Dict.get? :=
  buildOutputs_perm (by decide) (by decide) (List.reverse_perm _).symm (by decide) _ true

/-- Two names with one path between them, and two that only their case keeps apart. -/
def slashNames : List Package :=
  [samplePackage "a" "MIT" [("b/LICENSE", "first")], samplePackage "a/b" "MIT" [("LICENSE", "second")]]

def sigmaNames : List Package := [samplePackage "AΣ.B" "MIT" [], samplePackage "Aσ.B" "MIT" []]

theorem order_matters :
    (∃ packages', slashNames.Perm packages' ∧
      (slashNames.map fun pkg => canonicalDir sampleUnicode pkg.name).Nodup ∧
      (buildOutputs sampleUnicode noHost "aws".toList slashNames false).map Dict.get? ≠
        (buildOutputs sampleUnicode noHost "aws".toList packages' false).map Dict.get?) ∧
    ∃ packages', sigmaNames.Perm packages' ∧
      (sigmaNames.map fun pkg => canonicalDir sampleUnicode pkg.name).Nodup ∧
      (buildOutputs sampleUnicode noHost "aws".toList sigmaNames false).map Dict.get? ≠
        (buildOutputs sampleUnicode noHost "aws".toList packages' false).map Dict.get? := by
  have differ {packages packages' : List Package} (path : Str)
      (h : ((buildOutputs sampleUnicode noHost "aws".toList packages false).map fun outputs => outputs.get? path) ≠
        (buildOutputs sampleUnicode noHost "aws".toList packages' false).map fun outputs => outputs.get? path) :
      (buildOutputs sampleUnicode noHost "aws".toList packages false).map Dict.get? ≠
        (buildOutputs sampleUnicode noHost "aws".toList packages' false).map Dict.get? := by
    intro heq
    refine h ?_
    have hpath := congrArg (Except.map fun get : Str → Option Str => get path) heq
    cases hp : buildOutputs sampleUnicode noHost "aws".toList packages false <;>
      cases hq : buildOutputs sampleUnicode noHost "aws".toList packages' false <;>
        simp_all [Except.map]
  refine ⟨⟨slashNames.reverse, (List.reverse_perm _).symm, by decide, differ "LICENSES/a/b/LICENSE".toList ?_⟩,
    sigmaNames.reverse, (List.reverse_perm _).symm, by decide, differ noticeKey ?_⟩
  · decide +kernel
  · show (Except.ok (some (noticeText _ _ _ _)) : Result (Option Str)) ≠ .ok (some (noticeText _ _ _ _))
    -- the kernel decodes literals slowly
    simp only [noticeText, preamble, List.map_cons, List.map_nil, List.cons_append, List.nil_append]
    repeat rw [String.toList_ofList]
    decide +kernel

end LlmWorker.Licenses
