import LlmWorker.Licenses.Drift
import LlmWorker.Licenses.Gates

/-!
# The directories of the generator

What the writer leaves in its directory, node by node, and in the ones beside
it: those of the other clouds and that of uv.
-/

namespace LlmWorker.Licenses

open Python FileTree

variable {u : Unicode} {hostname : Str → Result (Option Str)}

/-- Names that distributions and their license files can have on a disk. -/
structure Bundled (u : Unicode) (packages : List Package) : Prop where
  names : ∀ pkg ∈ packages, pkg.name ≠ [] ∧ '/' ∉ pkg.name ∧ '\x00' ∉ pkg.name
  files : ∀ pkg ∈ packages, ∀ file ∈ pkg.licenseFiles.keys,
    parts file ≠ [] ∧ pathText (parts file) = file ∧ ∀ name ∈ parts file, ValidName name
  apart : ∀ pkg ∈ packages, ∀ pkg' ∈ packages, canonicalDir u pkg.name = canonicalDir u pkg'.name →
    ∀ file ∈ pkg.licenseFiles.keys, ∀ file' ∈ pkg'.licenseFiles.keys, parts file <+: parts file' → file = file'

theorem collapse_ne_nil (h : s ≠ []) : collapse false s ≠ [] := by
  cases s with
  | nil => exact absurd rfl h
  | cons c s =>
    rw [collapse]
    split <;> simp

theorem not_separator_of_mem_collapse (h : c ∈ collapse r s) : isSeparator c = false ∨ c = '-' := by
  induction s generalizing r with
  | nil => cases h
  | cons d s ih =>
    rw [collapse] at h
    split at h
    · split at h
      · exact ih h
      · exact (List.mem_cons.mp h).elim .inr ih
    · rename_i hsep
      rcases List.mem_cons.mp h with rfl | h
      · exact .inl (by simpa using hsep)
      · exact ih h

/-- A character that no lower case letter is, and no other character's lower case. -/
theorem not_mem_canonicalDir (hd : d.toNat < 128) (hlower : d.isLower = false)
    (honly : ∀ n < 128, (Char.ofNat n).toLower = d → Char.ofNat n = d) (h : d ∉ collapse false name) :
    d ∉ canonicalDir u name := by
  intro hmem
  rcases Unicode.mem_lowerFrom hmem hd with hl | ⟨c, hc, hascii, heq⟩
  · rw [hlower] at hl
    cases hl
  · have hc' : c = d := by simpa using honly c.toNat hascii (by simpa using heq)
    exact h (hc' ▸ hc)

theorem canonicalDir_ne_nil (h : name ≠ []) : canonicalDir u name ≠ [] := by
  have hcollapse : collapse false name ≠ [] := collapse_ne_nil h
  rw [canonicalDir, Unicode.lower]
  cases hs : collapse false name with
  | nil => exact absurd hs hcollapse
  | cons c s =>
    rw [Unicode.lowerFrom]
    refine List.append_ne_nil_of_left_ne_nil ?_ _
    split
    · simp
    · exact u.lowerChar_ne_nil c

theorem canonicalDir_valid (hne : name ≠ []) (hslash : '/' ∉ name) (hnul : '\x00' ∉ name) :
    ValidName (canonicalDir u name) := by
  have hdot : '.' ∉ canonicalDir u name := by
    refine not_mem_canonicalDir (by decide) (by decide) (by decide) fun hmem => ?_
    exact absurd (not_separator_of_mem_collapse hmem) (by decide)
  have hnul' : '\x00' ∉ canonicalDir u name := by
    refine not_mem_canonicalDir (by decide) (by decide) (by decide) fun hmem => ?_
    exact (mem_collapse hmem).elim hnul (by decide)
  refine ⟨canonicalDir_ne_nil hne, ?_, ?_, slash_not_mem_canonicalDir hslash, hnul'⟩
  · intro heq
    simp [heq] at hdot
  · intro heq
    simp [heq, dotdot] at hdot

theorem pathText_cons_cons (name : Name) (h : path ≠ []) : pathText (name :: path) = name ++ '/' :: pathText path := by
  cases path with
  | nil => exact absurd rfl h
  | cons next path => simp [pathText, join, List.intercalate]

theorem Bundled.parts_artifactPath (h : Bundled u packages) (hpkg : pkg ∈ packages)
    (hfile : file ∈ pkg.licenseFiles.keys) :
    parts (artifactPath u pkg file) = licensesDir :: canonicalDir u pkg.name :: parts file ∧
      pathText (licensesDir :: canonicalDir u pkg.name :: parts file) = artifactPath u pkg file ∧
      ∀ name ∈ licensesDir :: canonicalDir u pkg.name :: parts file, ValidName name := by
  obtain ⟨hne, htext, hvalid⟩ := h.files pkg hpkg file hfile
  obtain ⟨hname, hslash, hnul⟩ := h.names pkg hpkg
  have hall : ∀ name ∈ licensesDir :: canonicalDir u pkg.name :: parts file, ValidName name :=
    List.forall_mem_cons.mpr ⟨by decide, List.forall_mem_cons.mpr ⟨canonicalDir_valid hname hslash hnul, hvalid⟩⟩
  have hpath : pathText (licensesDir :: canonicalDir u pkg.name :: parts file) = artifactPath u pkg file := by
    rw [pathText_cons_cons _ (by simp), pathText_cons_cons _ hne, htext, artifactPath]
  exact ⟨by rw [← hpath, parts_pathText hall], hpath, hall⟩

theorem mem_keys_update {entries : List (Str × Str)} {d : Dict Str Str} :
    rel ∈ (d.update entries).keys ↔ rel ∈ entries.map Prod.fst ∨ rel ∈ d.keys := by
  induction entries generalizing d with
  | nil => simp [Dict.update]
  | cons e entries ih =>
    show rel ∈ ((d.set e.1 e.2).update entries).keys ↔ _
    rw [ih, Dict.mem_keys_set, List.map_cons, List.mem_cons, or_assoc, or_left_comm]

theorem mem_keys_buildOutputs (h : buildOutputs u hostname cloud packages hasUv = .ok outputs) :
    rel ∈ outputs.keys ↔
      rel = noticeKey ∨ ∃ pkg ∈ packages, ∃ file ∈ pkg.licenseFiles.keys, rel = artifactPath u pkg file := by
  obtain ⟨notice, -, houtputs⟩ := bind_ok.mp h
  cases houtputs
  rw [mem_keys_update, Dict.mem_keys_set, or_comm]
  refine or_congr (by simp [Dict.keys, Dict.empty]) ?_
  simp only [artifacts, List.map_flatMap, List.mem_flatMap, List.map_map, Dict.keys, List.mem_map]
  constructor
  · rintro ⟨pkg, hpkg, file, hfile, rfl⟩
    exact ⟨pkg, hpkg, file.1, ⟨file, hfile, rfl⟩, rfl⟩
  · rintro ⟨pkg, hpkg, _, ⟨file, hfile, rfl⟩, rfl⟩
    exact ⟨pkg, hpkg, file, hfile, rfl⟩

theorem Bundled.legalPaths (h : Bundled u packages)
    (hbuilt : buildOutputs u hostname cloud packages hasUv = .ok outputs) : LegalPaths outputs := by
  have hnotice : parts noticeKey = [noticeKey] := by decide
  have hcases {rel : Str} (hrel : rel ∈ outputs.keys) := (mem_keys_buildOutputs hbuilt).mp hrel
  refine ⟨(mem_keys_buildOutputs hbuilt).mpr (.inl rfl), fun rel hrel => ?_, fun rel hrel => ?_,
    fun rel hrel other hother hpre => ?_⟩
  · rcases hcases hrel with rfl | ⟨pkg, hpkg, file, hfile, rfl⟩
    · decide
    · obtain ⟨hparts, htext, -⟩ := h.parts_artifactPath hpkg hfile
      rw [hparts, htext]
  · rcases hcases hrel with rfl | ⟨pkg, hpkg, file, hfile, rfl⟩
    · exact ⟨by decide, .inl hnotice⟩
    · obtain ⟨hparts, -, hvalid⟩ := h.parts_artifactPath hpkg hfile
      rw [hparts]
      exact ⟨hvalid, .inr ⟨by simp, by simp⟩⟩
  · rcases hcases hrel with rfl | ⟨pkg, hpkg, file, hfile, rfl⟩
    · rcases hcases hother with rfl | ⟨pkg', hpkg', file', hfile', rfl⟩
      · rfl
      · rw [hnotice, (h.parts_artifactPath hpkg' hfile').1] at hpre
        exact absurd (List.cons_prefix_cons.mp hpre).1 (by decide)
    · rw [(h.parts_artifactPath hpkg hfile).1] at hpre
      rcases hcases hother with rfl | ⟨pkg', hpkg', file', hfile', rfl⟩
      · rw [hnotice] at hpre
        exact absurd (List.cons_prefix_cons.mp hpre).1 (by decide)
      · rw [(h.parts_artifactPath hpkg' hfile').1] at hpre
        obtain ⟨-, hpre⟩ := List.cons_prefix_cons.mp hpre
        obtain ⟨hdir, hpre⟩ := List.cons_prefix_cons.mp hpre
        rw [h.apart pkg hpkg pkg' hpkg' hdir file hfile file' hfile' hpre, artifactPath, artifactPath, hdir]

-- ---------------------------------------------------------------------------
-- What the writer leaves, node by node
-- ---------------------------------------------------------------------------

section

variable {t t' : Tree} {outputs : Dict Str Str} {outDir : TreePath} (hlegal : LegalPaths outputs)

theorem universalNewlines_eq_self : universalNewlines s = s ↔ '\r' ∉ s := by
  constructor
  · intro h
    have hnone (s : Str) : '\r' ∉ universalNewlines s := by
      fun_induction universalNewlines s with
      | case1 => simp
      | case2 s ih => simpa using ih
      | case3 c s hpair ih =>
        rw [List.mem_cons, not_or]
        refine ⟨?_, ih⟩
        split
        · decide
        · exact Ne.symm (by assumption)
    rw [← h]
    exact hnone s
  · exact universalNewlines_of_no_cr

include hlegal

theorem writeOutputs_written (h : Unobstructed t outDir) (hrun : (writeOutputs outDir outputs).run t = .ok () t') :
    ∃ s, Written s outDir outputs.items t' ∧
      ∀ q, s.node q = if outDir ++ [licensesDir] <+: q ∧ q ≠ outDir ++ [licensesDir] then none else t.node q := by
  obtain ⟨s, hclean, hnodes⟩ := cleanLicenses_run h.clear
  have hready := ready_of_cleaned h hnodes
  have hstart : Written s outDir [] s := ⟨by simp, by simp, fun _ _ => rfl⟩
  obtain ⟨t'', hwrite, hwritten⟩ :=
    forM_run (Written s outDir) (fun _ _ _ _ hsplit => writeOutput_next hlegal hready hsplit) hstart
  have hsame : EStateM.Result.ok () t'' = .ok () t' := ((run_bind_ok hclean).trans hwrite).symm.trans hrun
  cases hsame
  exact ⟨s, hwritten, hnodes⟩

theorem writeOutputs_rewritten (h : Unobstructed t outDir) (hrun : (writeOutputs outDir outputs).run t = .ok () t') :
    Rewritten outDir outputs t t' := by
  obtain ⟨t'', hrun', hrewritten⟩ := writeOutputs_run hlegal h
  have hsame : EStateM.Result.ok () t'' = .ok () t' := hrun'.symm.trans hrun
  cases hsame
  exact hrewritten

theorem Unobstructed.after (h : Unobstructed t outDir) (hrun : (writeOutputs outDir outputs).run t = .ok () t') :
    Unobstructed t' outDir := by
  have hrewritten := writeOutputs_rewritten hlegal h hrun
  obtain ⟨s, hwritten, hnodes⟩ := writeOutputs_written hlegal h hrun
  refine ⟨⟨fun q hq => .inr (hrewritten.parents q hq), h.way.2⟩, fun n hn => ?_, fun n hn => ?_⟩
  · obtain ⟨text, hget⟩ := Dict.mem_keys.mp hlegal.notice
    have hfile := (hrewritten.files [noticeKey] ⟨by decide, .inl rfl⟩ (.text text)).mpr ⟨text, hget, rfl⟩
    exact ⟨_, Option.some.inj (hn.symm.trans hfile)⟩
  · have hkey : ∀ output ∈ outputs.items, output.1 ∈ outputs.keys := fun output hout => List.mem_map_of_mem hout
    have hcases := hwritten.cases (fun output hout => hlegal.parts_ne_nil (hkey output hout)) (outDir ++ [licensesDir])
    rcases hcases with ⟨output, hout, heq⟩ | hdir | ⟨-, hold⟩
    · have hparts : parts output.1 = [licensesDir] := (List.append_cancel_left heq).symm
      rcases (hlegal.artifact _ (hkey output hout)).place with hnotice | ⟨-, hne⟩
      · rw [hparts] at hnotice
        exact absurd hnotice (by decide)
      · exact absurd hparts hne
    · exact Option.some.inj (hn.symm.trans hdir)
    · rw [hold, hnodes, if_neg (by simp)] at hn
      exact h.licenses n hn

theorem writeOutputs_again (h : Unobstructed t outDir) (hrun : (writeOutputs outDir outputs).run t = .ok () t') :
    ∃ t'', (writeOutputs outDir outputs).run t' = .ok () t'' ∧ ∀ q, t''.node q = t'.node q := by
  obtain ⟨s, hwritten, hnodes⟩ := writeOutputs_written hlegal h hrun
  have hkey : ∀ output ∈ outputs.items, output.1 ∈ outputs.keys := fun output hout => List.mem_map_of_mem hout
  have hne : ∀ output ∈ outputs.items, parts output.1 ≠ [] := fun output hout => hlegal.parts_ne_nil (hkey output hout)
  have hother : ∀ q, (∀ output ∈ outputs.items, ¬q <+: outDir ++ parts output.1) → t'.node q =
      if outDir ++ [licensesDir] <+: q ∧ q ≠ outDir ++ [licensesDir] then none else t.node q := fun q hq => by
    rw [hwritten.rest q hq, hnodes]
  have h' := h.after hlegal hrun
  obtain ⟨t'', hrun', -⟩ := writeOutputs_run hlegal h'
  obtain ⟨s', hwritten', hnodes'⟩ := writeOutputs_written hlegal h' hrun'
  refine ⟨t'', hrun', fun q => ?_⟩
  by_cases hnew : ∀ output ∈ outputs.items, ¬q <+: outDir ++ parts output.1
  · rw [hwritten'.rest q hnew, hnodes', hother q hnew]
    split <;> rfl
  · simp only [not_forall, not_not] at hnew
    obtain ⟨output, hout, hpre⟩ := hnew
    rcases (prefix_parts (hne output hout)).mp hpre with rfl | hdir
    · rw [hwritten'.file output hout, hwritten.file output hout]
    · rw [hwritten'.dir output hout q hdir, hwritten.dir output hout q hdir]

-- ---------------------------------------------------------------------------
-- What the check reads of it
-- ---------------------------------------------------------------------------

/-- The tree is as the writer leaves it. -/
abbrev Generated (t : Tree) (outDir : TreePath) (outputs : Dict Str Str) : Prop := Rewritten outDir outputs t t

theorem Rewritten.read (hw : Rewritten outDir outputs t t') (hget : outputs.get? rel = some text) :
    readText t' (joinPath outDir rel) = .ok (universalNewlines text) := by
  have hkey : rel ∈ outputs.keys := Dict.mem_keys.mpr ⟨text, hget⟩
  have hartifact := hlegal.artifact rel hkey
  have hfile := (hw.files _ hartifact (.text text)).mpr ⟨text, by rw [hlegal.normal rel hkey, hget], rfl⟩
  obtain ⟨up, name, hparts, -⟩ := hartifact.split
  rw [hparts, ← List.append_assoc] at hfile
  rw [hlegal.join hkey, hparts, ← List.append_assoc]
  exact readText_file hfile

omit hlegal in
theorem findDrift_of_read
    (h : ∀ rel text, outputs.get? rel = some text → ∃ s, readText t (joinPath outDir rel) = .ok s) :
    ∃ drift, findDrift t outDir outputs = .ok drift := by
  cases hlines : (sortedBy Prod.fst outputs.items).mapM (driftOf t outDir) with
  | ok lines => exact ⟨_, bind_ok.mpr ⟨lines, hlines, rfl⟩⟩
  | error e =>
    obtain ⟨output, hout, herror⟩ := mapM_error hlines
    obtain ⟨s, hs⟩ := h output.1 output.2 (Dict.get?_eq_some.mpr ((sortedBy_perm _ _).mem_iff.mp hout))
    simp only [driftOf, hs] at herror
    split at herror <;> cases herror

theorem findDrift_written (h : Unobstructed t outDir) (hw : Rewritten outDir outputs t t') :
    ∃ drift, findDrift t' outDir outputs = .ok drift ∧
      (drift = [] ↔ ∀ rel text, outputs.get? rel = some text → '\r' ∉ text) := by
  obtain ⟨drift, hdrift⟩ := findDrift_of_read fun rel text hget => ⟨_, hw.read hlegal hget⟩
  refine ⟨drift, hdrift, ?_⟩
  constructor
  · rintro rfl rel text hget
    have hnone := (List.append_eq_nil_iff.mp (findDrift_ok hdrift).symm).1
    have hmem : (rel, text) ∈ sortedBy Prod.fst outputs.items :=
      (sortedBy_perm _ _).mem_iff.mpr (Dict.get?_eq_some.mp hget)
    have hline : outputLine t' outDir (rel, text) = none := List.filterMap_eq_nil_iff.mp hnone _ hmem
    have hread := hw.read hlegal hget
    simp only [outputLine, hread, exists_of_isFile (isFile_of_readText hread), if_true] at hline
    by_contra hcr
    have hne : universalNewlines text ≠ text := fun heq => universalNewlines_eq_self.mp heq hcr
    simp [hne] at hline
  · intro hcr
    have hnil := findDrift_rewritten hlegal h hw hcr
    rw [hdrift] at hnil
    exact Except.ok.inj hnil

end

-- ---------------------------------------------------------------------------
-- The directories side by side
-- ---------------------------------------------------------------------------

def licensingDir (repoRoot : TreePath) : TreePath := repoRoot ++ ["licensing".toList]
def cloudDir (repoRoot : TreePath) (cloud : Cloud) : TreePath := repoRoot ++ ["licensing".toList, cloud.text]
def uvDir (repoRoot : TreePath) : TreePath := repoRoot ++ ["licensing".toList, "uv".toList]
def uvFiles : List Name := ["LICENSE-APACHE".toList, "LICENSE-MIT".toList]

theorem cloudDir_eq (repoRoot : TreePath) (cloud : Cloud) :
    cloudDir repoRoot cloud = licensingDir repoRoot ++ [cloud.text] := by
  simp [cloudDir, licensingDir]

theorem uvDir_eq (repoRoot : TreePath) : uvDir repoRoot = licensingDir repoRoot ++ ["uv".toList] := by
  simp [uvDir, licensingDir]

/-- The uv directory and its two files stand where they are looked for. -/
structure UvPlain (t : Tree) (repoRoot : TreePath) : Prop where
  way : t.Clear (uvDir repoRoot)
  files : ∀ name ∈ uvFiles, ∀ target, t.node (uvDir repoRoot ++ [name]) ≠ some (.link target)

structure Plain (t : Tree) (repoRoot : TreePath) : Prop where
  clouds : ∀ cloud, Unobstructed t (cloudDir repoRoot cloud)
  uv : UvPlain t repoRoot

section

variable {t t' : Tree} {outputs other : Dict Str Str} {base repoRoot : TreePath} {a b : Name}

section

variable (hw : Rewritten (base ++ [a]) outputs t t') (hne : b ≠ a)

include hw hne

theorem Rewritten.beside (rest : TreePath) : t'.node (base ++ [b] ++ rest) = t.node (base ++ [b] ++ rest) := by
  have hapart {more : TreePath} : ¬base ++ [a] ++ more <+: base ++ [b] ++ rest := fun hpre => by
    simp only [List.append_assoc, List.prefix_append_right_inj, List.singleton_append, List.cons_prefix_cons] at hpre
    exact hne hpre.1.symm
  have hapart' : ¬base ++ [b] ++ rest <+: base ++ [a] := fun hpre => by
    simp only [List.append_assoc, List.prefix_append_right_inj, List.singleton_append, List.cons_prefix_cons] at hpre
    exact hne hpre.1
  refine hw.rest _ hapart' (fun heq => ?_) hapart
  exact @hapart [] ⟨[noticeKey], by rw [heq, List.append_nil]⟩

theorem Rewritten.beside_clear (h : t.Clear (base ++ [b])) : t'.Clear (base ++ [b]) := by
  refine ⟨fun q hq => ?_, h.2⟩
  rcases List.prefix_concat_iff.mp hq with rfl | hbase
  · have hsame := hw.beside hne []
    rw [List.append_nil] at hsame
    rw [hsame]
    exact h.1 _ hq
  · exact .inr (hw.parents q (hbase.trans (List.prefix_append _ _)))

theorem Rewritten.beside_unobstructed (h : Unobstructed t (base ++ [b])) : Unobstructed t' (base ++ [b]) := by
  refine ⟨hw.beside_clear hne h.way, ?_, ?_⟩
  · rw [hw.beside hne]
    exact h.notice
  · rw [hw.beside hne]
    exact h.licenses

theorem Rewritten.beside_generated (h : Generated t (base ++ [b]) other) : Generated t' (base ++ [b]) other := by
  refine ⟨fun path => ?_, fun path => ?_, fun q hq => ?_, fun _ _ _ _ => rfl⟩
  · rw [hw.beside hne]
    exact h.files path
  · rw [hw.beside hne]
    exact h.links path
  · rcases List.prefix_concat_iff.mp hq with rfl | hbase
    · have hsame := hw.beside hne []
      rw [List.append_nil] at hsame
      rw [hsame]
      exact h.parents _ hq
    · exact hw.parents q (hbase.trans (List.prefix_append _ _))

end

theorem Cloud.text_ne_uv (cloud : Cloud) : "uv".toList ≠ cloud.text := by
  cases cloud <;> decide

theorem Cloud.text_injective {c d : Cloud} (h : c ≠ d) : c.text ≠ d.text := by
  cases c <;> cases d <;> first | exact absurd rfl h | decide

theorem Plain.after (hlegal : LegalPaths outputs) (h : Plain t repoRoot)
    (hrun : (writeOutputs (cloudDir repoRoot cloud) outputs).run t = .ok () t') : Plain t' repoRoot := by
  have hw := writeOutputs_rewritten hlegal (h.clouds cloud) hrun
  rw [cloudDir_eq] at hw
  refine ⟨fun other => ?_, ?_, ?_⟩
  · by_cases heq : other = cloud
    · exact heq ▸ (h.clouds cloud).after hlegal hrun
    · rw [cloudDir_eq]
      exact hw.beside_unobstructed (Cloud.text_injective heq) (cloudDir_eq repoRoot other ▸ h.clouds other)
  · rw [uvDir_eq]
    exact hw.beside_clear cloud.text_ne_uv (uvDir_eq repoRoot ▸ h.uv.way)
  · have hfiles := h.uv.files
    rw [uvDir_eq] at hfiles ⊢
    intro name
    rw [hw.beside cloud.text_ne_uv]
    exact hfiles name

theorem Clear.isDir_congr (h : t.Clear path) (h' : t'.Clear path) (hsame : t'.node path = t.node path) :
    t'.isDir path = t.isDir path := by
  rw [Bool.eq_iff_iff, isDir_iff, isDir_iff]
  constructor
  · intro hdir
    exact stat_dir (hsame ▸ h'.dir_of_isDir (isDir_iff.mpr hdir))
  · intro hdir
    exact stat_dir (hsame ▸ h.dir_of_isDir (isDir_iff.mpr hdir))

def UvPresent (t : Tree) (repoRoot : TreePath) : Bool → Prop
  | false => t.isDir (uvDir repoRoot) = false
  | true => t.isDir (uvDir repoRoot) = true ∧ ∀ name ∈ uvFiles, t.isFile (uvDir repoRoot ++ [name]) = true

theorem uvLicensePresent_run (h : UvPresent t repoRoot hasUv) : (uvLicensePresent repoRoot).run t = .ok hasUv t := by
  cases hasUv with
  | false =>
    have hdir : t.isDir (repoRoot ++ ["licensing".toList, "uv".toList]) = false := h
    refine (run_bind_ok rfl).trans ?_
    simp only [hdir, Bool.false_eq_true, if_false]
    rfl
  | true =>
    obtain ⟨hdir, hfiles⟩ := h
    have hnil : (uvFiles.filter fun name => !t.isFile (uvDir repoRoot ++ [name])) = [] :=
      List.filter_eq_nil_iff.mpr fun name hname => by simp [hfiles name hname]
    refine (run_bind_ok rfl).trans ?_
    simp only [uvFiles, uvDir] at hnil hdir
    simp only [hdir, hnil, if_true, ne_eq, not_true_eq_false, if_false]
    rfl

theorem uvLicensePresent_exits (h : ∀ hasUv, ¬UvPresent t repoRoot hasUv) : Exits (uvLicensePresent repoRoot) t := by
  have hdir : t.isDir (uvDir repoRoot) = true := by simpa [UvPresent] using h false
  have hne : (uvFiles.filter fun name => !t.isFile (uvDir repoRoot ++ [name])) ≠ [] := fun hnil =>
    h true ⟨hdir, fun name hname => by simpa using List.filter_eq_nil_iff.mp hnil name hname⟩
  refine Exits.after (a := t) rfl ?_
  simp only [uvFiles, uvDir] at hne hdir
  simp only [hdir, hne, if_true, ne_eq, not_false_eq_true]
  exact exits_exit _ t

theorem UvPresent.congr (h : UvPlain t repoRoot) (h' : UvPlain t' repoRoot)
    (hsame : ∀ rest, t'.node (uvDir repoRoot ++ rest) = t.node (uvDir repoRoot ++ rest))
    (huv : UvPresent t repoRoot hasUv) : UvPresent t' repoRoot hasUv := by
  have hdir := hsame []
  rw [List.append_nil] at hdir
  have hisDir : t'.isDir (uvDir repoRoot) = t.isDir (uvDir repoRoot) := Clear.isDir_congr h.way h'.way hdir
  cases hasUv with
  | false => exact hisDir.trans huv
  | true =>
    obtain ⟨hyes, hfiles⟩ := huv
    refine ⟨hisDir.trans hyes, fun name hname => ?_⟩
    have hvalid : ValidName name := (by decide : ∀ name ∈ uvFiles, ValidName name) name hname
    have hstat := stat_child (h.way.dir_of_isDir hyes) hvalid (h.files name hname)
    have hstat' := stat_child (h'.way.dir_of_isDir (hisDir.trans hyes)) hvalid (h'.files name hname)
    rw [isFile_iff, hstat', hsame, ← hstat, ← isFile_iff]
    exact hfiles name hname

end

end LlmWorker.Licenses
