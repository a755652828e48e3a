import LlmWorker.Licenses.Generation
import LlmWorker.Python.JsonDumps

/-!
# The inventory of an image

`CONTAINER_EXTRACTOR` runs in the image and prints what is installed there as
one JSON text; `extract` reads it back, and a run that writes leaves the license
files in the tree.
-/

namespace LlmWorker.Licenses

open Python JsonText FileTree

/-- An installed distribution: its metadata, and the files of its record with
what reading them gives. -/
structure Distribution where
  name : Str
  version : Str
  licenseExpression : Option Str
  classifiers : Option (List Str)
  license : Option Str
  homePage : Option Str
  projectUrls : Option (List Str)
  files : Option (List (Str × Result Str))

-- ---------------------------------------------------------------------------
-- In the container
-- ---------------------------------------------------------------------------

def distInfo : Str := ".dist-info/".toList

/-- `s.split(".dist-info/", 1)[1]`, where there is one. -/
def afterDistInfo : Str → Option Str
  | [] => none
  | c :: s => if distInfo <+: c :: s then some ((c :: s).drop distInfo.length) else afterDistInfo s

/-- `rel.rsplit("/", 1)[-1]` -/
def baseName (rel : Str) : Str := (rel.reverse.takeWhile (· ≠ '/')).reverse

def licenseStems : List Str := ["LICENSE", "LICENCE", "COPYING", "NOTICE"].map String.toList

section

variable (u : Unicode)

def licensePath (path : Str) : Option Str :=
  (afterDistInfo (path.map fun c => if c = '\\' then '/' else c)).filter fun rel =>
    "licenses/".toList <+: rel ∨ ∃ stem ∈ licenseStems, stem <+: u.upper (baseName rel)

def addFile (files : Dict Str Str) (file : Str × Result Str) : Result (Dict Str Str) :=
  match licensePath u file.1 with
  | none => .ok files
  | some rel => do
    let text ← file.2
    return files.set rel (universalNewlines text)

def licenseFiles (d : Distribution) : Result (Dict Str Str) := (d.files.getD []).foldlM (addFile u) Dict.empty

def record (d : Distribution) : Result Package := do
  let files ← licenseFiles u d
  return {
    name := d.name
    version := d.version
    licenseExpression := d.licenseExpression.getD []
    classifiers := (d.classifiers.getD []).filter fun c => "License".toList <+: c
    licenseField := (strip (d.license.getD [])).take 80
    homePage := d.homePage.getD []
    projectUrls := d.projectUrls.getD []
    licenseFiles := files }

def installed (dists : List Distribution) : List Distribution := dists.filter fun d => d.name ≠ "llm-worker".toList

def inventory (dists : List Distribution) : Result (List Package) := (installed dists).mapM (record u)

end

def strJson (s : Str) : Json := .str (String.ofList s)

def filesJson (files : Dict Str Str) : Json :=
  .dict (files.items.map fun file => (String.ofList file.1, strJson file.2))

def Package.toJson (pkg : Package) : Json :=
  .dict [("name", strJson pkg.name), ("version", strJson pkg.version),
    ("license_expression", strJson pkg.licenseExpression), ("classifiers", .list (pkg.classifiers.map strJson)),
    ("license_field", strJson pkg.licenseField), ("home_page", strJson pkg.homePage),
    ("project_urls", .list (pkg.projectUrls.map strJson)), ("license_files", filesJson pkg.licenseFiles)]

def inventoryJson (packages : List Package) : Json := .list (packages.map Package.toJson)

-- ---------------------------------------------------------------------------
-- On the host
-- ---------------------------------------------------------------------------

/-- What becomes of `docker run`: its exit code is zero or not. -/
inductive DockerRun
  | notFound
  | timedOut
  | exited (success : Bool) (stdout stderr : Str)

/-- `print(json.dumps(out))` -/
def printed (F : FloatText) (packages : List Package) : List Char := dumps F (inventoryJson packages) ++ ['\n']

/-- The extractor in the container, with the traceback of what it raises. -/
def container (u : Unicode) (F : FloatText) (traceback : Exc → Str) (dists : List Distribution) : DockerRun :=
  match inventory u dists with
  | .ok packages => .exited true (printed F packages) []
  | .error e => .exited false [] (traceback e)

/-- `extract` up to the sorting; the streams are read as text. -/
def loadOutput (loads : String → Result Json) (repr : Str → Str) (image : Str) : DockerRun → Except Stop Json
  | .notFound => .error (.exit "docker not found on PATH — is Docker installed and on PATH?".toList)
  | .timedOut => .error (.exit ("docker extraction timed out after 300s for image ".toList ++ repr image))
  | .exited false _ stderr => .error (.exit ("docker extraction failed:\n".toList ++ universalNewlines stderr))
  | .exited true stdout _ =>
    let text := universalNewlines stdout
    match loads (String.ofList text) with
    | .ok payload => .ok payload
    | .error e =>
      if e.type = .jsonDecodeError then
        .error (.exit ("could not parse extractor output as JSON (".toList ++ e.text.toList ++
          "); first 500 chars of stdout:\n".toList ++ text.take 500))
      else .error (.raised e)

-- The records as their fields are read.

def strOf : Json → Option Str
  | .str s => some s.toList
  | _ => none

def strsOf : Json → Option (List Str)
  | .list items => items.mapM strOf
  | _ => none

def filesOf : Json → Option (Dict Str Str)
  | .dict items => (items.mapM fun kv => (strOf kv.2).map fun text => (kv.1.toList, text)).map Dict.empty.update
  | _ => none

def packageOf (v : Json) : Option Package := do
  return {
    name := ← (v.at? ["name"]).bind strOf
    version := ← (v.at? ["version"]).bind strOf
    licenseExpression := ← (v.at? ["license_expression"]).bind strOf
    classifiers := ← (v.at? ["classifiers"]).bind strsOf
    licenseField := ← (v.at? ["license_field"]).bind strOf
    homePage := ← (v.at? ["home_page"]).bind strOf
    projectUrls := ← (v.at? ["project_urls"]).bind strsOf
    licenseFiles := ← (v.at? ["license_files"]).bind filesOf }

def payloadOf : Json → Option (List Package)
  | .list items => items.mapM packageOf
  | _ => none

-- ---------------------------------------------------------------------------
-- What is read is what was printed
-- ---------------------------------------------------------------------------

@[simp] theorem strOf_strJson (s : Str) : strOf (strJson s) = some s := by
  rw [strJson, strOf, String.toList_ofList]

theorem strsOf_list (ss : List Str) : strsOf (.list (ss.map strJson)) = some ss := by
  rw [strsOf]
  induction ss with
  | nil => rfl
  | cons s ss ih => simp [List.mapM_cons, ih]

theorem items_update {entries : List (Str × Str)} {d : Dict Str Str}
    (h : ((d.items ++ entries).map Prod.fst).Nodup) : (d.update entries).items = d.items ++ entries := by
  induction entries generalizing d with
  | nil => simp [Dict.update]
  | cons e entries ih =>
    have hnew : e.1 ∉ d.keys := by
      intro hmem
      rw [List.map_append, List.nodup_append'] at h
      exact h.2.2 hmem (by simp)
    have hset : (d.set e.1 e.2).items = d.items ++ [e] := by simp [Dict.set, hnew]
    show ((d.set e.1 e.2).update entries).items = _
    rw [ih (by rw [hset]; simpa using h), hset, List.append_assoc]
    rfl

theorem filesOf_filesJson (files : Dict Str Str) : filesOf (filesJson files) = some files := by
  have hitems : (files.items.map fun file => (String.ofList file.1, strJson file.2)).mapM
      (fun kv => (strOf kv.2).map fun text => (kv.1.toList, text)) = some files.items := by
    induction files.items with
    | nil => rfl
    | cons file items ih => simp [List.mapM_cons, ih]
  have hupdate : Dict.empty.update files.items = files := by
    have hsame : (Dict.empty.update files.items).items = files.items := by
      rw [items_update (by simpa [Dict.empty] using files.nodup)]
      rfl
    cases files
    exact Dict.mk.injEq .. |>.mpr hsame
  rw [filesJson, filesOf, hitems, Option.map_some, hupdate]

theorem fields_toJson (pkg : Package) :
    pkg.toJson.at? ["name"] = some (strJson pkg.name) ∧ pkg.toJson.at? ["version"] = some (strJson pkg.version) ∧
    pkg.toJson.at? ["license_expression"] = some (strJson pkg.licenseExpression) ∧
    pkg.toJson.at? ["classifiers"] = some (.list (pkg.classifiers.map strJson)) ∧
    pkg.toJson.at? ["license_field"] = some (strJson pkg.licenseField) ∧
    pkg.toJson.at? ["home_page"] = some (strJson pkg.homePage) ∧
    pkg.toJson.at? ["project_urls"] = some (.list (pkg.projectUrls.map strJson)) ∧
    pkg.toJson.at? ["license_files"] = some (filesJson pkg.licenseFiles) := by
  simp [Package.toJson, Json.lookup_cons_ne]

theorem packageOf_toJson (pkg : Package) : packageOf pkg.toJson = some pkg := by
  obtain ⟨hname, hversion, hexpression, hclassifiers, hfield, hhome, hurls, hfiles⟩ := fields_toJson pkg
  simp [packageOf, hname, hversion, hexpression, hclassifiers, hfield, hhome, hurls, hfiles, strsOf_list,
    filesOf_filesJson]

theorem payloadOf_inventoryJson (packages : List Package) : payloadOf (inventoryJson packages) = some packages := by
  rw [inventoryJson, payloadOf]
  induction packages with
  | nil => rfl
  | cons pkg packages ih => simp [List.mapM_cons, packageOf_toJson, ih]

theorem finite_inventoryJson (packages : List Package) : (inventoryJson packages).Finite := by
  refine .list fun v hv => ?_
  obtain ⟨pkg, -, rfl⟩ := List.mem_map.mp hv
  have hstrs (ss : List Str) : (Json.list (ss.map strJson)).Finite := .list fun v hv => by
    obtain ⟨s, -, rfl⟩ := List.mem_map.mp hv
    exact .str
  have hfiles : (filesJson pkg.licenseFiles).Finite := .dict fun kv hkv => by
    obtain ⟨file, -, rfl⟩ := List.mem_map.mp hkv
    exact .str
  refine .dict ?_
  simp only [List.forall_mem_cons, List.not_mem_nil, false_imp_iff, implies_true, and_true]
  exact ⟨.str, .str, .str, hstrs _, .str, .str, hstrs _, hfiles⟩

theorem universalNewlines_printed (F : FloatText) (packages : List Package) :
    universalNewlines (printed F packages) = printed F packages := by
  refine universalNewlines_of_no_cr fun hmem => ?_
  rcases List.mem_append.mp hmem with hmem | hmem
  · exact absurd (printable_dumps F _ _ hmem) (by decide)
  · exact absurd hmem (by decide)

theorem denotes_printed (F : FloatText) (packages : List Package) :
    Denotes F (String.ofList (printed F packages)) (inventoryJson packages) := by
  rw [Denotes, String.toList_ofList]
  exact .element .refl (derives_dumps (finite_inventoryJson packages) ['\n']) (.skip (by decide) .refl)

section

variable {u : Unicode} {F : FloatText} {loads : String → Result Json} {repr : Str → Str} {traceback : Exc → Str}
  {dists : List Distribution} {packages : List Package}
  (hloads : ∀ packages, loads (String.ofList (printed F packages)) = .ok (inventoryJson packages))

include hloads in
theorem loadOutput_container (h : inventory u dists = .ok packages) (image : Str) :
    loadOutput loads repr image (container u F traceback dists) = .ok (inventoryJson packages) := by
  simp only [container, h, loadOutput, universalNewlines_printed, hloads]

theorem loadOutput_unreadable (h : inventory u dists = .error e) (image : Str) :
    loadOutput loads repr image (container u F traceback dists) =
      .error (.exit ("docker extraction failed:\n".toList ++ universalNewlines (traceback e))) := by
  rw [container, h, loadOutput]

-- ---------------------------------------------------------------------------
-- The license files of a distribution
-- ---------------------------------------------------------------------------

variable (u) in
/-- The text of the last file under the path. -/
def licenseText (d : Distribution) (rel : Str) : Option Str :=
  ((d.files.getD []).filter fun file => licensePath u file.1 = some rel).getLast?.bind fun file =>
    file.2.toOption.map universalNewlines

theorem get?_addFiles {files : List (Str × Result Str)} (h : files.foldlM (addFile u) start = .ok added) (rel : Str) :
    added.get? rel = match (files.filter fun file => licensePath u file.1 = some rel).getLast? with
      | some file => file.2.toOption.map universalNewlines
      | none => start.get? rel := by
  induction files using List.reverseRecOn generalizing added with
  | nil =>
    cases h
    rfl
  | append_singleton files file ih =>
    rw [List.foldlM_append] at h
    obtain ⟨before, hbefore, hlast⟩ := bind_ok.mp h
    rw [List.foldlM_cons] at hlast
    obtain ⟨_, hadd, hnil⟩ := bind_ok.mp hlast
    cases hnil
    rw [List.filter_append]
    cases hpath : licensePath u file.1 with
    | none =>
      simp only [addFile, hpath] at hadd
      cases hadd
      simpa [hpath] using ih hbefore
    | some rel' =>
      simp only [addFile, hpath, bind_ok, pure_ok] at hadd
      obtain ⟨text, htext, rfl⟩ := hadd
      rw [Dict.get?_set]
      by_cases hrel : rel = rel'
      · simp [hpath, hrel, htext, Except.toOption]
      · have hne : rel' ≠ rel := Ne.symm hrel
        simpa [hpath, hrel, hne] using ih hbefore

theorem record_ok (h : record u d = .ok pkg) :
    pkg.name = d.name ∧ ∀ rel, pkg.licenseFiles.get? rel = licenseText u d rel := by
  obtain ⟨files, hfiles, hpkg⟩ := bind_ok.mp h
  cases hpkg
  refine ⟨rfl, fun rel => ?_⟩
  rw [get?_addFiles hfiles rel, licenseText]
  cases ((d.files.getD []).filter fun file => licensePath u file.1 = some rel).getLast? <;> rfl

theorem partners_of_forall₂ {R : α → β → Prop} (h : List.Forall₂ R l l') :
    (∀ a ∈ l, ∃ b ∈ l', R a b) ∧ ∀ b ∈ l', ∃ a ∈ l, R a b := by
  induction h with
  | nil => simp
  | cons hab _ ih =>
    rw [List.forall_mem_cons, List.forall_mem_cons]
    refine ⟨⟨⟨_, List.mem_cons_self, hab⟩, fun a ha => ?_⟩, ⟨_, List.mem_cons_self, hab⟩, fun b hb => ?_⟩
    · obtain ⟨b, hb, hr⟩ := ih.1 a ha
      exact ⟨b, List.mem_cons_of_mem _ hb, hr⟩
    · obtain ⟨a, ha, hr⟩ := ih.2 b hb
      exact ⟨a, List.mem_cons_of_mem _ ha, hr⟩

-- ---------------------------------------------------------------------------
-- From the image to the tree
-- ---------------------------------------------------------------------------

section

variable {hostname : Str → Result (Option Str)} {t t' : Tree} {outDir repoRoot : TreePath} {outputs : Dict Str Str}

theorem Bundled.written (hbundled : Bundled u packages)
    (hdirs : (packages.map fun pkg => canonicalDir u pkg.name).Nodup)
    (hbuilt : buildOutputs u hostname cloud packages hasUv = .ok outputs) (hw : Rewritten outDir outputs t t') :
    t'.node (outDir ++ licensesDir :: dir :: path) = some (.file content) ↔
      ∃ pkg ∈ packages, ∃ rel text, pkg.licenseFiles.get? rel = some text ∧
        dir = canonicalDir u pkg.name ∧ path = parts rel ∧ content = .text text := by
  obtain ⟨secs, -, hget⟩ := get_buildOutputs (fun pkg hpkg => (hbundled.names pkg hpkg).2.1) hdirs hbuilt
  have hparts {pkg : Package} {rel text : Str} (hpkg : pkg ∈ packages) (hrel : pkg.licenseFiles.get? rel = some text) :=
    hbundled.parts_artifactPath hpkg (Dict.mem_keys.mpr ⟨text, hrel⟩)
  constructor
  · intro hnode
    have hthere : t'.node (outDir ++ licensesDir :: dir :: path) ≠ none := by simp [hnode]
    have hvalid := valid_of_mem hthere
    obtain ⟨text, hout, hcontent⟩ := (hw.files _ ⟨hvalid, .inr ⟨by simp, by simp⟩⟩ content).mp hnode
    rcases (hget _ text).mp hout with ⟨hnotice, -⟩ | ⟨pkg, hpkg, rel, hrel, hrelPath⟩
    · have hone := congrArg parts hnotice
      rw [parts_pathText hvalid] at hone
      exact absurd (hone.trans (by decide : parts noticeKey = [noticeKey])) (by simp)
    · have hsame := congrArg parts hrelPath
      rw [parts_pathText hvalid, (hparts hpkg hrel).1] at hsame
      obtain ⟨-, hsame⟩ := List.cons.inj hsame
      obtain ⟨hdir, hrest⟩ := List.cons.inj hsame
      exact ⟨pkg, hpkg, rel, text, hrel, hdir, hrest, hcontent⟩
  · rintro ⟨pkg, hpkg, rel, text, hrel, rfl, rfl, rfl⟩
    obtain ⟨-, htext, hvalid⟩ := hparts hpkg hrel
    refine (hw.files _ ⟨hvalid, .inr ⟨by simp, by simp⟩⟩ _).mpr ⟨text, ?_, rfl⟩
    rw [htext]
    exact (hget _ text).mpr (.inr ⟨pkg, hpkg, rel, hrel, rfl⟩)

include hloads in
/-- A run that writes leaves, below LICENSES, the license files of the installed
distributions and no other file: each under the directory of its distribution
and its path there, with the text it has in the image, line breaks made one
kind. No distribution is without. -/
theorem licenses_written (hload : loadOutput loads repr image (container u F traceback dists) = .ok v)
    (hpayload : payloadOf v = some payload) (hbundled : Bundled u payload)
    (hdirs : (payload.map fun pkg => canonicalDir u pkg.name).Nodup) (hfree : Unobstructed t (cloudDir repoRoot cloud))
    (hok : (main u hostname repoRoot ⟨cloud, image, false⟩ (.ok payload)).run t = .ok message t') :
    (∀ d ∈ installed dists, ∃ rel text, licenseText u d rel = some text) ∧
    ∀ dir path content, t'.node (cloudDir repoRoot cloud ++ licensesDir :: dir :: path) = some (.file content) ↔
      ∃ d ∈ installed dists, ∃ rel text, licenseText u d rel = some text ∧
        dir = canonicalDir u d.name ∧ path = parts rel ∧ content = .text text := by
  cases hinventory : inventory u dists with
  | error e =>
    rw [loadOutput_unreadable hinventory] at hload
    cases hload
  | ok packages =>
    rw [loadOutput_container hloads hinventory] at hload
    cases hload
    obtain rfl : packages = payload := Option.some.inj ((payloadOf_inventoryJson packages).symm.trans hpayload)
    obtain ⟨records, hasUv, outputs, hprepared, hlegal, hwrite⟩ := write_ok hfree hbundled hok
    obtain ⟨_, hrun, hsorted⟩ := hprepared.extracted
    cases hrun
    have hperm : records.Perm packages := hsorted ▸ sortedBy_perm _ _
    have hrewritten := writeOutputs_rewritten hlegal hfree hwrite
    have hbundled' : Bundled u records := hbundled.of_perm hperm
    have hdirs' : (records.map fun pkg => canonicalDir u pkg.name).Nodup := (hperm.map _).nodup_iff.mpr hdirs
    obtain ⟨hrecorded, hinstalled⟩ := partners_of_forall₂ (mapM_ok.mp hinventory)
    constructor
    · intro d hd
      obtain ⟨pkg, hpkg, hrecord⟩ := hrecorded d hd
      obtain ⟨-, htexts⟩ := record_ok hrecord
      obtain ⟨file, hfile⟩ := List.exists_mem_of_ne_nil _ (hprepared.bundled pkg (hperm.mem_iff.mpr hpkg))
      exact ⟨file.1, file.2, (htexts file.1).symm.trans (Dict.get?_eq_some.mpr hfile)⟩
    · intro dir path content
      rw [hbundled'.written hdirs' hprepared.built hrewritten]
      constructor
      · rintro ⟨pkg, hpkg, rel, text, hrel, rfl, rfl, rfl⟩
        obtain ⟨d, hd, hrecord⟩ := hinstalled pkg (hperm.mem_iff.mp hpkg)
        obtain ⟨hname, htexts⟩ := record_ok hrecord
        exact ⟨d, hd, rel, text, (htexts rel).symm.trans hrel, by rw [hname], rfl, rfl⟩
      · rintro ⟨d, hd, rel, text, htext, rfl, rfl, rfl⟩
        obtain ⟨pkg, hpkg, hrecord⟩ := hrecorded d hd
        obtain ⟨hname, htexts⟩ := record_ok hrecord
        exact ⟨pkg, hperm.mem_iff.mpr hpkg, rel, text, (htexts rel).trans htext, by rw [hname], rfl, rfl⟩

end

end

def sampleDists : List Distribution :=
  [{  name := "attrs".toList
      version := "1.0".toList
      licenseExpression := some "MIT".toList
      classifiers := none
      license := none
      homePage := none
      projectUrls := none
      files := some [("attrs/__init__.py".toList, .error ⟨.other "OSError", "not read"⟩),
        ("attrs-1.0.dist-info/licenses/LICENSE".toList, .ok "text".toList)] },
    { name := "llm-worker".toList
      version := "0.1.0".toList
      licenseExpression := none
      classifiers := none
      license := none
      homePage := none
      projectUrls := none
      files := none }]

theorem inventory_sample : inventory sampleUnicode sampleDists = .ok samplePayload := by
  decide +kernel

/-- `json.loads`, as far as RFC 8259 goes. -/
def readJson (F : FloatText) (text : String) : Result Json :=
  (read F text.toList).elim (.error ⟨.jsonDecodeError, "Expecting value: line 1 column 1 (char 0)"⟩) .ok

theorem licenses_written_sample : ∃ message t',
    (main sampleUnicode noHost [] ⟨.aws, [], false⟩ (.ok samplePayload)).run staleTree = .ok message t' ∧
    ∀ dir path content, t'.node (cloudDir [] .aws ++ licensesDir :: dir :: path) = some (.file content) ↔
      ∃ d ∈ installed sampleDists, ∃ rel text, licenseText sampleUnicode d rel = some text ∧
        dir = canonicalDir sampleUnicode d.name ∧ path = parts rel ∧ content = .text text := by
  have hloads (packages : List Package) :
      readJson exactFloats (String.ofList (printed exactFloats packages)) = .ok (inventoryJson packages) := by
    rw [readJson, denotes_iff.mp (denotes_printed exactFloats packages)]
    rfl
  have hload : loadOutput (readJson exactFloats) id []
      (container sampleUnicode exactFloats (fun e => e.text.toList) sampleDists) = .ok (inventoryJson samplePayload) :=
    loadOutput_container hloads inventory_sample []
  obtain ⟨packages, hasUv, outputs, h⟩ := prepared_sample .aws
  obtain ⟨message, t', hok⟩ := h.write_ok unobstructed_stale bundled_extracted []
  have hwritten := licenses_written hloads hload (payloadOf_inventoryJson samplePayload) bundled_sample (by decide)
    unobstructed_stale hok
  exact ⟨message, t', hok, hwritten.2⟩

end LlmWorker.Licenses
