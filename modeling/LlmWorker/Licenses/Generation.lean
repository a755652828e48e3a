import LlmWorker.Licenses.Beside
import LlmWorker.Licenses.Texts

/-!
# Runs of the generator

`main` from its gates to the tree it leaves, and one run after the other.
-/

namespace LlmWorker.Licenses

open Python FileTree

variable {u : Unicode} {hostname : Str → Result (Option Str)}

-- ---------------------------------------------------------------------------
-- Runs of the generator
-- ---------------------------------------------------------------------------

section

variable (u : Unicode) (hostname : Str → Result (Option Str))

/-- What `main` has found out before it looks at the cloud's directory. -/
structure Prepared (t : Tree) (repoRoot : TreePath) (cloud : Cloud) (run : Except Str (List Package))
    (packages : List Package) (hasUv : Bool) (outputs : Dict Str Str) : Prop where
  extracted : ∃ payload, run = .ok payload ∧ packages = sortedByName u payload
  bundled : ∀ pkg ∈ packages, pkg.licenseFiles.items ≠ []
  recognized : ∀ pkg ∈ packages, familyOf u pkg ≠ otherLicenses
  uv : UvPresent t repoRoot hasUv
  built : buildOutputs u hostname cloud.text packages hasUv = .ok outputs

def conclude (repoRoot : TreePath) (args : Args) (packages : List Package) (hasUv : Bool) (outputs : Dict Str Str) :
    Script Str := do
  let cloud := args.cloud.text
  let outDir := cloudDir repoRoot args.cloud
  if args.check then
    let drift ← ofStop (findDrift (← get) outDir outputs)
    if drift ≠ [] then
      exit ("ERROR: licensing/".toList ++ cloud ++ "/ is stale relative to the built image.\n".toList ++
        "Regenerate and commit:\n  python scripts/gen_licenses.py --cloud ".toList ++ cloud ++
        " --image ".toList ++ args.image ++ "\n".toList ++
        join "\n".toList (drift.map fun d => "  ".toList ++ d))
    else pure (cloud ++ ": license artifacts match the built image.".toList)
  else
    writeOutputs outDir outputs
    pure (cloud ++ ": ".toList ++ Nat.toDigits 10 packages.length ++ " packages + ".toList ++
      (if hasUv then "uv".toList else "no uv".toList) ++ " -> /".toList ++ pathText outDir)

end

section

variable {t t' : Tree} {repoRoot : TreePath} {args : Args} {run : Except Str (List Package)}
  {packages : List Package} {outputs : Dict Str Str} {cloud : Cloud}

theorem checkLicensesPresent_passes (h : ∀ pkg ∈ packages, pkg.licenseFiles.items ≠ []) (t : Tree) :
    (checkLicensesPresent packages).run t = .ok () t := by
  have hnil : (packages.filter fun pkg => pkg.licenseFiles.items = []) = [] :=
    List.filter_eq_nil_iff.mpr fun pkg hpkg => by simpa using h pkg hpkg
  simp only [checkLicensesPresent, hnil, List.map_nil, ne_eq, not_true_eq_false, if_false]
  rfl

theorem checkLicensesPresent_exits (h : ∃ pkg ∈ packages, pkg.licenseFiles.items = []) (t : Tree) :
    Exits (checkLicensesPresent packages) t := by
  obtain ⟨pkg, hpkg, hnone⟩ := h
  have hne : (packages.filter fun pkg => pkg.licenseFiles.items = []).map (·.name) ≠ [] :=
    List.ne_nil_of_mem (List.mem_map_of_mem (List.mem_filter.mpr ⟨hpkg, by simpa using hnone⟩))
  simp only [checkLicensesPresent, if_pos hne]
  exact exits_exit _ t

theorem Prepared.main_run (args : Args)
    (h : Prepared u hostname t repoRoot args.cloud run packages hasUv outputs) :
    (main u hostname repoRoot args run).run t = (conclude repoRoot args packages hasUv outputs).run t := by
  obtain ⟨payload, rfl, rfl⟩ := h.extracted
  have hextract : (extract u (.ok payload)).run t = .ok (sortedByName u payload) t := rfl
  have hbuilt :
      (ofResult (buildOutputs u hostname args.cloud.text (sortedByName u payload) hasUv)).run t = .ok outputs t := by
    rw [h.built]
    rfl
  refine (run_bind_ok hextract).trans ?_
  refine (run_bind_ok (checkLicensesPresent_passes h.bundled t)).trans ?_
  refine (run_bind_ok (checkLicenseFamilies_passes h.recognized t)).trans ?_
  refine (run_bind_ok (uvLicensePresent_run h.uv)).trans ?_
  exact run_bind_ok hbuilt

variable (u hostname) in
/-- `main` stops on the way, with the tree as it was, or gets to the cloud's directory. -/
theorem main_cases (t : Tree) (repoRoot : TreePath) (args : Args) (run : Except Str (List Package)) :
    (∃ e, (main u hostname repoRoot args run).run t = .error e t) ∨
      ∃ packages hasUv outputs, Prepared u hostname t repoRoot args.cloud run packages hasUv outputs := by
  cases run with
  | error message => exact .inl ⟨.exit message, run_bind_error rfl⟩
  | ok payload =>
    have hextract : (extract u (.ok payload)).run t = .ok (sortedByName u payload) t := rfl
    by_cases hbundled : ∀ pkg ∈ sortedByName u payload, pkg.licenseFiles.items ≠ []
    · by_cases hrecognized : ∀ pkg ∈ sortedByName u payload, familyOf u pkg ≠ otherLicenses
      · by_cases huv : ∃ hasUv, UvPresent t repoRoot hasUv
        · obtain ⟨hasUv, huv⟩ := huv
          cases hbuilt : buildOutputs u hostname args.cloud.text (sortedByName u payload) hasUv with
          | ok outputs => exact .inr ⟨_, hasUv, outputs, ⟨payload, rfl, rfl⟩, hbundled, hrecognized, huv, hbuilt⟩
          | error e =>
            refine .inl ⟨.raised e, ?_⟩
            refine (run_bind_ok hextract).trans ?_
            refine (run_bind_ok (checkLicensesPresent_passes hbundled t)).trans ?_
            refine (run_bind_ok (checkLicenseFamilies_passes hrecognized t)).trans ?_
            refine (run_bind_ok (uvLicensePresent_run huv)).trans (run_bind_error ?_)
            rw [hbuilt]
            rfl
        · obtain ⟨message, hexit⟩ := uvLicensePresent_exits (not_exists.mp huv)
          refine .inl ⟨.exit message, ?_⟩
          refine (run_bind_ok hextract).trans ?_
          refine (run_bind_ok (checkLicensesPresent_passes hbundled t)).trans ?_
          exact (run_bind_ok (checkLicenseFamilies_passes hrecognized t)).trans (run_bind_error hexit)
      · obtain ⟨message, hexit⟩ := checkLicenseFamilies_exits (by simpa using hrecognized) t
        refine .inl ⟨.exit message, ?_⟩
        refine (run_bind_ok hextract).trans ?_
        exact (run_bind_ok (checkLicensesPresent_passes hbundled t)).trans (run_bind_error hexit)
    · obtain ⟨message, hexit⟩ := checkLicensesPresent_exits (by simpa using hbundled) t
      exact .inl ⟨.exit message, (run_bind_ok hextract).trans (run_bind_error hexit)⟩

-- ---------------------------------------------------------------------------
-- A payload that passes
-- ---------------------------------------------------------------------------

theorem buildOutputs_ok (h : ∀ pkg ∈ packages, ∃ url, bestUrl u hostname pkg = .ok url) (cloud : Str) (hasUv : Bool) :
    ∃ outputs, buildOutputs u hostname cloud packages hasUv = .ok outputs := by
  cases hsecs : sections u hostname packages with
  | ok secs => exact ⟨_, bind_ok.mpr ⟨_, bind_ok.mpr ⟨secs, hsecs, rfl⟩, rfl⟩⟩
  | error e =>
    obtain ⟨pkg, hpkg, herror⟩ := sections_error hsecs
    obtain ⟨url, hurl⟩ := h pkg hpkg
    rw [hurl] at herror
    cases herror

def samplePayload : List Package := [samplePackage "attrs" "MIT" [("licenses/LICENSE", "text")]]

theorem bundled_sample : Bundled sampleUnicode samplePayload where
  names := by decide
  files := by decide
  apart := by decide

theorem bundled_extracted (payload : List Package) (h : Except.ok samplePayload = (Except.ok payload : Except Str _)) :
    Bundled sampleUnicode payload := by
  cases h
  exact bundled_sample

theorem prepared_sample (cloud : Cloud) : ∃ packages hasUv outputs,
    Prepared sampleUnicode noHost staleTree [] cloud (.ok samplePayload) packages hasUv outputs := by
  have hurl : ∀ pkg ∈ sortedByName sampleUnicode samplePayload, ∃ url, bestUrl sampleUnicode noHost pkg = .ok url :=
    fun pkg hpkg =>
      ⟨[], (by decide : ∀ pkg ∈ samplePayload, bestUrl sampleUnicode noHost pkg = .ok []) pkg hpkg⟩
  obtain ⟨outputs, hbuilt⟩ := buildOutputs_ok hurl cloud.text false
  have huv : staleTree.isDir (uvDir []) = false := by decide
  exact ⟨_, false, outputs, ⟨samplePayload, rfl, rfl⟩, by decide, by decide, huv, hbuilt⟩

theorem clear_stale (cloud : Cloud) : staleTree.Clear (cloudDir [] cloud) := by
  refine ⟨fun q hq => ?_, by cases cloud <;> decide⟩
  have hall : ∀ q ∈ (cloudDir [] cloud).inits, staleTree.node q = none ∨ staleTree.node q = some .dir := by
    cases cloud <;> decide
  exact hall q ((List.mem_inits _ _).mpr hq)

theorem plain_stale : Plain staleTree [] where
  clouds cloud := by
    refine ⟨clear_stale cloud, fun n hn => ?_, fun n hn => ?_⟩
    · cases cloud with
      | aws => exact unobstructed_stale.notice n hn
      | azure | gcp => cases hn
    · cases cloud with
      | aws => exact unobstructed_stale.licenses n hn
      | azure | gcp => cases hn
  uv :=
    { way := ⟨fun q hq =>
        (by decide : ∀ q ∈ (uvDir []).inits, staleTree.node q = none ∨ staleTree.node q = some .dir) q
          ((List.mem_inits _ _).mpr hq), by decide⟩
      files := fun name hname target hlink => by
        have hnone := (by decide : ∀ name ∈ uvFiles, staleTree.node (uvDir [] ++ [name]) = none) name hname
        rw [hnone] at hlink
        cases hlink }

-- ---------------------------------------------------------------------------
-- Checking
-- ---------------------------------------------------------------------------

def treeAfter (r : EStateM.Result Stop Tree α) : Tree :=
  match r with
  | .ok _ t | .error _ t => t

theorem Exits.of_run {x y : Script α} (hsame : x.run t = y.run t) (h : Exits y t) : Exits x t := by
  obtain ⟨message, hy⟩ := h
  exact ⟨message, hsame.trans hy⟩

theorem Prepared.checks (h : Prepared u hostname t repoRoot cloud run packages hasUv outputs) (image : Str) :
    match findDrift t (cloudDir repoRoot cloud) outputs with
    | .ok [] => (main u hostname repoRoot ⟨cloud, image, true⟩ run).run t =
        .ok (cloud.text ++ ": license artifacts match the built image.".toList) t
    | .ok (_ :: _) => Exits (main u hostname repoRoot ⟨cloud, image, true⟩ run) t
    | .error e => (main u hostname repoRoot ⟨cloud, image, true⟩ run).run t = .error e t := by
  have hmain := Prepared.main_run ⟨cloud, image, true⟩ h
  simp only [conclude, if_true] at hmain
  cases hdrift : findDrift t (cloudDir repoRoot cloud) outputs with
  | error e =>
    refine hmain.trans ?_
    refine (run_bind_ok rfl).trans (run_bind_error ?_)
    rw [hdrift]
    rfl
  | ok drift =>
    have hfound : (ofStop (findDrift t (cloudDir repoRoot cloud) outputs)).run t = .ok drift t := by
      rw [hdrift]
      rfl
    cases drift with
    | nil =>
      refine hmain.trans ?_
      exact (run_bind_ok rfl).trans (run_bind_ok hfound)
    | cons d drift =>
      refine Exits.of_run hmain ?_
      exact Exits.after (a := t) rfl (Exits.after hfound (exits_exit _ t))

theorem Prepared.writes (h : Prepared u hostname t repoRoot cloud run packages hasUv outputs) (image : Str)
    (hrun : (writeOutputs (cloudDir repoRoot cloud) outputs).run t = .ok () t') :
    ∃ message, (main u hostname repoRoot ⟨cloud, image, false⟩ run).run t = .ok message t' := by
  have hmain := Prepared.main_run ⟨cloud, image, false⟩ h
  simp only [conclude, Bool.false_eq_true, if_false] at hmain
  exact ⟨_, hmain.trans (run_bind_ok hrun)⟩

theorem check_cases (t : Tree) (repoRoot : TreePath) (cloud : Cloud) (image : Str) (run : Except Str (List Package)) :
    (∃ e, (main u hostname repoRoot ⟨cloud, image, true⟩ run).run t = .error e t) ∨
      ∃ packages hasUv outputs message, Prepared u hostname t repoRoot cloud run packages hasUv outputs ∧
        findDrift t (cloudDir repoRoot cloud) outputs = .ok [] ∧
        (main u hostname repoRoot ⟨cloud, image, true⟩ run).run t = .ok message t := by
  rcases main_cases u hostname t repoRoot ⟨cloud, image, true⟩ run with herror | ⟨packages, hasUv, outputs, h⟩
  · exact .inl herror
  · have hchecks := h.checks image
    split at hchecks
    · rename_i hnil
      exact .inr ⟨packages, hasUv, outputs, _, h, hnil, hchecks⟩
    · obtain ⟨message, hexit⟩ := hchecks
      exact .inl ⟨_, hexit⟩
    · exact .inl ⟨_, hchecks⟩

theorem check_ok_iff : (∃ message t', (main u hostname repoRoot ⟨cloud, image, true⟩ run).run t = .ok message t') ↔
    ∃ packages hasUv outputs, Prepared u hostname t repoRoot cloud run packages hasUv outputs ∧
      findDrift t (cloudDir repoRoot cloud) outputs = .ok [] := by
  constructor
  · rintro ⟨message, t', hok⟩
    rcases check_cases t repoRoot cloud image run with ⟨e, herror⟩ | ⟨packages, hasUv, outputs, _, h, hnil, -⟩
    · rw [herror] at hok
      cases hok
    · exact ⟨packages, hasUv, outputs, h, hnil⟩
  · rintro ⟨packages, hasUv, outputs, h, hnil⟩
    have hchecks := h.checks image
    rw [hnil] at hchecks
    exact ⟨_, t, hchecks⟩

theorem findDrift_nil_iff (hclear : t.Clear outDir) (hunlinked : t.Unlinked (outDir ++ [licensesDir]))
    (hlegal : LegalPaths outputs) : findDrift t outDir outputs = .ok [] ↔ InSync t outDir outputs := by
  constructor
  · intro h
    exact (drift_eq_nil_iff hlegal hclear hunlinked h).mp rfl
  · intro h
    obtain ⟨drift, hdrift⟩ := findDrift_of_read fun rel text hget => ⟨text, h.texts rel text hget⟩
    rw [hdrift, (drift_eq_nil_iff hlegal hclear hunlinked hdrift).mpr h]

theorem Bundled.of_perm (h : Bundled u packages) (hperm : packages'.Perm packages) : Bundled u packages' :=
  ⟨fun pkg hpkg => h.names pkg (hperm.mem_iff.mp hpkg), fun pkg hpkg => h.files pkg (hperm.mem_iff.mp hpkg),
    fun pkg hpkg pkg' hpkg' => h.apart pkg (hperm.mem_iff.mp hpkg) pkg' (hperm.mem_iff.mp hpkg')⟩

theorem Prepared.legalPaths (h : Prepared u hostname t repoRoot cloud run packages hasUv outputs)
    (hbundled : ∀ payload, run = .ok payload → Bundled u payload) : LegalPaths outputs := by
  obtain ⟨payload, hrun, rfl⟩ := h.extracted
  exact ((hbundled payload hrun).of_perm (sortedBy_perm _ _)).legalPaths h.built

/-- The check changes nothing. Where the way to the cloud's directory is made of
directories, no link below LICENSES leads to one, and the packages have names fit
for a disk, it passes exactly when the gates let them pass and the files of the
cloud are those that the packages give. -/
theorem check_passes_iff (t : Tree) (repoRoot : TreePath) (cloud : Cloud) (image : Str)
    (run : Except Str (List Package)) :
    treeAfter ((main u hostname repoRoot ⟨cloud, image, true⟩ run).run t) = t ∧
    (t.Clear (cloudDir repoRoot cloud) → t.Unlinked (cloudDir repoRoot cloud ++ [licensesDir]) →
      (∀ payload, run = .ok payload → Bundled u payload) →
      ((∃ message t', (main u hostname repoRoot ⟨cloud, image, true⟩ run).run t = .ok message t') ↔
        ∃ packages hasUv outputs, Prepared u hostname t repoRoot cloud run packages hasUv outputs ∧
          InSync t (cloudDir repoRoot cloud) outputs)) := by
  constructor
  · rcases check_cases (u := u) t repoRoot cloud image run with ⟨e, herror⟩ | ⟨_, _, _, message, -, -, hok⟩
    · rw [herror]
      rfl
    · rw [hok]
      rfl
  · intro hclear hunlinked hbundled
    rw [check_ok_iff]
    have hiff {packages : List Package} {hasUv : Bool} {outputs : Dict Str Str}
        (h : Prepared u hostname t repoRoot cloud run packages hasUv outputs) :
        findDrift t (cloudDir repoRoot cloud) outputs = .ok [] ↔ InSync t (cloudDir repoRoot cloud) outputs :=
      findDrift_nil_iff hclear hunlinked (h.legalPaths hbundled)
    constructor
    · rintro ⟨packages, hasUv, outputs, h, hnil⟩
      exact ⟨packages, hasUv, outputs, h, (hiff h).mp hnil⟩
    · rintro ⟨packages, hasUv, outputs, h, hsync⟩
      exact ⟨packages, hasUv, outputs, h, (hiff h).mpr hsync⟩

theorem check_passes_iff_stale :
    treeAfter ((main sampleUnicode noHost [] ⟨.aws, [], true⟩ (.ok samplePayload)).run staleTree) = staleTree ∧
    ((∃ message t',
        (main sampleUnicode noHost [] ⟨.aws, [], true⟩ (.ok samplePayload)).run staleTree = .ok message t') ↔
      ∃ packages hasUv outputs,
        Prepared sampleUnicode noHost staleTree [] .aws (.ok samplePayload) packages hasUv outputs ∧
          InSync staleTree sampleDir outputs) :=
  ⟨(check_passes_iff staleTree [] .aws [] (.ok samplePayload)).1,
    (check_passes_iff staleTree [] .aws [] (.ok samplePayload)).2 (clear_stale .aws) unlinked_stale bundled_extracted⟩

-- ---------------------------------------------------------------------------
-- Writing
-- ---------------------------------------------------------------------------

variable (u hostname) in
/-- A run that writes leaves the tree as it was, or has passed every gate and
makes of the cloud's directory what the outputs are. -/
theorem write_cases (hfree : Unobstructed t (cloudDir repoRoot cloud))
    (hbundled : ∀ payload, run = .ok payload → Bundled u payload) (image : Str) :
    (∃ e, (main u hostname repoRoot ⟨cloud, image, false⟩ run).run t = .error e t) ∨
      ∃ packages hasUv outputs message t', Prepared u hostname t repoRoot cloud run packages hasUv outputs ∧
        LegalPaths outputs ∧ (writeOutputs (cloudDir repoRoot cloud) outputs).run t = .ok () t' ∧
        (main u hostname repoRoot ⟨cloud, image, false⟩ run).run t = .ok message t' := by
  rcases main_cases u hostname t repoRoot ⟨cloud, image, false⟩ run with herror | ⟨packages, hasUv, outputs, h⟩
  · exact .inl herror
  · have hlegal := h.legalPaths hbundled
    obtain ⟨t', hrun, -⟩ := writeOutputs_run hlegal hfree
    obtain ⟨message, hok⟩ := h.writes image hrun
    exact .inr ⟨packages, hasUv, outputs, message, t', h, hlegal, hrun, hok⟩

theorem Prepared.write_ok (h : Prepared u hostname t repoRoot cloud run packages hasUv outputs)
    (hfree : Unobstructed t (cloudDir repoRoot cloud)) (hbundled : ∀ payload, run = .ok payload → Bundled u payload)
    (image : Str) : ∃ message t', (main u hostname repoRoot ⟨cloud, image, false⟩ run).run t = .ok message t' := by
  obtain ⟨t', hrun, -⟩ := writeOutputs_run (h.legalPaths hbundled) hfree
  obtain ⟨message, hok⟩ := h.writes image hrun
  exact ⟨message, t', hok⟩

theorem write_ok (hfree : Unobstructed t (cloudDir repoRoot cloud)) (hbundled : Bundled u payload)
    (hok : (main u hostname repoRoot ⟨cloud, image, false⟩ (.ok payload)).run t = .ok message t') :
    ∃ packages hasUv outputs, Prepared u hostname t repoRoot cloud (.ok payload) packages hasUv outputs ∧
      LegalPaths outputs ∧ (writeOutputs (cloudDir repoRoot cloud) outputs).run t = .ok () t' := by
  rcases write_cases u hostname hfree (fun _ heq => (Except.ok.inj heq) ▸ hbundled) image with
    ⟨e, herror⟩ | ⟨packages, hasUv, outputs, _, _, h, hlegal, hrun, hok'⟩
  · rw [herror] at hok
    cases hok
  · rw [hok'] at hok
    cases hok
    exact ⟨packages, hasUv, outputs, h, hlegal, hrun⟩

theorem Prepared.outputs_eq (h : Prepared u hostname t repoRoot cloud run packages hasUv outputs)
    (h' : Prepared u hostname t repoRoot cloud run packages' hasUv' outputs') : outputs' = outputs := by
  obtain ⟨payload, rfl, rfl⟩ := h.extracted
  obtain ⟨payload', heq, rfl⟩ := h'.extracted
  cases heq
  obtain rfl : hasUv' = hasUv := by
    have huv := h.uv
    have huv' := h'.uv
    cases hasUv <;> cases hasUv' <;> simp_all [UvPresent]
  exact Except.ok.inj (h'.built.symm.trans h.built)

theorem Prepared.after (h : Prepared u hostname t repoRoot cloud run packages hasUv outputs)
    (hplain : Plain t repoRoot) (hlegal : LegalPaths written)
    (hrun : (writeOutputs (cloudDir repoRoot other) written).run t = .ok () t') :
    Prepared u hostname t' repoRoot cloud run packages hasUv outputs := by
  have hw := writeOutputs_rewritten hlegal (hplain.clouds other) hrun
  have hplain' := hplain.after hlegal hrun
  refine ⟨h.extracted, h.bundled, h.recognized, h.uv.congr hplain.uv hplain'.uv fun rest => ?_, h.built⟩
  rw [cloudDir_eq] at hw
  rw [uvDir_eq]
  exact hw.beside other.text_ne_uv rest

/-- After a run that wrote, the check passes exactly when no text holds a
carriage return, and another such run changes no node. -/
theorem write_then_check (hplain : Plain t repoRoot) (hbundled : Bundled u payload)
    (hok : (main u hostname repoRoot ⟨cloud, image, false⟩ (.ok payload)).run t = .ok message t') (image' : Str) :
    (∃ message' t'', (main u hostname repoRoot ⟨cloud, image', false⟩ (.ok payload)).run t' = .ok message' t'' ∧
      ∀ q, t''.node q = t'.node q) ∧
    ∃ packages hasUv outputs, Prepared u hostname t' repoRoot cloud (.ok payload) packages hasUv outputs ∧
      ((∃ message' t'', (main u hostname repoRoot ⟨cloud, image', true⟩ (.ok payload)).run t' = .ok message' t'') ↔
        ∀ rel text, outputs.get? rel = some text → '\r' ∉ text) := by
  obtain ⟨packages, hasUv, outputs, h, hlegal, hrun⟩ := write_ok (hplain.clouds cloud) hbundled hok
  have h' := h.after hplain hlegal hrun
  obtain ⟨t'', hrun', hsame⟩ := writeOutputs_again hlegal (hplain.clouds cloud) hrun
  have hw := writeOutputs_rewritten hlegal (hplain.clouds cloud) hrun
  constructor
  · obtain ⟨message', hok'⟩ := h'.writes image' hrun'
    exact ⟨message', t'', hok', hsame⟩
  · refine ⟨packages, hasUv, outputs, h', ?_⟩
    obtain ⟨drift, hdrift, hnil⟩ := findDrift_written hlegal (hplain.clouds cloud) hw
    rw [← hnil, check_ok_iff]
    constructor
    · rintro ⟨packages', hasUv', outputs', hp, hfound⟩
      obtain rfl : outputs' = outputs := h'.outputs_eq hp
      rw [hdrift] at hfound
      exact Except.ok.inj hfound
    · rintro rfl
      exact ⟨packages, hasUv, outputs, h', hdrift⟩

theorem write_then_check_stale : ∃ message t', ∃ outputs : Dict Str Str,
    (main sampleUnicode noHost [] ⟨.aws, [], false⟩ (.ok samplePayload)).run staleTree = .ok message t' ∧
      ((∃ message' t'', (main sampleUnicode noHost [] ⟨.aws, [], true⟩ (.ok samplePayload)).run t' = .ok message' t'') ↔
        ∀ rel text, outputs.get? rel = some text → '\r' ∉ text) := by
  obtain ⟨packages, hasUv, outputs, h⟩ := prepared_sample .aws
  obtain ⟨message, t', hok⟩ := h.write_ok unobstructed_stale bundled_extracted []
  obtain ⟨-, packages', hasUv', outputs', -, hiff⟩ := write_then_check plain_stale bundled_sample hok []
  exact ⟨message, t', outputs', hok, hiff⟩

-- ---------------------------------------------------------------------------
-- One run after the other
-- ---------------------------------------------------------------------------

theorem ok_of_run_bind {x : Script α} {f : α → Script β} (h : (x >>= f).run t = .ok b t') :
    ∃ a t₁, x.run t = .ok a t₁ ∧ (f a).run t₁ = .ok b t' := by
  cases hx : x.run t with
  | ok a t₁ => exact ⟨a, t₁, rfl, (run_bind_ok hx).symm.trans h⟩
  | error e t₁ =>
    rw [run_bind_error hx] at h
    cases h

/-- A run of the generator that writes. -/
structure Regeneration where
  cloud : Cloud
  image : Str
  payload : List Package

def regenerate (u : Unicode) (hostname : Str → Result (Option Str)) (repoRoot : TreePath) (r : Regeneration) :
    Script Unit := do
  let _ ← main u hostname repoRoot ⟨r.cloud, r.image, false⟩ (.ok r.payload)

/-- The files of the cloud are those that the packages give. -/
def Settled (u : Unicode) (hostname : Str → Result (Option Str)) (t : Tree) (repoRoot : TreePath) (cloud : Cloud)
    (payload : List Package) : Prop :=
  ∃ packages hasUv outputs, Prepared u hostname t repoRoot cloud (.ok payload) packages hasUv outputs ∧
    LegalPaths outputs ∧ Generated t (cloudDir repoRoot cloud) outputs

theorem Rewritten.generated (hw : Rewritten outDir outputs t t') : Generated t' outDir outputs :=
  ⟨hw.files, hw.links, hw.parents, fun _ _ _ _ => rfl⟩

theorem regenerate_ok (hplain : Plain t repoRoot) (hbundled : Bundled u r.payload)
    (hok : (regenerate u hostname repoRoot r).run t = .ok () t') :
    Plain t' repoRoot ∧ Settled u hostname t' repoRoot r.cloud r.payload ∧
      ∀ cloud payload, cloud ≠ r.cloud → Settled u hostname t repoRoot cloud payload →
        Settled u hostname t' repoRoot cloud payload := by
  obtain ⟨message, t₁, hmain, hpure⟩ := ok_of_run_bind hok
  cases hpure
  obtain ⟨packages, hasUv, outputs, h, hlegal, hrun⟩ := write_ok (hplain.clouds r.cloud) hbundled hmain
  have hw := writeOutputs_rewritten hlegal (hplain.clouds r.cloud) hrun
  refine ⟨hplain.after hlegal hrun, ⟨packages, hasUv, outputs, h.after hplain hlegal hrun, hlegal, hw.generated⟩, ?_⟩
  rintro cloud payload hne ⟨packages', hasUv', outputs', h', hlegal', hgenerated⟩
  refine ⟨packages', hasUv', outputs', h'.after hplain hlegal hrun, hlegal', ?_⟩
  rw [cloudDir_eq] at hw hgenerated ⊢
  exact hw.beside_generated (Cloud.text_injective hne) hgenerated

theorem Settled.check (h : Settled u hostname t repoRoot cloud payload) (hplain : Plain t repoRoot)
    (hcr : ∀ pkg ∈ payload, ¬pkg.Holds '\r') (image : Str) :
    (main u hostname repoRoot ⟨cloud, image, true⟩ (.ok payload)).run t =
      .ok (cloud.text ++ ": license artifacts match the built image.".toList) t := by
  obtain ⟨packages, hasUv, outputs, h, hlegal, hgenerated⟩ := h
  have hchecks := h.checks image
  obtain ⟨payload', heq, hpackages⟩ := h.extracted
  cases heq
  have hnone (rel text : Str) (hget : outputs.get? rel = some text) : '\r' ∉ text := by
    refine cr_not_mem_buildOutputs (fun pkg hpkg => hcr pkg ?_) cloud h.built hget
    rw [hpackages] at hpkg
    exact (sortedBy_perm _ _).mem_iff.mp hpkg
  rwa [findDrift_rewritten hlegal (hplain.clouds cloud) hgenerated hnone] at hchecks

theorem regenerate_others {runs : List Regeneration} (hplain : Plain t repoRoot)
    (hbundled : ∀ r ∈ runs, Bundled u r.payload)
    (hok : (runs.forM (regenerate u hostname repoRoot)).run t = .ok () t') :
    Plain t' repoRoot ∧ ∀ cloud payload, (∀ r ∈ runs, r.cloud ≠ cloud) → Settled u hostname t repoRoot cloud payload →
      Settled u hostname t' repoRoot cloud payload := by
  induction runs generalizing t with
  | nil =>
    cases hok
    exact ⟨hplain, fun _ _ _ h => h⟩
  | cons r runs ih =>
    obtain ⟨_, t₁, hr, hrest⟩ := ok_of_run_bind hok
    obtain ⟨hplain₁, -, hkeep⟩ := regenerate_ok hplain (hbundled r List.mem_cons_self) hr
    obtain ⟨hplain', hkeep'⟩ := ih hplain₁ (fun r' hr' => hbundled r' (List.mem_cons_of_mem r hr')) hrest
    refine ⟨hplain', fun cloud payload hne h => hkeep' cloud payload ?_ ?_⟩
    · exact fun r' hr' => hne r' (List.mem_cons_of_mem r hr')
    · exact hkeep cloud payload (hne r List.mem_cons_self).symm h

/-- Runs that pass the gates at the start all succeed: none of them is in the way of another. -/
theorem regenerate_succeeds {runs : List Regeneration} (hplain : Plain t repoRoot)
    (hbundled : ∀ r ∈ runs, Bundled u r.payload)
    (hpass : ∀ r ∈ runs, ∃ packages hasUv outputs,
      Prepared u hostname t repoRoot r.cloud (.ok r.payload) packages hasUv outputs) :
    ∃ t', (runs.forM (regenerate u hostname repoRoot)).run t = .ok () t' := by
  induction runs generalizing t with
  | nil => exact ⟨t, rfl⟩
  | cons r runs ih =>
    obtain ⟨packages, hasUv, outputs, h⟩ := hpass r List.mem_cons_self
    have hlegal := h.legalPaths fun payload heq => (Except.ok.inj heq) ▸ hbundled r List.mem_cons_self
    obtain ⟨t₁, hrun, -⟩ := writeOutputs_run hlegal (hplain.clouds r.cloud)
    obtain ⟨message, hmain⟩ := h.writes r.image hrun
    have hfirst : (regenerate u hostname repoRoot r).run t = .ok () t₁ := (run_bind_ok hmain).trans rfl
    obtain ⟨t', hrest⟩ := ih (hplain.after hlegal hrun) (fun r' hr' => hbundled r' (List.mem_cons_of_mem r hr'))
      fun r' hr' => by
        obtain ⟨packages', hasUv', outputs', h'⟩ := hpass r' (List.mem_cons_of_mem r hr')
        exact ⟨packages', hasUv', outputs', h'.after hplain hlegal hrun⟩
    exact ⟨t', (run_bind_ok hfirst).trans hrest⟩

theorem forM_append_ok {f : α → Script Unit} {l l' : List α} (h : ((l ++ l').forM f).run t = .ok () t') :
    ∃ t₁, (l.forM f).run t = .ok () t₁ ∧ (l'.forM f).run t₁ = .ok () t' := by
  induction l generalizing t with
  | nil => exact ⟨t, rfl, h⟩
  | cons a l ih =>
    obtain ⟨_, t₁, ha, hrest⟩ := ok_of_run_bind h
    obtain ⟨t₂, hl, hl'⟩ := ih hrest
    exact ⟨t₂, (run_bind_ok ha).trans hl, hl'⟩

/-- Whatever runs have been made one after the other, the check of each cloud
passes for the packages of its last run. -/
theorem checks_after_runs {before after : List Regeneration} {last : Regeneration} (hplain : Plain t repoRoot)
    (hbundled : ∀ r ∈ before ++ last :: after, Bundled u r.payload) (hcr : ∀ pkg ∈ last.payload, ¬pkg.Holds '\r')
    (hlast : ∀ r ∈ after, r.cloud ≠ last.cloud)
    (hok : ((before ++ last :: after).forM (regenerate u hostname repoRoot)).run t = .ok () t') (image : Str) :
    (main u hostname repoRoot ⟨last.cloud, image, true⟩ (.ok last.payload)).run t' =
      .ok (last.cloud.text ++ ": license artifacts match the built image.".toList) t' := by
  obtain ⟨t₁, hbefore, hrest⟩ := forM_append_ok hok
  obtain ⟨_, t₂, hrun, hafter⟩ := ok_of_run_bind hrest
  obtain ⟨hplain₁, -⟩ := regenerate_others hplain (fun r hr => hbundled r (List.mem_append_left _ hr)) hbefore
  obtain ⟨hplain₂, hsettled, -⟩ := regenerate_ok hplain₁ (hbundled last (by simp)) hrun
  obtain ⟨hplain', hkeep⟩ := regenerate_others hplain₂ (fun r hr => hbundled r (by simp [hr])) hafter
  exact (hkeep last.cloud last.payload hlast hsettled).check hplain' hcr image

def sampleRuns : List Regeneration :=
  [⟨.aws, [], samplePayload⟩, ⟨.aws, [], samplePayload⟩, ⟨.azure, [], samplePayload⟩]

theorem checks_after_sampleRuns : ∃ t',
    (sampleRuns.forM (regenerate sampleUnicode noHost [])).run staleTree = .ok () t' ∧
      (main sampleUnicode noHost [] ⟨.aws, [], true⟩ (.ok samplePayload)).run t' =
        .ok (Cloud.aws.text ++ ": license artifacts match the built image.".toList) t' := by
  have hbundled : ∀ r ∈ sampleRuns, Bundled sampleUnicode r.payload := by
    simp only [sampleRuns, List.forall_mem_cons, List.not_mem_nil, false_imp_iff, implies_true, and_true, and_self]
    exact bundled_sample
  have hpass : ∀ r ∈ sampleRuns, ∃ packages hasUv outputs,
      Prepared sampleUnicode noHost staleTree [] r.cloud (.ok r.payload) packages hasUv outputs := by
    simp only [sampleRuns, List.forall_mem_cons, List.not_mem_nil, false_imp_iff, implies_true, and_true]
    exact ⟨prepared_sample .aws, prepared_sample .aws, prepared_sample .azure⟩
  have hcr : ∀ pkg ∈ samplePayload, ¬pkg.Holds '\r' := by
    simp only [samplePayload, List.mem_singleton, forall_eq, Package.Holds]
    decide
  obtain ⟨t', hok⟩ := regenerate_succeeds plain_stale hbundled hpass
  exact ⟨t', hok, @checks_after_runs _ _ _ _ _ [⟨.aws, [], samplePayload⟩] [⟨.azure, [], samplePayload⟩]
    ⟨.aws, [], samplePayload⟩ plain_stale hbundled hcr (by decide) hok []⟩

end

end LlmWorker.Licenses
