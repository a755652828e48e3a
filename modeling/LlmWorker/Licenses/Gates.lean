import LlmWorker.Licenses.Artifacts
import LlmWorker.Licenses.Script

/-!
# The gate on license families

What a gate that aborts leaves behind, and when the gate on families aborts
for a package that declares a conjunction of licenses.
-/

namespace LlmWorker.Licenses

open Python

-- ---------------------------------------------------------------------------
-- Runs of the script
-- ---------------------------------------------------------------------------

section

variable {t : Tree}

def Exits (x : Script α) (t : Tree) : Prop := ∃ message, x.run t = .error (.exit message) t

theorem Exits.bind {x : Script α} (h : Exits x t) (f : α → Script β) : Exits (x >>= f) t := by
  obtain ⟨message, hx⟩ := h
  exact ⟨message, run_bind_error hx⟩

theorem Exits.after {x : Script α} {f : α → Script β} (hx : x.run t = .ok a t) (h : Exits (f a) t) :
    Exits (x >>= f) t := by
  obtain ⟨message, hf⟩ := h
  exact ⟨message, (run_bind_ok hx).trans hf⟩

theorem exits_exit (message : Str) (t : Tree) : Exits (exit message : Script α) t := ⟨message, rfl⟩

theorem checkLicensesPresent_cases (packages : List Package) (t : Tree) :
    Exits (checkLicensesPresent packages) t ∨ (checkLicensesPresent packages).run t = .ok () t := by
  unfold checkLicensesPresent
  dsimp only
  split
  · exact .inl (exits_exit _ t)
  · exact .inr rfl

end

-- ---------------------------------------------------------------------------
-- The gate
-- ---------------------------------------------------------------------------

variable {u : Unicode} {hostname : Str → Result (Option Str)} {packages : List Package}

theorem checkLicenseFamilies_exits (h : ∃ pkg ∈ packages, familyOf u pkg = otherLicenses) (t : Tree) :
    Exits (checkLicenseFamiliesRecognized u packages) t := by
  obtain ⟨pkg, hpkg, hother⟩ := h
  have hne : (packages.filter fun pkg => familyOf u pkg = otherLicenses).map (·.name) ≠ [] := by
    have hmem : pkg ∈ packages.filter fun pkg => familyOf u pkg = otherLicenses := List.mem_filter.mpr ⟨hpkg, by simpa⟩
    exact List.ne_nil_of_mem (List.mem_map_of_mem hmem)
  simp only [checkLicenseFamiliesRecognized, if_pos hne]
  exact exits_exit _ t

theorem checkLicenseFamilies_passes (h : ∀ pkg ∈ packages, familyOf u pkg ≠ otherLicenses) (t : Tree) :
    (checkLicenseFamiliesRecognized u packages).run t = .ok () t := by
  have hnil : (packages.filter fun pkg => familyOf u pkg = otherLicenses) = [] :=
    List.filter_eq_nil_iff.mpr fun pkg hpkg => by simpa using h pkg hpkg
  simp only [checkLicenseFamiliesRecognized, hnil, List.map_nil, ne_eq, not_true_eq_false, if_false]
  rfl

/-- The gate aborts on the packages, so `main` exits before it changes a file. -/
def Aborts (u : Unicode) (hostname : Str → Result (Option Str)) (packages : List Package) : Prop :=
  ∀ t, Exits (checkLicenseFamiliesRecognized u packages) t ∧
    ∀ repoRoot args, Exits (main u hostname repoRoot args (.ok packages)) t

theorem aborts_iff : Aborts u hostname packages ↔ ∃ pkg ∈ packages, familyOf u pkg = otherLicenses := by
  constructor
  · intro h
    by_contra hnone
    rw [not_exists] at hnone
    obtain ⟨⟨message, hexit⟩, -⟩ := h FileTree.empty
    rw [checkLicenseFamilies_passes fun pkg hpkg hother => hnone pkg ⟨hpkg, hother⟩] at hexit
    cases hexit
  · intro h t
    refine ⟨checkLicenseFamilies_exits h t, fun repoRoot args => ?_⟩
    have hsorted : ∃ pkg ∈ sortedByName u packages, familyOf u pkg = otherLicenses := by
      obtain ⟨pkg, hpkg, hother⟩ := h
      exact ⟨pkg, (sortedBy_perm _ _).mem_iff.mpr hpkg, hother⟩
    have hextract : (extract u (.ok packages)).run t = .ok (sortedByName u packages) t := rfl
    refine Exits.after hextract ?_
    rcases checkLicensesPresent_cases (sortedByName u packages) t with hexit | hpass
    · exact hexit.bind _
    · exact Exits.after hpass ((checkLicenseFamilies_exits hsorted t).bind _)

/-- Of a conjunction the gate sees one family: it aborts when none of the
licenses is recognised, or another package is at fault. -/
theorem gate_on_conjunction {Ls : List Str} (hdeclared : declaredLicense pkg = conjunction Ls)
    (before after : List Package) :
    Aborts u hostname (before ++ pkg :: after) ↔
      (∀ L ∈ Ls, licenseFamily u L = otherLicenses) ∨ ∃ q ∈ before ++ after, familyOf u q = otherLicenses := by
  rw [aborts_iff, ← licenseFamily_conjunction, ← hdeclared]
  simp only [List.mem_append, List.mem_cons]
  constructor
  · rintro ⟨q, hq | rfl | hq, hfam⟩
    · exact .inr ⟨q, .inl hq, hfam⟩
    · exact .inl hfam
    · exact .inr ⟨q, .inr hq, hfam⟩
  · rintro (hfam | ⟨q, hq | hq, hfam⟩)
    · exact ⟨pkg, .inr (.inl rfl), hfam⟩
    · exact ⟨q, .inl hq, hfam⟩
    · exact ⟨q, .inr (.inr hq), hfam⟩

theorem gate_on_conjunction_copyleft :
    Aborts sampleUnicode noHost ([] ++ samplePackage "dual" "GPL-3.0-only AND AGPL-3.0-only" [] :: []) :=
  (gate_on_conjunction (by decide : _ = conjunction ["GPL-3.0-only".toList, "AGPL-3.0-only".toList]) [] []).mpr
    (.inl (by decide))

/-- A copyleft license beside a permissive one. -/
def mixedPackage : Package := samplePackage "mixed" "MIT AND GPL-3.0-only" [("COPYING", "text")]

theorem gate_passes_mixed :
    mixedPackage.licenseExpression = conjunction ["MIT".toList, "GPL-3.0-only".toList] ∧
      licenseFamily sampleUnicode "GPL-3.0-only".toList = otherLicenses ∧
      (∀ t, (checkLicenseFamiliesRecognized sampleUnicode [mixedPackage]).run t = .ok () t) ∧
      ¬Aborts sampleUnicode noHost [mixedPackage] := by
  have hfamily : familyOf sampleUnicode mixedPackage ≠ otherLicenses := by decide
  refine ⟨by decide, by decide, checkLicenseFamilies_passes (by simpa using hfamily), ?_⟩
  rw [aborts_iff]
  simpa using hfamily

end LlmWorker.Licenses
