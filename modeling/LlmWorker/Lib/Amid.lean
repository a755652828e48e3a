import LlmWorker.Lib.Interleaving

/-!
# One component amid the others

What the others do to the shared state is one relation, and a rank of the
component that its own steps lower and the others never raise bounds what the
component does in a run, however its steps are interleaved with theirs.
-/

namespace Transition

variable {σ : Type u} {κ : Type w} {α : Type x}

/-- A component takes steps of its own; between them the others move the shared state. -/
def amid (act : σ → κ → α → σ → κ → Prop) (others : σ → κ → σ → Prop) : LTS (σ × κ) (α ⊕ Unit) where
  init _ := True
  step
    | s, .inl a, t => act s.1 s.2 a t.1 t.2
    | s, .inr _, t => others s.1 s.2 t.1 ∧ t.2 = s.2

def ownCost (cost : α → Nat) : List (α ⊕ Unit) → Nat
  | [] => 0
  | .inl a :: as => cost a + ownCost cost as
  | .inr _ :: as => ownCost cost as

def ownSteps (as : List (α ⊕ Unit)) : Nat := ownCost (fun _ => 1) as

theorem ownCost_append (cost : α → Nat) (as bs : List (α ⊕ Unit)) :
    ownCost cost (as ++ bs) = ownCost cost as + ownCost cost bs := by
  induction as with
  | nil => simp [ownCost]
  | cons a as ih => cases a <;> simp [ownCost, ih, Nat.add_assoc]

section

variable {act : σ → κ → α → σ → κ → Prop} {others : σ → κ → σ → Prop} {I : σ → κ → Prop}

theorem amid_restrict {ok : α → Prop} (h : (amid act others).Run s as t) (hok : ∀ a, .inl a ∈ as → ok a) :
    (amid (fun s k a s' k' => ok a ∧ act s k a s' k') others).Run s as t := by
  induction h with
  | nil => exact .nil
  | @snoc as t a u _ hs ih =>
    refine .snoc (ih fun a ha => hok a (List.mem_append_left _ ha)) ?_
    cases a with
    | inl a => exact ⟨hok a (by simp), hs⟩
    | inr _ => exact hs

/-- The others may move whenever they want: only what the component does
counts, and only as long as `W` holds, which no step brings back. -/
theorem amid_cost_le_while {W : σ → κ → Prop} {r : σ → κ → Nat} {c : α → Nat} (h : (amid act others).Run s as t)
    (h0 : I s.1 s.2)
    (own : ∀ {s k a s' k'}, I s k → act s k a s' k' → I s' k' ∧ (W s' k' → W s k ∧ c a + r s' k' ≤ r s k))
    (rest : ∀ {s k s'}, I s k → others s k s' → I s' k ∧ (W s' k → W s k ∧ r s' k ≤ r s k)) :
    I t.1 t.2 ∧ (W t.1 t.2 → ownCost c as + r t.1 t.2 ≤ r s.1 s.2) := by
  refine h.trace_invariant (J := fun as t => I t.1 t.2 ∧ (W t.1 t.2 → ownCost c as + r t.1 t.2 ≤ r s.1 s.2))
    ⟨h0, fun _ => by simp [ownCost]⟩ ?_
  rintro as ⟨t, k⟩ a ⟨t', k'⟩ ⟨hI, hle⟩ hs
  rw [ownCost_append]
  cases a with
  | inl a =>
    obtain ⟨hI', hpay⟩ := own hI hs
    refine ⟨hI', fun hW => ?_⟩
    obtain ⟨hW, hpay⟩ := hpay hW
    calc ownCost c as + c a + r t' k' = ownCost c as + (c a + r t' k') := Nat.add_assoc _ _ _
      _ ≤ ownCost c as + r t k := Nat.add_le_add_left hpay _
      _ ≤ r s.1 s.2 := hle hW
  | inr _ =>
    obtain ⟨ho, rfl⟩ := hs
    obtain ⟨hI', hpay⟩ := rest hI ho
    refine ⟨hI', fun hW => ?_⟩
    obtain ⟨hW, hpay⟩ := hpay hW
    exact (Nat.add_le_add_left hpay _).trans (hle hW)

theorem amid_cost_le {r : σ → κ → Nat} {c : α → Nat} (h : (amid act others).Run s as t) (h0 : I s.1 s.2)
    (own : ∀ {s k a s' k'}, I s k → act s k a s' k' → I s' k' ∧ c a + r s' k' ≤ r s k)
    (rest : ∀ {s k s'}, I s k → others s k s' → I s' k ∧ r s' k ≤ r s k) :
    I t.1 t.2 ∧ ownCost c as + r t.1 t.2 ≤ r s.1 s.2 := by
  obtain ⟨hI, hle⟩ := amid_cost_le_while (W := fun _ _ => True) (r := r) (c := c) h h0
    (fun hI hs => (own hI hs).imp_right fun hpay _ => ⟨trivial, hpay⟩)
    fun hI ho => (rest hI ho).imp_right fun hpay _ => ⟨trivial, hpay⟩
  exact ⟨hI, hle trivial⟩

end

namespace Shared

variable {ι : Type v} [DecidableEq ι] {ε : Type y}

def seen (i : ι) : ι × α ⊕ ε → α ⊕ Unit
  | .inl (j, a) => if j = i then .inl a else .inr ()
  | .inr _ => .inr ()

theorem inl_mem_seen {i : ι} {as : List (ι × α ⊕ ε)} (h : .inl a ∈ as.map (seen i)) : .inl (i, a) ∈ as := by
  obtain ⟨label, hmem, heq⟩ := List.mem_map.mp h
  cases label with
  | inl pair =>
    obtain ⟨j, a'⟩ := pair
    by_cases hij : j = i
    · subst hij
      obtain rfl : a' = a := by simpa [seen] using heq
      exact hmem
    · simp [seen, hij] at heq
  | inr _ => cases heq

variable {S : Shared σ ι κ α ε}

theorem run_amid {O : σ → κ → σ → Prop} (i : ι) (hstart : S.lts.Reachable s) (h : S.lts.Run s as t)
    (rest : ∀ {s k j a s' l}, S.lts.Reachable (s, k) → j ≠ i → S.act s (k j) a s' l → O s (k i) s')
    (env : ∀ {s k e s'}, S.lts.Reachable (s, k) → S.env s e s' → O s (k i) s') :
    (amid S.act O).Run (s.1, s.2 i) (as.map (seen i)) (t.1, t.2 i) := by
  have both : S.lts.Reachable t ∧ (amid S.act O).Run (s.1, s.2 i) (as.map (seen i)) (t.1, t.2 i) := by
    refine h.trace_invariant (J := fun as t => S.lts.Reachable t ∧
      (amid S.act O).Run (s.1, s.2 i) (as.map (seen i)) (t.1, t.2 i)) ⟨hstart, .nil⟩ ?_
    rintro as ⟨s', k⟩ a ⟨u, l⟩ ⟨hreach, hrun⟩ hs
    refine ⟨hreach.step hs, ?_⟩
    rw [List.map_append, List.map_singleton]
    refine .snoc hrun ?_
    cases a with
    | inl pair =>
      obtain ⟨j, a⟩ := pair
      obtain ⟨k', hact, hl⟩ := hs
      obtain rfl : l = Function.update k j k' := hl
      by_cases hij : j = i
      · subst hij
        simpa [seen, amid] using hact
      · have hsame : Function.update k j k' i = k i := Function.update_of_ne (Ne.symm hij) _ _
        simpa [seen, hij, amid, hsame] using rest hreach hij hact
    | inr e =>
      obtain ⟨henv, hl⟩ := hs
      obtain rfl : l = k := hl
      exact ⟨env hreach henv, rfl⟩
  exact both.2

end Shared

end Transition
