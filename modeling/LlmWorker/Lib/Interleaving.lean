import LlmWorker.Lib.Transition
import Mathlib.Algebra.BigOperators.Group.Finset.Basic
import Mathlib.Algebra.Order.BigOperators.Group.Finset
import Mathlib.Data.Fintype.BigOperators

/-!
# Components over a shared state

Any number of components take turns on one shared state, next to an
environment that changes the shared state on its own. `Shared.always` is the
rely-guarantee rule: each component keeps its local assertion while every
step, its own or another's, stays within one relation on the shared state.
-/

namespace Transition

/-- Components `ι` with local states `κ` over a shared state `σ`. -/
structure Shared (σ : Type u) (ι : Type v) (κ : Type w) (α : Type x) (ε : Type y) where
  init : σ → (ι → κ) → Prop
  act : σ → κ → α → σ → κ → Prop
  env : σ → ε → σ → Prop

namespace Shared

variable {σ : Type u} {ι : Type v} [DecidableEq ι] {κ : Type w} {α : Type x} {ε : Type y}

/-- One component, or the environment, takes one step. -/
def lts (S : Shared σ ι κ α ε) : LTS (σ × (ι → κ)) (ι × α ⊕ ε) where
  init s := S.init s.1 s.2
  step
    | s, .inl (i, a), t => ∃ k, S.act s.1 (s.2 i) a t.1 k ∧ t.2 = Function.update s.2 i k
    | s, .inr e, t => S.env s.1 e t.1 ∧ t.2 = s.2

def ofFn (init : σ → (ι → κ) → Prop) (act : σ → κ → α → Option (σ × κ)) (env : σ → ε → Option σ) :
    Shared σ ι κ α ε :=
  ⟨init, fun s k a s' k' => act s k a = some (s', k'), fun s e s' => env s e = some s'⟩

/-- The same system, with only the component and environment steps that satisfy `ok`. -/
def restrict (S : Shared σ ι κ α ε) (ok : κ → α → Prop) (okEnv : σ → ε → Prop) : Shared σ ι κ α ε :=
  ⟨S.init, fun s k a s' k' => ok k a ∧ S.act s k a s' k', fun s e s' => okEnv s e ∧ S.env s e s'⟩

def next (act : σ → κ → α → Option (σ × κ)) (env : σ → ε → Option σ) (s : σ × (ι → κ)) :
    ι × α ⊕ ε → Option (σ × (ι → κ))
  | .inl (i, a) => (act s.1 (s.2 i) a).map fun r => (r.1, Function.update s.2 i r.2)
  | .inr e => (env s.1 e).map fun r => (r, s.2)

theorem step_of_next {init : σ → (ι → κ) → Prop} {act : σ → κ → α → Option (σ × κ)}
    {env : σ → ε → Option σ} (h : next act env s a = some t) :
    (ofFn init act env).lts.step s a t := by
  rcases a with ⟨i, a⟩ | e
  · obtain ⟨r, hr, rfl⟩ := Option.map_eq_some_iff.mp h
    exact ⟨r.2, hr, rfl⟩
  · obtain ⟨r, hr, rfl⟩ := Option.map_eq_some_iff.mp h
    exact ⟨hr, rfl⟩

theorem run_of_exec {init : σ → (ι → κ) → Prop} {act : σ → κ → α → Option (σ × κ)}
    {env : σ → ε → Option σ} {ok : κ → α → Prop} {okEnv : σ → ε → Prop}
    {check : σ × (ι → κ) → ι × α ⊕ ε → Bool}
    (hok : ∀ {s i a}, check s (.inl (i, a)) = true → ok (s.2 i) a)
    (hokEnv : ∀ {s e}, check s (.inr e) = true → okEnv s.1 e)
    (h : LTS.exec (fun s a => if check s a then next act env s a else none) s as = some t) :
    ((ofFn init act env).restrict ok okEnv).lts.Run s as t := by
  have hr : (LTS.ofFn (fun _ => True)
      fun s a => if check s a then next act env s a else none).Run s as t := LTS.run_of_exec h
  refine hr.mono ?_
  intro s a t hs
  have hs : (if check s a then next act env s a else none) = some t := hs
  split at hs
  · rename_i hc
    have hstep : (ofFn init act env).lts.step s a t := step_of_next hs
    rcases a with ⟨i, a⟩ | e
    · obtain ⟨k, hk, ht⟩ := hstep
      exact ⟨k, ⟨hok hc, hk⟩, ht⟩
    · exact ⟨⟨hokEnv hc, hstep.1⟩, hstep.2⟩
  · cases hs

variable {S : Shared σ ι κ α ε}

theorem step_of_act {k : ι → κ} (h : S.act s (k i) a s' l) :
    S.lts.step (s, k) (.inl (i, a)) (s', Function.update k i l) := ⟨l, h, rfl⟩

/-- Rely-guarantee: `G` holds of the shared state and `L` of every component,
when each component keeps both and moves the shared state within `R`, the
environment keeps `G` and stays within `R`, and `L` survives every move within
`R`. A component may rely on the whole state being reachable. -/
theorem always {G : σ → Prop} {L : σ → κ → Prop} {R : σ → σ → Prop}
    (start : ∀ {s k}, S.init s k → G s ∧ ∀ i, L s (k i))
    (act : ∀ {s k i a s' l}, S.lts.Reachable (s, k) → G s → L s (k i) → S.act s (k i) a s' l →
      G s' ∧ L s' l ∧ R s s')
    (env : ∀ {s e s'}, G s → S.env s e s' → G s' ∧ R s s')
    (stable : ∀ {s s' k}, G s → R s s' → L s k → L s' k) (h : S.lts.Reachable s) :
    G s.1 ∧ ∀ i, L s.1 (s.2 i) := by
  refine h.invariant_of (I := fun s => G s.1 ∧ ∀ i, L s.1 (s.2 i)) (fun hi => start hi) ?_
  rintro ⟨s, k⟩ a ⟨s', k'⟩ hr ⟨hG, hL⟩ hst
  rcases a with ⟨i, a⟩ | e
  · obtain ⟨l, hact, rfl⟩ := hst
    obtain ⟨hG', hl, hR⟩ := act hr hG (hL i) hact
    refine ⟨hG', fun j => ?_⟩
    by_cases hj : j = i
    · subst hj; simpa using hl
    · simpa [Function.update_of_ne hj] using stable hG hR (hL j)
  · obtain ⟨henv, rfl⟩ := hst
    obtain ⟨hG', hR⟩ := env hG henv
    exact ⟨hG', fun j => stable hG hR (hL j)⟩

/-- A local map that simulates each component lifts to the whole system. `I`
is a local invariant the simulation may use. -/
theorem refines {κ' : Type w'} {α' : Type x'} {U : Shared σ ι κ' α' ε} {f : κ → κ'} {I : κ → Prop}
    (start : ∀ {s k}, S.init s k → U.init s (f ∘ k) ∧ ∀ i, I (k i))
    (keep : ∀ {s k a s' k'}, I k → S.act s k a s' k' → I k')
    (act : ∀ {s k a s' k'}, I k → S.act s k a s' k' →
      (s' = s ∧ f k' = f k) ∨ ∃ b, U.act s (f k) b s' (f k'))
    (env : ∀ {s e s'}, S.env s e s' → U.env s e s') :
    S.lts.Refines U.lts (fun p => (p.1, f ∘ p.2)) where
  init h := (start h).1
  step := by
    rintro ⟨s, k⟩ a ⟨s', k'⟩ hr hst
    have hI : ∀ i, I (k i) :=
      hr.invariant (I := fun p => ∀ i, I (p.2 i)) (fun h => (start h).2) (by
        rintro ⟨s, k⟩ a ⟨s', k'⟩ hI hst
        rcases a with ⟨i, a⟩ | e
        · obtain ⟨l, hact, rfl⟩ := hst
          intro j
          by_cases hj : j = i
          · subst hj; simpa using keep (hI j) hact
          · simpa [Function.update_of_ne hj] using hI j
        · obtain ⟨-, rfl⟩ := hst
          exact hI)
    rcases a with ⟨i, a⟩ | e
    · obtain ⟨l, hact, hl⟩ := hst
      obtain rfl : k' = Function.update k i l := hl
      rcases act (hI i) hact with ⟨hs, hf⟩ | ⟨b, hb⟩
      · left
        refine Prod.ext hs ?_
        show f ∘ Function.update k i l = f ∘ k
        rw [Function.comp_update, hf]
        exact Function.update_eq_self i (f ∘ k)
      · exact .inr ⟨.inl (i, b), f l, hb, Function.comp_update f k i l⟩
    · obtain ⟨henv, rfl⟩ := hst
      exact .inr ⟨.inr e, env henv, rfl⟩

theorem solo [Subsingleton ι] {I : σ → κ → Prop} (start : ∀ {s k}, S.init s k → ∀ i, I s (k i))
    (act : ∀ {s k i a s' l}, S.lts.Reachable (s, k) → I s (k i) → S.act s (k i) a s' l → I s' l)
    (env : ∀ {s k i e s'}, S.lts.Reachable (s, k) → I s (k i) → S.env s e s' → I s' (k i))
    (h : S.lts.Reachable s) : ∀ i, I s.1 (s.2 i) := by
  refine h.invariant_of (I := fun s => ∀ i, I s.1 (s.2 i)) (fun hi => start hi) ?_
  rintro ⟨s, k⟩ a ⟨s', k'⟩ hr hI hst j
  rcases a with ⟨i, a⟩ | e
  · obtain ⟨l, hact, rfl⟩ := hst
    obtain rfl := Subsingleton.elim j i
    simpa using act hr (hI j) hact
  · obtain ⟨henv, rfl⟩ := hst
    exact env hr (hI j) henv

section Recording

variable {η : Type z}

/-- Every component keeps a history, which no step reads. -/
def recorded (S : Shared σ ι κ α ε) (empty : η) (observe : σ → κ → κ → η → η) :
    Shared σ ι (κ × η) α ε where
  init s k := S.init s (fun i => (k i).1) ∧ ∀ i, (k i).2 = empty
  act s k a s' k' := S.act s k.1 a s' k'.1 ∧ k'.2 = observe s k.1 k'.1 k.2
  env := S.env

theorem reachable_recorded {empty : η} {observe : σ → κ → κ → η → η} (h : S.lts.Reachable s) :
    ∃ history : ι → η, (S.recorded empty observe).lts.Reachable (s.1, fun i => (s.2 i, history i)) := by
  obtain ⟨s₀, as, hinit, hrun⟩ := h
  induction hrun with
  | nil => exact ⟨fun _ => empty, .init ⟨hinit, fun _ => rfl⟩⟩
  | @snoc as t a u hrun hstep ih =>
    obtain ⟨history, hreach⟩ := ih
    rcases a with ⟨i, a⟩ | e
    · obtain ⟨k, hact, hu⟩ := hstep
      refine ⟨Function.update history i (observe t.1 (t.2 i) k (history i)), hreach.step (a := .inl (i, a)) ?_⟩
      refine ⟨(k, observe t.1 (t.2 i) k (history i)), ⟨hact, rfl⟩, ?_⟩
      funext j
      by_cases hj : j = i
      · subst hj
        simp [hu]
      · simp [hu, Function.update_of_ne hj]
    · obtain ⟨henv, hu⟩ := hstep
      have hnext : (S.recorded empty observe).lts.step (t.1, fun i => (t.2 i, history i)) (.inr e)
          (u.1, fun i => (u.2 i, history i)) := ⟨henv, by rw [hu]⟩
      exact ⟨history, hreach.step hnext⟩

theorem recorded_invariant {empty : η} {observe : σ → κ → κ → η → η} {I : κ → η → Prop}
    (start : ∀ {s k i}, S.init s k → I (k i) empty)
    (act : ∀ {s k a s' k' history}, I k history → S.act s k a s' k' → I k' (observe s k k' history))
    (h : (S.recorded empty observe).lts.Reachable s) (i : ι) : I (s.2 i).1 (s.2 i).2 := by
  refine (always (G := fun _ => True) (L := fun _ k => I k.1 k.2) (R := fun _ _ => True)
    ?_ ?_ ?_ ?_ h).2 i
  · rintro s k ⟨hinit, hempty⟩
    refine ⟨trivial, fun i => ?_⟩
    rw [hempty i]
    exact start hinit
  · rintro s k i a s' l - - hI ⟨hact, hhistory⟩
    rw [hhistory]
    exact ⟨trivial, act hI hact, trivial⟩
  · intro s e s' _ _
    exact ⟨trivial, trivial⟩
  · intro s s' k _ _ hI
    exact hI

end Recording

section Notes

variable {η : Type z}

/-- The system keeps a list of what each component's step gives to note, which
no step reads. -/
def noted (S : Shared σ ι κ α ε) (note : κ → α → List η) : Shared (σ × List η) ι κ α ε where
  init s k := S.init s.1 k ∧ s.2 = []
  act s k a s' k' := S.act s.1 k a s'.1 k' ∧ s'.2 = s.2 ++ note k a
  env s e s' := S.env s.1 e s'.1 ∧ s'.2 = s.2

variable {note : κ → α → List η}

theorem reachable_noted (h : S.lts.Reachable s) :
    ∃ notes, (S.noted note).lts.Reachable ((s.1, notes), s.2) := by
  refine h.invariant (I := fun s => ∃ notes, (S.noted note).lts.Reachable ((s.1, notes), s.2)) ?_ ?_
  · intro s hinit
    exact ⟨[], .init ⟨hinit, rfl⟩⟩
  · rintro s a t ⟨notes, hreach⟩ hst
    rcases a with ⟨i, a⟩ | e
    · obtain ⟨k, hact, ht⟩ := hst
      have hnext : (S.noted note).lts.step ((s.1, notes), s.2) (.inl (i, a)) ((t.1, notes ++ note (s.2 i) a), t.2) :=
        ⟨k, ⟨hact, rfl⟩, ht⟩
      exact ⟨_, hreach.step hnext⟩
    · obtain ⟨henv, ht⟩ := hst
      have hnext : (S.noted note).lts.step ((s.1, notes), s.2) (.inr e) ((t.1, notes), t.2) := ⟨⟨henv, rfl⟩, ht⟩
      exact ⟨notes, hreach.step hnext⟩

/-- What every allowed step notes is all that a restricted run ever notes. -/
theorem noted_restrict {ok : κ → α → Prop} {okEnv : σ → ε → Prop} {p : η → Prop}
    (hp : ∀ {k a}, ok k a → ∀ x ∈ note k a, p x) (h : ((S.restrict ok okEnv).noted note).lts.Reachable s) :
    (S.noted note).lts.Reachable s ∧ ∀ x ∈ s.1.2, p x := by
  refine h.invariant (I := fun s => (S.noted note).lts.Reachable s ∧ ∀ x ∈ s.1.2, p x) ?_ ?_
  · rintro s ⟨hinit, hnil⟩
    exact ⟨.init ⟨hinit, hnil⟩, by simp [hnil]⟩
  · rintro s a t ⟨hreach, hall⟩ hst
    rcases a with ⟨i, a⟩ | e
    · obtain ⟨k, ⟨⟨hok, hact⟩, hnote⟩, ht⟩ := hst
      have hnext : (S.noted note).lts.step s (.inl (i, a)) t := ⟨k, ⟨hact, hnote⟩, ht⟩
      refine ⟨hreach.step hnext, fun x hx => ?_⟩
      rw [hnote] at hx
      rcases List.mem_append.mp hx with hold | hnew
      · exact hall x hold
      · exact hp hok x hnew
    · obtain ⟨⟨⟨-, henv⟩, hnote⟩, ht⟩ := hst
      have hnext : (S.noted note).lts.step s (.inr e) t := ⟨⟨henv, hnote⟩, ht⟩
      exact ⟨hreach.step hnext, fun x hx => hall x (hnote ▸ hx)⟩

end Notes

section Attribution

variable [Fintype ι] {K : Type z} [BEq K]

/-- When every item the shared state gains is recorded by the component that
adds it, the records account for all items. -/
theorem count_eq_sum (out : σ → List K) (own : κ → List K) (start : ∀ {s k}, S.init s k → out s = [] ∧ ∀ i, own (k i) = [])
    (act : ∀ {s k a s' k'}, S.act s k a s' k' → ∃ new, out s' = out s ++ new ∧ own k' = own k ++ new)
    (env : ∀ {s e s'}, S.env s e s' → out s' = out s) (h : S.lts.Reachable s) (x : K) :
    (out s.1).count x = ∑ i, (own (s.2 i)).count x := by
  refine h.invariant (I := fun s => (out s.1).count x = ∑ i, (own (s.2 i)).count x) ?_ ?_
  · intro s hi
    obtain ⟨hout, hown⟩ := start hi
    simp [hout, hown]
  · rintro ⟨s, k⟩ a ⟨s', k'⟩ hI hst
    rcases a with ⟨i, a⟩ | e
    · obtain ⟨l, hact, rfl⟩ := hst
      obtain ⟨new, hout, hown⟩ := act hact
      have hupdate : (fun j => (own (Function.update k i l j)).count x) =
          Function.update (fun j => (own (k j)).count x) i ((own l).count x) := by
        funext j
        by_cases hj : j = i
        · subst hj; simp
        · simp [Function.update_of_ne hj]
      have hown : own l = own (k i) ++ new := hown
      have hsplit : (own (k i)).count x + ∑ j ∈ Finset.univ.erase i, (own (k j)).count x =
          ∑ j, (own (k j)).count x :=
        Finset.add_sum_erase Finset.univ (fun j => (own (k j)).count x) (Finset.mem_univ i)
      simp only at hI ⊢
      rw [hupdate, Finset.sum_update_of_mem (Finset.mem_univ i), hout, hown, List.count_append,
        List.count_append, hI, ← hsplit, Finset.sdiff_singleton_eq_erase]
      omega
    · obtain ⟨henv, rfl⟩ := hst
      simp only at hI ⊢
      rw [env henv, hI]

omit [DecidableEq ι] in
theorem sum_count_le_card [LawfulBEq K] {l : ι → List K} (hnodup : ∀ i, (l i).Nodup) (x : K) :
    ∑ i, (l i).count x ≤ Fintype.card ι :=
  calc ∑ i, (l i).count x ≤ ∑ _i : ι, 1 :=
        Finset.sum_le_sum fun i _ => List.nodup_iff_count_le_one.mp (hnodup i) x
    _ = Fintype.card ι := by simp

end Attribution

end Shared

end Transition
