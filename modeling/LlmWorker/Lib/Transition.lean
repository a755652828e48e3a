import Mathlib.Data.List.Induction

/-!
# Labelled transition systems

Finite runs with their labels, invariants over runs and over traces, and
refinement up to stuttering. A system is usually given by a partial step
function (`ofFn`), so that a run on concrete labels can be computed (`exec`).
-/

namespace Transition

/-- A labelled transition system: its initial states and its labelled steps. -/
structure LTS (σ : Type u) (α : Type v) where
  init : σ → Prop
  step : σ → α → σ → Prop

namespace LTS

variable {σ : Type u} {α : Type v} {τ : Type u'} {β : Type v'}

def ofFn (init : σ → Prop) (f : σ → α → Option σ) : LTS σ α :=
  ⟨init, fun s a t => f s a = some t⟩

/-- The same system, with only the steps that satisfy `ok`. -/
def restrict (T : LTS σ α) (ok : σ → α → Prop) : LTS σ α :=
  ⟨T.init, fun s a t => ok s a ∧ T.step s a t⟩

/-- The labels `as`, taken in order, lead from one state to another. -/
inductive Run (T : LTS σ α) (s : σ) : List α → σ → Prop
  | nil : Run T s [] s
  | snoc : Run T s as t → T.step t a u → Run T s (as ++ [a]) u

def Reachable (T : LTS σ α) (s : σ) : Prop := ∃ s₀ as, T.init s₀ ∧ T.Run s₀ as s

variable {T : LTS σ α}

-- ---------------------------------------------------------------------------
-- Runs
-- ---------------------------------------------------------------------------

theorem Run.cons (h : T.step s a t) (hr : T.Run t as u) : T.Run s (a :: as) u := by
  induction hr with
  | nil => exact (Run.nil.snoc h : T.Run s ([] ++ [a]) _)
  | snoc _ hs ih => exact .snoc ih hs

theorem Run.append (h : T.Run s as t) (hr : T.Run t bs u) : T.Run s (as ++ bs) u := by
  induction hr with
  | nil => simpa using h
  | snoc _ hs ih => rw [← List.append_assoc]; exact .snoc ih hs

theorem Run.snoc_inv (h : T.Run s (as ++ [a]) u) : ∃ t, T.Run s as t ∧ T.step t a u := by
  generalize hl : as ++ [a] = l at h
  cases h with
  | nil => simp at hl
  | snoc hr hs =>
    obtain ⟨rfl, hab⟩ := List.append_inj' hl rfl
    obtain rfl : a = _ := by simpa using hab
    exact ⟨_, hr, hs⟩

theorem Run.append_inv (h : T.Run s (as ++ bs) u) : ∃ t, T.Run s as t ∧ T.Run t bs u := by
  induction bs using List.reverseRecOn generalizing u with
  | nil => exact ⟨u, by simpa using h, .nil⟩
  | append_singleton bs b ih =>
    rw [← List.append_assoc] at h
    obtain ⟨t, hr, hs⟩ := h.snoc_inv
    obtain ⟨m, h1, h2⟩ := ih hr
    exact ⟨m, h1, .snoc h2 hs⟩

theorem Run.nil_inv (h : T.Run s [] t) : s = t := by
  generalize hl : ([] : List α) = l at h
  cases h with
  | nil => rfl
  | snoc => simp at hl

theorem Run.cons_inv (h : T.Run s (a :: as) u) : ∃ t, T.step s a t ∧ T.Run t as u := by
  obtain ⟨t, hr, hs⟩ : ∃ t, T.Run s [a] t ∧ T.Run t as u := Run.append_inv h
  obtain ⟨m, hm, hstep⟩ : ∃ m, T.Run s [] m ∧ T.step m a t := Run.snoc_inv hr
  obtain rfl := hm.nil_inv
  exact ⟨t, hstep, hs⟩

theorem Run.invariant {I : σ → Prop} (h : T.Run s as t) (h0 : I s)
    (keep : ∀ {s a t}, I s → T.step s a t → I t) : I t := by
  induction h with
  | nil => exact h0
  | snoc _ hs ih => exact keep ih hs

theorem Run.trace_invariant {J : List α → σ → Prop} (h : T.Run s as t) (h0 : J [] s)
    (keep : ∀ {as t a u}, J as t → T.step t a u → J (as ++ [a]) u) : J as t := by
  induction h with
  | nil => exact h0
  | snoc _ hs ih => exact keep ih hs

theorem Run.excludes {I : σ → Prop} {B : α → Prop} (h : T.Run s as t) (h0 : I s)
    (keep : ∀ {s a t}, I s → T.step s a t → I t ∧ ¬B a) : I t ∧ ∀ a ∈ as, ¬B a := by
  refine h.trace_invariant (J := fun as t => I t ∧ ∀ a ∈ as, ¬B a) ⟨h0, by simp⟩ ?_
  rintro as t a u ⟨hI, has⟩ hs
  obtain ⟨hI', ha⟩ := keep hI hs
  refine ⟨hI', fun c hc => ?_⟩
  rcases List.mem_append.mp hc with hold | hnew
  · exact has c hold
  · obtain rfl : c = a := by simpa using hnew
    exact ha

theorem Run.length_le {I : σ → Prop} {rank : σ → Nat} (h : T.Run s as t) (h0 : I s)
    (keep : ∀ {s a t}, I s → T.step s a t → I t ∧ rank t < rank s) : as.length + rank t ≤ rank s := by
  have both : I t ∧ as.length + rank t ≤ rank s := by
    refine h.trace_invariant (J := fun as t => I t ∧ as.length + rank t ≤ rank s) ⟨h0, by simp⟩ ?_
    rintro as t a u ⟨hI, hle⟩ hs
    obtain ⟨hI', hlt⟩ := keep hI hs
    refine ⟨hI', ?_⟩
    rw [List.length_append, List.length_singleton]
    omega
  exact both.2

theorem Run.mono {U : LTS σ α} (h : T.Run s as t)
    (hle : ∀ {s a t}, T.step s a t → U.step s a t) : U.Run s as t := by
  induction h with
  | nil => exact .nil
  | snoc _ hs ih => exact .snoc ih (hle hs)

-- ---------------------------------------------------------------------------
-- Reachable states
-- ---------------------------------------------------------------------------

theorem Reachable.init (h : T.init s) : T.Reachable s := ⟨s, [], h, .nil⟩

theorem Reachable.step (h : T.Reachable s) (hs : T.step s a t) : T.Reachable t := by
  obtain ⟨s₀, as, h0, hr⟩ := h
  exact ⟨s₀, as ++ [a], h0, .snoc hr hs⟩

theorem Reachable.invariant {I : σ → Prop} (h : T.Reachable s) (h0 : ∀ {s}, T.init s → I s)
    (keep : ∀ {s a t}, I s → T.step s a t → I t) : I s := by
  obtain ⟨s₀, as, hi, hr⟩ := h
  exact hr.invariant (h0 hi) keep

/-- An invariant may use that the state it is kept from is reachable. -/
theorem Reachable.invariant_of {I : σ → Prop} (h : T.Reachable s) (h0 : ∀ {s}, T.init s → I s)
    (keep : ∀ {s a t}, T.Reachable s → I s → T.step s a t → I t) : I s := by
  have both : T.Reachable s ∧ I s :=
    h.invariant (I := fun s => T.Reachable s ∧ I s) (fun hi => ⟨.init hi, h0 hi⟩)
      fun hi hs => ⟨hi.1.step hs, keep hi.1 hi.2 hs⟩
  exact both.2

-- ---------------------------------------------------------------------------
-- Runs that can be computed
-- ---------------------------------------------------------------------------

/-- Take the labels one after the other; `none` when one is not enabled. -/
def exec (f : σ → α → Option σ) : σ → List α → Option σ
  | s, [] => some s
  | s, a :: as => (f s a).bind fun t => exec f t as

theorem run_of_exec {f : σ → α → Option σ} {start : σ → Prop} (h : exec f s as = some t) :
    (ofFn start f).Run s as t := by
  induction as generalizing s with
  | nil =>
    obtain rfl : s = t := by simpa [exec] using h
    exact .nil
  | cons a as ih =>
    obtain ⟨m, hm, ht⟩ := Option.bind_eq_some_iff.mp h
    exact .cons hm (ih ht)

theorem exists_run {f : σ → α → Option σ} {start : σ → Prop} {p : σ → Bool}
    (h : (exec f s as).map p = some true) : ∃ t, (ofFn start f).Run s as t ∧ p t = true := by
  obtain ⟨t, ht, hp⟩ := Option.map_eq_some_iff.mp h
  exact ⟨t, run_of_exec ht, hp⟩

theorem exec_append (f : σ → α → Option σ) (s : σ) (as bs : List α) :
    exec f s (as ++ bs) = (exec f s as).bind fun t => exec f t bs := by
  induction as generalizing s with
  | nil => rfl
  | cons a as ih => simp [exec, Option.bind_assoc, ih]

theorem restrict_run_of_exec {f : σ → α → Option σ} {start : σ → Prop} {ok : σ → α → Prop}
    [∀ s, DecidablePred (ok s)] (h : exec (fun s a => if ok s a then f s a else none) s as = some t) :
    ((ofFn start f).restrict ok).Run s as t := by
  have hr : (ofFn start fun s a => if ok s a then f s a else none).Run s as t := run_of_exec h
  refine hr.mono fun {s a t} hs => ?_
  have hs : (if ok s a then f s a else none) = some t := hs
  split at hs
  · exact ⟨‹_›, hs⟩
  · cases hs

theorem Run.restrict {ok : α → Prop} (h : T.Run s as t) (hok : ∀ a ∈ as, ok a) :
    (T.restrict fun _ a => ok a).Run s as t := by
  induction h with
  | nil => exact .nil
  | snoc _ hs ih =>
    exact .snoc (ih fun a ha => hok a (List.mem_append_left _ ha)) ⟨hok _ (by simp), hs⟩

theorem restrict_run {ok : σ → α → Prop} (h : (T.restrict ok).Run s as t) : T.Run s as t :=
  h.mono fun hs => hs.2

-- ---------------------------------------------------------------------------
-- Derived systems
-- ---------------------------------------------------------------------------

/-- The same system, keeping the labels taken so far. -/
def logged (T : LTS σ α) : LTS (List α × σ) α where
  init s := s.1 = [] ∧ T.init s.2
  step s a t := t.1 = s.1 ++ [a] ∧ T.step s.2 a t.2

theorem Run.logged (h : T.Run s as t) (log : List α) : T.logged.Run (log, s) as (log ++ as, t) := by
  induction h with
  | nil => rw [List.append_nil]; exact .nil
  | snoc _ hs ih => rw [← List.append_assoc]; exact .snoc ih ⟨rfl, hs⟩

/-- The same system, with a history of what `observe` makes of each step. -/
def observed (T : LTS σ α) (observe : σ → α → List β) : LTS (σ × List β) α where
  init s := T.init s.1 ∧ s.2 = []
  step s a t := T.step s.1 a t.1 ∧ t.2 = s.2 ++ observe s.1 a

theorem Run.observed (h : T.Run s as t) (observe : σ → α → List β) (history : List β) :
    ∃ history', (T.observed observe).Run (s, history) as (t, history') := by
  induction h with
  | nil => exact ⟨history, .nil⟩
  | snoc _ hs ih =>
    obtain ⟨history', hr⟩ := ih
    exact ⟨_, .snoc hr ⟨hs, rfl⟩⟩

def free (ok : α → Prop) : LTS Unit α := ⟨fun _ => True, fun _ a _ => ok a⟩

theorem run_free {ok : α → Prop} (h : ∀ a ∈ as, ok a) : (free ok).Run () as () := by
  induction as with
  | nil => exact .nil
  | cons a as ih =>
    have hstep : (free ok).step () a () := h a List.mem_cons_self
    exact .cons hstep (ih fun b hb => h b (List.mem_cons_of_mem a hb))

-- ---------------------------------------------------------------------------
-- Refinement
-- ---------------------------------------------------------------------------

/-- `f` maps every reachable step of `T` to a step of `U`, or to no step. -/
structure Refines (T : LTS σ α) (U : LTS τ β) (f : σ → τ) : Prop where
  init : ∀ {s}, T.init s → U.init (f s)
  step : ∀ {s a t}, T.Reachable s → T.step s a t → f t = f s ∨ ∃ b, U.step (f s) b (f t)

theorem Refines.reachable {U : LTS τ β} {f : σ → τ} (hr : T.Refines U f) (h : T.Reachable s) :
    U.Reachable (f s) := by
  refine h.invariant_of (I := fun s => U.Reachable (f s)) (fun hi => .init (hr.init hi)) ?_
  intro s a t hs ih hst
  rcases hr.step hs hst with heq | ⟨b, hb⟩
  · rw [heq]; exact ih
  · exact ih.step hb

end LTS

end Transition
