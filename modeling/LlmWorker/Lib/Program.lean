import LlmWorker.Lib.Transition
import Mathlib.Logic.Function.Basic

/-!
# Programs that ask an environment

A program asks for one operation after the other and goes on with the answer.
The environment is a transition system whose labels are answered operations,
so a program can be run alone, or with others that take turns on one
environment. `Ensures` is a program logic over an environment: an invariant of
every state on the way, and a postcondition.
-/

namespace Transition

/-- Code that has a result, or asks for an operation and goes on with its answer. -/
inductive Program (Op : Type u) (R : Op → Type v) (α : Type w)
  | done (a : α)
  | ask (o : Op) (next : R o → Program Op R α)

structure Event {Op : Type u} (R : Op → Type v) where
  op : Op
  answer : R op

namespace Program

variable {Op : Type u} {R : Op → Type v}

def bind (p : Program Op R α) (f : α → Program Op R β) : Program Op R β :=
  match p with
  | .done a => f a
  | .ask o next => .ask o fun r => (next r).bind f

instance : Monad (Program Op R) where
  pure := .done
  bind := bind

/-- One operation is asked for and answered. -/
def steps (Op : Type u) (R : Op → Type v) (α : Type w) : LTS (Program Op R α) (Event R) where
  init _ := True
  step p e q := ∃ next, p = .ask e.op next ∧ q = next e.answer

theorem step_ask {o : Op} {next : R o → Program Op R α} :
    (steps Op R α).step (.ask o next) e q ↔ ∃ r, e = ⟨o, r⟩ ∧ q = next r := by
  constructor
  · rintro ⟨next', hp, rfl⟩
    obtain ⟨rfl, hnext⟩ := Program.ask.inj hp
    obtain rfl := eq_of_heq hnext
    exact ⟨e.answer, rfl, rfl⟩
  · rintro ⟨r, rfl, rfl⟩
    exact ⟨next, rfl, rfl⟩

theorem run_bind {p : Program Op R α} {f : α → Program Op R β} (hp : (steps Op R α).Run p es (.done a))
    (hf : (steps Op R β).Run (f a) es' q) : (steps Op R β).Run (p >>= f) (es ++ es') q := by
  induction p generalizing es with
  | done b =>
    cases es with
    | nil =>
      cases hp.nil_inv
      exact hf
    | cons e es =>
      obtain ⟨_, ⟨_, hstep, -⟩, -⟩ := hp.cons_inv
      cases hstep
  | ask o next ih =>
    cases es with
    | nil => cases hp.nil_inv
    | cons e es =>
      obtain ⟨_, hstep, hrest⟩ := hp.cons_inv
      obtain ⟨r, rfl, rfl⟩ := step_ask.mp hstep
      exact .cons ⟨_, rfl, rfl⟩ (ih r hrest)

-- ---------------------------------------------------------------------------
-- A program logic
-- ---------------------------------------------------------------------------

section
variable {σ : Type x} {E : LTS σ (Event R)} {P : σ → Prop}

/-- Whatever the environment answers, `P` holds all along, and `Q` at the end. -/
def Ensures (E : LTS σ (Event R)) (P : σ → Prop) (Q : σ → α → Prop) : Program Op R α → σ → Prop
  | .done a, s => P s ∧ Q s a
  | .ask o next, s => P s ∧ ∀ r t, E.step s ⟨o, r⟩ t → (next r).Ensures E P Q t

namespace Ensures

variable {Q : σ → α → Prop} {p q : Program Op R α}

theorem holds (h : Ensures E P Q p s) : P s := by
  cases p <;> exact h.1

theorem step (h : Ensures E P Q p s) (hp : (steps Op R α).step p e q) (hE : E.step s e t) :
    Ensures E P Q q t := by
  obtain ⟨next, rfl, rfl⟩ := hp
  exact h.2 e.answer t hE

theorem run (h : Ensures E P Q p s) (hp : (steps Op R α).Run p es q) (hE : E.Run s es t) :
    Ensures E P Q q t := by
  induction hp generalizing t with
  | nil => exact hE.nil_inv ▸ h
  | snoc _ hstep ih =>
    obtain ⟨m, hm, hE⟩ := hE.snoc_inv
    exact (ih hm).step hstep hE

theorem ask {o : Op} {next : R o → Program Op R α} (h : P s)
    (hnext : ∀ r t, E.step s ⟨o, r⟩ t → Ensures E P Q (next r) t) : Ensures E P Q (.ask o next) s := ⟨h, hnext⟩

theorem mono {Q' : σ → α → Prop} (h : Ensures E P Q p s) (hQ : ∀ t a, P t → Q t a → Q' t a) :
    Ensures E P Q' p s := by
  induction p generalizing s with
  | done a => exact ⟨h.1, hQ s a h.1 h.2⟩
  | ask o next ih => exact ⟨h.1, fun r t hE => ih r (h.2 r t hE)⟩

theorem weaken {P' : σ → Prop} (h : Ensures E P Q p s) (hP : ∀ t, P t → P' t) : Ensures E P' Q p s := by
  induction p generalizing s with
  | done a => exact ⟨hP s h.1, h.2⟩
  | ask o next ih => exact ⟨hP s h.1, fun r t hE => ih r (h.2 r t hE)⟩

theorem bind {f : α → Program Op R β} {Q' : σ → β → Prop} (h : Ensures E P Q p s)
    (hf : ∀ t a, P t → Q t a → Ensures E P Q' (f a) t) : Ensures E P Q' (p >>= f) s := by
  induction p generalizing s with
  | done a => exact hf s a h.1 h.2
  | ask o next ih => exact ⟨h.1, fun r t hE => ih r (h.2 r t hE)⟩

end Ensures

theorem Ensures.bindExcept {ε : Type z} {x : ExceptT ε (Program Op R) α} {f : α → ExceptT ε (Program Op R) β}
    {Q : σ → Except ε α → Prop} {Q' : σ → Except ε β → Prop} (h : Ensures E P Q x.run s)
    (hok : ∀ t a, P t → Q t (.ok a) → Ensures E P Q' (f a).run t)
    (herror : ∀ t e, P t → Q t (.error e) → Q' t (.error e)) : Ensures E P Q' (x >>= f).run s := by
  refine Ensures.bind h fun t r hP hQ => ?_
  cases r with
  | ok a => exact hok t a hP hQ
  | error e => exact ⟨hP, herror t e hP hQ⟩

theorem Ensures.tryCatch {ε : Type z} {x : ExceptT ε (Program Op R) α} {handle : ε → ExceptT ε (Program Op R) α}
    {Q Q' : σ → Except ε α → Prop} (h : Ensures E P Q x.run s)
    (hok : ∀ t a, P t → Q t (.ok a) → Q' t (.ok a))
    (herror : ∀ t e, P t → Q t (.error e) → Ensures E P Q' (handle e).run t) :
    Ensures E P Q' (tryCatch x handle).run s := by
  refine Ensures.bind h fun t r hP hQ => ?_
  cases r with
  | ok a => exact ⟨hP, hok t a hP hQ⟩
  | error e => exact herror t e hP hQ

end

-- ---------------------------------------------------------------------------
-- How long a program runs
-- ---------------------------------------------------------------------------

/-- The program asks for at most `n` operations. -/
def Within : Nat → Program Op R α → Prop
  | _, .done _ => True
  | 0, .ask _ _ => False
  | n + 1, .ask _ next => ∀ r, (next r).Within n

theorem Within.done (n : Nat) (a : α) : (Program.done a : Program Op R α).Within n := by cases n <;> trivial

theorem Within.mono {p : Program Op R α} (h : p.Within m) (hle : m ≤ n) : p.Within n := by
  induction p generalizing m n with
  | done a => exact .done n a
  | ask o next ih =>
    cases m with
    | zero => exact h.elim
    | succ m =>
      cases n with
      | zero => omega
      | succ n => exact fun r => ih r (h r) (by omega)

theorem Within.bind {p : Program Op R α} {f : α → Program Op R β} (h : p.Within m)
    (hf : ∀ a, (f a).Within n) : (p >>= f).Within (m + n) := by
  induction p generalizing m with
  | done a => exact (hf a).mono (Nat.le_add_left n m)
  | ask o next ih =>
    cases m with
    | zero => exact h.elim
    | succ m =>
      rw [Nat.succ_add]
      exact fun r => ih r (h r)

theorem Within.bindExcept {ε : Type z} {x : ExceptT ε (Program Op R) α} {f : α → ExceptT ε (Program Op R) β}
    (h : x.run.Within m) (hf : ∀ a, (f a).run.Within n) : (x >>= f).run.Within (m + n) := by
  refine Within.bind h fun r => ?_
  cases r with
  | ok a => exact hf a
  | error e => exact .done n _

theorem Within.tryCatch {ε : Type z} {x : ExceptT ε (Program Op R) α} {handle : ε → ExceptT ε (Program Op R) α}
    (h : x.run.Within m) (hh : ∀ e, (handle e).run.Within n) : (tryCatch x handle).run.Within (m + n) := by
  refine Within.bind h fun r => ?_
  cases r with
  | ok a => exact .done n _
  | error e => exact hh e

theorem Within.run {p q : Program Op R α} (h : p.Within n) (hp : (steps Op R α).Run p es q) :
    es.length ≤ n ∧ q.Within (n - es.length) := by
  induction hp with
  | nil => exact ⟨Nat.zero_le n, h⟩
  | snoc _ hstep ih =>
    obtain ⟨hle, hq⟩ := ih
    obtain ⟨next, rfl, rfl⟩ := hstep
    rw [List.length_append, List.length_singleton]
    generalize hk : n - List.length _ = k at hq
    cases k with
    | zero => exact hq.elim
    | succ k => exact ⟨by omega, (hq _).mono (by omega)⟩

-- ---------------------------------------------------------------------------
-- What a program can ask for at all
-- ---------------------------------------------------------------------------

/-- Whatever the answers, each operation satisfies `P` and the result `Q`. -/
def Only (P : Op → Prop) (Q : α → Prop) : Program Op R α → Prop
  | .done a => Q a
  | .ask o next => P o ∧ ∀ r, (next r).Only P Q

theorem Only.bind {P : Op → Prop} {Q : α → Prop} {Q' : β → Prop} {p : Program Op R α} {f : α → Program Op R β}
    (h : p.Only P Q) (hf : ∀ a, Q a → (f a).Only P Q') : (p >>= f).Only P Q' := by
  induction p with
  | done a => exact hf a h
  | ask o next ih => exact ⟨h.1, fun r => ih r (h.2 r)⟩

-- ---------------------------------------------------------------------------
-- One program, with answers that are a function of a state
-- ---------------------------------------------------------------------------

section
variable {σ : Type x} {τ : Type y}

def interp (serve : (o : Op) → σ → R o × σ) : Program Op R α → σ → α × σ
  | .done a, s => (a, s)
  | .ask o next, s => (next (serve o s).1).interp serve (serve o s).2

theorem interp_bind (serve : (o : Op) → σ → R o × σ) (p : Program Op R α) (f : α → Program Op R β) (s : σ) :
    (p >>= f).interp serve s = (f (p.interp serve s).1).interp serve (p.interp serve s).2 := by
  induction p generalizing s with
  | done a => rfl
  | ask o next ih => exact ih _ _

theorem interp_run {E : LTS τ (Event R)} {serve : (o : Op) → σ → R o × σ} {f : σ → τ}
    (hE : ∀ o s, E.step (f s) ⟨o, (serve o s).1⟩ (f (serve o s).2)) (p : Program Op R α) (s : σ) :
    ∃ es, (steps Op R α).Run p es (.done (p.interp serve s).1) ∧ E.Run (f s) es (f (p.interp serve s).2) := by
  induction p generalizing s with
  | done a => exact ⟨[], .nil, .nil⟩
  | ask o next ih =>
    obtain ⟨es, hp, hrun⟩ := ih (serve o s).1 (serve o s).2
    exact ⟨⟨o, (serve o s).1⟩ :: es, .cons ⟨next, rfl, rfl⟩ hp, .cons (hE o s) hrun⟩

end

-- ---------------------------------------------------------------------------
-- Programs that take turns
-- ---------------------------------------------------------------------------

section
variable {ι : Type y} [DecidableEq ι] {σ : Type x}

/-- Programs that take turns on one environment. -/
def threads (E : LTS σ (Event R)) (α : Type w) : LTS (σ × (ι → Program Op R α)) (ι × Event R) where
  init s := E.init s.1
  step s a t := E.step s.1 a.2 t.1 ∧ ∃ q, (steps Op R α).step (s.2 a.1) a.2 q ∧ t.2 = Function.update s.2 a.1 q

def eventsOf (i : ι) (as : List (ι × Event R)) : List (Event R) :=
  as.filterMap fun a => if a.1 = i then some a.2 else none

theorem eventsOf_append (i : ι) (as bs : List (ι × Event R)) :
    eventsOf i (as ++ bs) = eventsOf i as ++ eventsOf i bs := List.filterMap_append

theorem mem_eventsOf {i : ι} {as : List (ι × Event R)} : e ∈ eventsOf i as ↔ (i, e) ∈ as := by
  simp only [eventsOf, List.mem_filterMap, Option.ite_none_right_eq_some, Option.some.injEq, Prod.exists]
  constructor
  · rintro ⟨j, e', hmem, rfl, rfl⟩
    exact hmem
  · exact fun h => ⟨i, e, h, rfl, rfl⟩

variable {E : LTS σ (Event R)} {k l : ι → Program Op R α} {as : List (ι × Event R)}

/-- A run is one of the environment, and of each program on its own. -/
theorem threads_run (h : (threads E α).Run (s, k) as (t, l)) :
    E.Run s (as.map (·.2)) t ∧ ∀ i, (steps Op R α).Run (k i) (eventsOf i as) (l i) := by
  refine h.trace_invariant (J := fun as u =>
    E.Run s (as.map (·.2)) u.1 ∧ ∀ i, (steps Op R α).Run (k i) (eventsOf i as) (u.2 i)) ⟨.nil, fun _ => .nil⟩ ?_
  rintro as ⟨u, m⟩ ⟨j, e⟩ ⟨u', m'⟩ ⟨hE, hp⟩ ⟨hstep, q, hq, rfl⟩
  refine ⟨by simpa using hE.snoc hstep, fun i => ?_⟩
  rw [eventsOf_append]
  by_cases hi : j = i
  · subst hi
    simpa [eventsOf] using (hp j).snoc hq
  · have hstill : eventsOf i [(j, e)] = [] := by simp [eventsOf, hi]
    have hother : Function.update m j q i = m i := Function.update_of_ne (Ne.symm hi) q m
    simpa [hstill, hother] using hp i

/-- Runs of the programs that interleave to a run of the environment. -/
theorem run_threads (hE : E.Run s (as.map (·.2)) t)
    (hp : ∀ i, (steps Op R α).Run (k i) (eventsOf i as) (l i)) : (threads E α).Run (s, k) as (t, l) := by
  induction as generalizing s k with
  | nil =>
    obtain rfl := hE.nil_inv
    obtain rfl : k = l := funext fun i => (hp i).nil_inv
    exact .nil
  | cons a as ih =>
    obtain ⟨j, e⟩ := a
    obtain ⟨u, hstep, hrest⟩ := hE.cons_inv
    have hj : eventsOf j ((j, e) :: as) = e :: eventsOf j as := by simp [eventsOf]
    obtain ⟨q, hq, hrun⟩ := (hj ▸ hp j).cons_inv
    refine .cons (t := (u, Function.update k j q)) ⟨hstep, q, hq, rfl⟩ (ih hrest fun i => ?_)
    by_cases hi : j = i
    · subst hi
      simpa using hrun
    · have hi' : eventsOf i ((j, e) :: as) = eventsOf i as := by simp [eventsOf, hi]
      rw [Function.update_of_ne (Ne.symm hi), ← hi']
      exact hp i

theorem threads_progress (hE : ∀ s o, ∃ r t, E.step s ⟨o, r⟩ t) (s : σ) (k : ι → Program Op R α) (i : ι) :
    (∃ a, k i = .done a) ∨ ∃ e t, (threads E α).step (s, k) (i, e) t := by
  cases hk : k i with
  | done a => exact .inl ⟨a, rfl⟩
  | ask o next =>
    obtain ⟨r, t, hstep⟩ := hE s o
    exact .inr ⟨⟨o, r⟩, (t, Function.update k i (next r)), hstep, next r, ⟨next, hk, rfl⟩, rfl⟩

end

end Program

end Transition
