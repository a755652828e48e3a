import LlmWorker.Executor.Pool
import Mathlib.Algebra.Order.Group.Multiset

/-!
# Every row is yielded exactly once

`due` is what the main loop is still going to yield if no thread gets any
further; a step of the main loop takes out of it exactly what it yields, and a
thread only changes the result of its own row. With what was yielded it makes
up `outcomes`, one entry for each input row.
-/

namespace LlmWorker

open Python

-- ---------------------------------------------------------------------------
-- Results carry their row's key
-- ---------------------------------------------------------------------------

namespace BatchExecutor

/-- A result the thread has settled on carries the key of its row. -/
def Keyed (row : LLMInput) : FutureState → Prop
  | .running (.aborting result) | .running (.returning result) | .finished result =>
    result.key = row.key
  | _ => True

variable {x : BatchExecutor}

theorem key_conclude (row : LLMInput) (outcome : Result LLMResponse) :
    (x.conclude row outcome).1.key = row.key := by
  unfold conclude
  split <;> rfl

theorem keyed_enter (row : LLMInput) : Keyed row (.running (x.enter row)) := by
  unfold enter
  cases x.parseRow row with
  | ok request => trivial
  | error e => cases h : rowError e <;> simp [Keyed, h]

theorem keyed_react (row : LLMInput) (request : ContractRequest) (left : Nat)
    (outcome : Result LLMResponse) : Keyed row (.running (x.react row request left outcome)) := by
  have hkey : (x.conclude row outcome).1.key = row.key := key_conclude row outcome
  unfold react
  split
  · trivial
  · cases hc : x.conclude row outcome with
    | mk result aborts =>
      rw [hc] at hkey
      cases aborts <;> simpa [Keyed] using hkey

theorem keyed_step (h : x.threadStep row st a = some st') (hk : Keyed row st) : Keyed row st' := by
  cases st with
  | pending =>
    cases a <;> simp [threadStep] at h
    subst h
    trivial
  | running phase =>
    cases phase <;> cases a <;> simp [threadStep, phaseStep] at h
    case entered.check isSet =>
      subst h
      cases isSet with
      | false => simpa using keyed_enter row
      | true => simp [Keyed]
    case attempting.call => subst h; trivial
    case calling.answer => subst h; exact keyed_react _ _ _ _
    case aborting.set => subst h; exact hk
    case returning.ret => obtain ⟨-, rfl⟩ := h; exact hk
    case raising.raise => obtain ⟨-, rfl⟩ := h; trivial
  | _ => simp [threadStep] at h

end BatchExecutor

namespace FutureState

def Settled : FutureState → Prop
  | .finished _ | .cancelled => True
  | _ => False

theorem not_settled_of_step {x : BatchExecutor} (h : x.threadStep row st a = some st') :
    ¬st.Settled := by
  cases st <;> simp [BatchExecutor.threadStep, Settled] at h ⊢

theorem not_done_of_step {x : BatchExecutor} (h : x.threadStep row st a = some st') :
    st.isDone = false := by
  cases st <;> simp [BatchExecutor.threadStep, isDone] at h ⊢

end FutureState

/-- The result that a future gives its row if its thread gets no further. -/
def Future.value (f : Future) : LLMResult :=
  match f.state with
  | .finished result => result
  | _ => abortedResult f.row

def Future.promise (f : Future) : LLMInput × LLMResult := (f.row, f.value)

def absent (row : LLMInput) : LLMInput × LLMResult := (row, abortedResult row)

-- ---------------------------------------------------------------------------
-- What the main loop owes
-- ---------------------------------------------------------------------------

namespace Pool

def Broken (p : Pool) : Prop :=
  match p.pc with
  | .unwinding _ | .raised _ => True
  | _ => False

def Submitting (p : Pool) : Prop :=
  match p.pc with
  | .filling | .head | .draining _ | .checking => True
  | _ => False

/-- The futures whose results are still to be taken. -/
def owing (p : Pool) : List (Nat × LLMInput) :=
  match p.pc with
  | .filling | .head | .draining _ | .checking | .cancelling _ => p.inFlight
  | .collecting rest => rest
  | _ => []

/-- The rows without a future, or with a cancelled one, that are still to be yielded. -/
def held (p : Pool) : List LLMInput :=
  match p.pc with
  | .emitting rest => rest
  | .exhausted | .unwinding _ | .raised _ => []
  | _ => p.pendingInputs ++ p.abortedRows

def promise (p : Pool) (e : Nat × LLMInput) : LLMInput × LLMResult :=
  match p.futures[e.1]? with
  | some f => (e.2, f.value)
  | none => absent e.2

def due (p : Pool) : Multiset (LLMInput × LLMResult) :=
  ↑(p.owing.map p.promise ++ p.held.map absent)

def owed (p : Pool) : Multiset LLMInput := ↑(p.owing.map (·.2) ++ p.held)

/-- What each input row has got, or gets if no thread gets any further. -/
def outcomes (inputs : List LLMInput) (p : Pool) : List (LLMInput × LLMResult) :=
  p.futures.map Future.promise ++ (inputs.drop p.futures.length).map absent

theorem due_rows (p : Pool) : p.due.map (·.1) = p.owed := by
  have hpromise : (fun e => (p.promise e).1) = (·.2) := by
    funext e
    unfold promise
    split <;> rfl
  have habsent : (fun row => (absent row).1) = id := rfl
  simp [due, owed, Function.comp_def, hpromise, habsent]

/-- The invariant of the iteration. -/
structure Wf (x : BatchExecutor) (inputs : List LLMInput) (p : Pool) : Prop where
  rows : p.futures.map (·.row) = inputs.take p.futures.length
  keyed : ∀ f ∈ p.futures, BatchExecutor.Keyed f.row f.state
  bound : p.inFlight.length ≤ x.maxWorkers
  pending : p.Submitting → p.pendingInputs = inputs.drop p.futures.length ∧ p.abortedRows = []
  spent : ¬p.Submitting → ¬p.Broken → p.pendingInputs = []
  full : p.pc = .head → p.pendingInputs = [] ∨ x.maxWorkers ≤ p.inFlight.length
  nodup : (p.owing.map (·.1)).Nodup
  entry : ∀ e ∈ p.owing, ∃ f, p.futures[e.1]? = some f ∧ f.row = e.2
  unsettled : ¬p.Broken → ∀ i f, p.futures[i]? = some f → ¬f.state.Settled →
    i ∈ p.owing.map (·.1)
  awake : ∀ done, p.pc = .draining done → done.Nodup ∧ ∀ i ∈ done, i ∈ p.inFlight.map (·.1)

theorem wf_start (x : BatchExecutor) (inputs : List LLMInput) : Wf x inputs (start inputs) := by
  constructor <;> simp [start, Submitting, Broken, owing]

theorem wf_exhausted (x : BatchExecutor) : Wf x [] { start [] with pc := .exhausted } := by
  constructor <;> simp [start, Submitting, owing, Broken]

theorem Wf.settled {f : Future} {i : Nat} (hw : Wf x inputs p) (hpc : p.pc = .exhausted)
    (hf : p.futures[i]? = some f) : f.state.Settled := by
  refine Classical.byContradiction fun hns => ?_
  have hmem := hw.unsettled (by simp [Broken, hpc]) i f hf hns
  simp [owing, hpc] at hmem

theorem mem_del {d : List (Nat × α)} : e ∈ del i d ↔ e ∈ d ∧ e.1 ≠ i := by
  simp [del]

theorem perm_del {d : List (Nat × α)} (hn : (d.map (·.1)).Nodup) (h : (i, v) ∈ d) :
    d.Perm ((i, v) :: del i d) := by
  induction d with
  | nil => simp at h
  | cons e rest ih =>
    obtain ⟨hnot, hrest⟩ := List.nodup_cons.mp hn
    rcases List.mem_cons.mp h with rfl | hmem
    · have hkeep : del i rest = rest := by
        refine List.filter_eq_self.mpr fun e he => ?_
        have hne : e.1 ≠ i := fun heq => hnot (List.mem_map.mpr ⟨e, he, heq⟩)
        simpa using hne
      have hdel : del i ((i, v) :: rest) = del i rest := by simp [del]
      rw [hdel, hkeep]
    · have hne : e.1 ≠ i := fun heq => hnot (List.mem_map.mpr ⟨(i, v), hmem, heq.symm⟩)
      have hdel : del i (e :: rest) = e :: del i rest := by simp [del, hne]
      rw [hdel]
      exact ((ih hrest hmem).cons e).trans (.swap _ _ _)

-- ---------------------------------------------------------------------------
-- The invariant is kept
-- ---------------------------------------------------------------------------

variable {x : BatchExecutor} {inputs : List LLMInput}

theorem map_set_of_eq {l : List α} {f f' : α} {g : α → β} (h : l[i]? = some f) (hg : g f' = g f) :
    (l.set i f').map g = l.map g := by
  obtain ⟨hi, rfl⟩ := List.getElem?_eq_some_iff.mp h
  apply List.ext_getElem?
  intro j
  by_cases hj : i = j
  · subst hj
    simp [hi, hg]
  · simp [hj]

theorem wf_thread (hw : Wf x inputs p) (h : threadStep x p i a = some p') : Wf x inputs p' := by
  obtain ⟨f, st, hf, -, hst, rfl⟩ := threadStep_inv h
  have hlen := (List.getElem?_eq_some_iff.mp hf).1
  refine ⟨?_, ?_, hw.bound, ?_, hw.spent, hw.full, hw.nodup, ?_, ?_, hw.awake⟩
  · have hmap : (p.futures.set i { f with state := st }).map (·.row) = p.futures.map (·.row) :=
      map_set_of_eq hf rfl
    simpa [hmap] using hw.rows
  · intro g hg
    rcases List.mem_or_eq_of_mem_set hg with hmem | rfl
    · exact hw.keyed g hmem
    · exact BatchExecutor.keyed_step hst (hw.keyed f (List.mem_of_getElem? hf))
  · intro hs
    simpa using hw.pending hs
  · intro e he
    obtain ⟨g, hg, hrow⟩ := hw.entry e he
    by_cases hi : i = e.1
    · subst hi
      obtain rfl : f = g := by simpa [hf] using hg
      exact ⟨{ f with state := st }, by simp [hlen], hrow⟩
    · exact ⟨g, by simp [hi, hg], hrow⟩
  · intro hb j g hg hns
    by_cases hi : i = j
    · subst hi
      exact hw.unsettled hb i f hf (FutureState.not_settled_of_step hst)
    · exact hw.unsettled hb j g (by simpa [hi] using hg) hns

theorem owing_submit {p : Pool} (hpc : p.pc = .filling) :
    (p.submit row rest).owing = p.inFlight ++ [(p.futures.length, row)] := by
  simp [owing, submit, hpc]

theorem wf_submit (hw : Wf x inputs p) (hpc : p.pc = .filling) (hrow : p.pendingInputs = row :: rest)
    (hroom : p.inFlight.length < x.maxWorkers) : Wf x inputs (p.submit row rest) := by
  have howing : p.owing = p.inFlight := by simp [owing, hpc]
  have howing' : (p.submit row rest).owing = _ := owing_submit hpc
  obtain ⟨hpending, haborted⟩ := hw.pending (by simp [Submitting, hpc])
  have hdrop : inputs.drop p.futures.length = row :: rest := by rw [← hpending, hrow]
  have hget : inputs[p.futures.length]? = some row := by
    rw [← List.head?_drop, hdrop]
    rfl
  have hlt : ∀ e ∈ p.inFlight, e.1 < p.futures.length := by
    intro e he
    obtain ⟨f, hf, -⟩ := hw.entry e (howing ▸ he)
    exact (List.getElem?_eq_some_iff.mp hf).1
  refine ⟨?_, ?_, ?_, ?_, ?_, ?_, ?_, ?_, ?_, ?_⟩
  · simp [submit, hw.rows, List.take_add_one, hget]
  · intro f hf
    rcases List.mem_append.mp hf with hmem | hnew
    · exact hw.keyed f hmem
    · obtain rfl : f = _ := by simpa using hnew
      trivial
  · simp only [submit, List.length_append, List.length_singleton]
    omega
  · intro _
    refine ⟨?_, haborted⟩
    have htail := congrArg List.tail hdrop
    simpa [submit, List.tail_drop] using htail.symm
  · intro hs
    simp [submit, Submitting, hpc] at hs
  · simp [submit, hpc]
  · rw [howing', List.map_append, List.nodup_append]
    refine ⟨howing ▸ hw.nodup, by simp, ?_⟩
    intro i hi j hj
    obtain ⟨e, he, rfl⟩ := List.mem_map.mp hi
    obtain rfl : j = p.futures.length := by simpa using hj
    exact (hlt e he).ne
  · intro e he
    rw [howing'] at he
    rcases List.mem_append.mp he with hmem | hnew
    · obtain ⟨f, hf, hfrow⟩ := hw.entry e (howing ▸ hmem)
      exact ⟨f, by simp [submit, List.getElem?_append_left (hlt e hmem), hf], hfrow⟩
    · obtain rfl : e = _ := by simpa using hnew
      exact ⟨⟨row, .pending⟩, by simp [submit], rfl⟩
  · intro _ i f hf hns
    rw [howing']
    by_cases hi : i < p.futures.length
    · have hold : p.futures[i]? = some f := by simpa [submit, List.getElem?_append_left hi] using hf
      have hmem := hw.unsettled (by simp [Broken, hpc]) i f hold hns
      rw [howing] at hmem
      simp [hmem]
    · have hlen := (List.getElem?_eq_some_iff.mp hf).1
      obtain rfl : i = p.futures.length := by
        simp [submit] at hlen
        omega
      simp
  · simp [submit, hpc]

theorem wf_goto (hw : Wf x inputs p) (howing : ({ p with pc := pc' } : Pool).owing = p.owing)
    (hsub : ({ p with pc := pc' } : Pool).Submitting ↔ p.Submitting)
    (hbroken : ({ p with pc := pc' } : Pool).Broken ↔ p.Broken)
    (hfull : pc' = .head → p.pendingInputs = [] ∨ x.maxWorkers ≤ p.inFlight.length)
    (hawake : ∀ done, pc' = .draining done →
      done.Nodup ∧ ∀ i ∈ done, i ∈ p.inFlight.map (·.1)) :
    Wf x inputs { p with pc := pc' } :=
  ⟨hw.rows, hw.keyed, hw.bound, fun h => hw.pending (hsub.mp h),
    fun h hb => hw.spent (fun hs => h (hsub.mpr hs)) (fun hp => hb (hbroken.mpr hp)), hfull,
    howing ▸ hw.nodup, fun e he => hw.entry e (howing ▸ he),
    fun hb => howing ▸ hw.unsettled fun hp => hb (hbroken.mpr hp), hawake⟩

theorem stateOf_eq_some {p : Pool} : p.stateOf i = some st ↔ ∃ f, p.futures[i]? = some f ∧ f.state = st := by
  simp [stateOf, Option.map_eq_some_iff]

theorem wf_del (hw : Wf x inputs p) (hpc : p.pc = .draining (i :: done))
    (hst : p.stateOf i = some st) (hsettled : st.Settled) :
    Wf x inputs { p with pc := .draining done, inFlight := del i p.inFlight } := by
  have howing : p.owing = p.inFlight := by simp [owing, hpc]
  have hsubmap : (del i p.inFlight).map (·.1) = (p.inFlight.map (·.1)).filter fun j => j ≠ i := by
    simp [del, List.filter_map, Function.comp_def]
  obtain ⟨f, hf, hfst⟩ := stateOf_eq_some.mp hst
  refine ⟨hw.rows, hw.keyed, ?_, fun _ => hw.pending (by simp [Submitting, hpc]), ?_, by simp, ?_,
    ?_, ?_, ?_⟩
  · exact (List.length_filter_le _ _).trans hw.bound
  · intro hs
    simp [Submitting] at hs
  · have hn := hw.nodup
    rw [howing] at hn
    simpa [owing, hsubmap] using hn.filter _
  · intro e he
    exact hw.entry e (howing ▸ (mem_del.mp he).1)
  · intro _ j g hg hns
    have hmem := hw.unsettled (by simp [Broken, hpc]) j g hg hns
    rw [howing] at hmem
    have hne : j ≠ i := by
      rintro rfl
      obtain rfl : f = g := by simpa [hf] using hg
      exact hns (hfst ▸ hsettled)
    show j ∈ (del i p.inFlight).map (·.1)
    rw [hsubmap]
    exact List.mem_filter.mpr ⟨hmem, by simpa using hne⟩
  · intro d hd
    obtain rfl : done = d := by simpa using hd
    obtain ⟨hn, hin⟩ := hw.awake _ hpc
    obtain ⟨hnot, hn'⟩ := List.nodup_cons.mp hn
    refine ⟨hn', fun j hj => ?_⟩
    rw [hsubmap]
    refine List.mem_filter.mpr ⟨hin j (List.mem_cons_of_mem _ hj), ?_⟩
    have hne : j ≠ i := fun heq => hnot (heq ▸ hj)
    simpa using hne

theorem wf_collect (hw : Wf x inputs p) (hpc : p.pc = .collecting ((i, row) :: rest))
    (hst : p.stateOf i = some st) (hsettled : st.Settled) (abortedRows : List LLMInput) :
    Wf x inputs { p with pc := .collecting rest, abortedRows := abortedRows } := by
  have howing : p.owing = (i, row) :: rest := by simp [owing, hpc]
  have hn := hw.nodup
  rw [howing, List.map_cons, List.nodup_cons] at hn
  obtain ⟨f, hf, hfst⟩ := stateOf_eq_some.mp hst
  refine ⟨hw.rows, hw.keyed, hw.bound, ?_, ?_, by simp, hn.2, ?_, ?_, by simp⟩
  · intro hs
    simp [Submitting] at hs
  · intro _ _
    exact hw.spent (by simp [Submitting, hpc]) (by simp [Broken, hpc])
  · intro e he
    exact hw.entry e (howing ▸ List.mem_cons_of_mem _ he)
  · intro _ j g hg hns
    have hmem := hw.unsettled (by simp [Broken, hpc]) j g hg hns
    rw [howing] at hmem
    rcases List.mem_cons.mp hmem with heq | hrest
    · obtain rfl : j = i := heq
      obtain rfl : f = g := by simpa [hf] using hg
      exact absurd (hfst ▸ hsettled) hns
    · exact hrest

theorem wf_abort (hw : Wf x inputs p) (hpc : p.pc = .checking) :
    Wf x inputs { p with
      pc := .cancelling p.inFlight
      pendingInputs := []
      abortedRows := p.abortedRows ++ p.pendingInputs } := by
  have howing : p.owing = p.inFlight := by simp [owing, hpc]
  refine ⟨hw.rows, hw.keyed, hw.bound, ?_, fun _ _ => rfl, by simp, howing ▸ hw.nodup, ?_, ?_, by simp⟩
  · intro hs
    simp [Submitting] at hs
  · intro e he
    exact hw.entry e (howing ▸ he)
  · intro _ i f hf hns
    exact howing ▸ hw.unsettled (by simp [Broken, hpc]) i f hf hns

theorem getElem?_cancel {p : Pool} {i j : Nat} : (p.cancel i).futures[j]? =
    p.futures[j]?.map fun f => if i = j then { f with state := f.state.cancel } else f := by
  by_cases hij : i = j
  · subst hij
    simp [cancel]
  · simp [cancel, hij]

theorem wf_cancel (hw : Wf x inputs p) (hpc : p.pc = .cancelling (e :: rest)) :
    Wf x inputs { p.cancel i with pc := .cancelling rest } := by
  have howing : p.owing = p.inFlight := by simp [owing, hpc]
  have hnodup : (p.inFlight.map (·.1)).Nodup := howing ▸ hw.nodup
  refine ⟨?_, ?_, hw.bound, ?_, ?_, by simp, hnodup, ?_, ?_, by simp⟩
  · have hmap : (p.cancel i).futures.map (·.row) = p.futures.map (·.row) := by
      apply List.ext_getElem?
      intro j
      rw [List.getElem?_map, getElem?_cancel, List.getElem?_map]
      cases p.futures[j]? with
      | none => rfl
      | some f => by_cases hij : i = j <;> simp [hij]
    have hlen : (p.cancel i).futures.length = p.futures.length := by simp [cancel]
    show (p.cancel i).futures.map (·.row) = inputs.take (p.cancel i).futures.length
    rw [hmap, hlen]
    exact hw.rows
  · intro f hf
    obtain ⟨j, hj⟩ := List.mem_iff_getElem?.mp hf
    have hj : (p.cancel i).futures[j]? = some f := hj
    rw [getElem?_cancel] at hj
    obtain ⟨g, hg, rfl⟩ := Option.map_eq_some_iff.mp hj
    have hkeyed := hw.keyed g (List.mem_of_getElem? hg)
    split
    · cases hs : g.state <;> simp_all [FutureState.cancel, BatchExecutor.Keyed]
    · exact hkeyed
  · intro hs
    simp [Submitting] at hs
  · intro _ _
    exact hw.spent (by simp [Submitting, hpc]) (by simp [Broken, hpc])
  · intro e he
    obtain ⟨f, hf, hrow⟩ := hw.entry e (howing ▸ he)
    show ∃ f, (p.cancel i).futures[e.1]? = some f ∧ f.row = e.2
    rw [getElem?_cancel, hf]
    refine ⟨_, rfl, ?_⟩
    split <;> exact hrow
  · intro _ j f hf hns
    have hf : (p.cancel i).futures[j]? = some f := hf
    rw [getElem?_cancel] at hf
    obtain ⟨g, hg, rfl⟩ := Option.map_eq_some_iff.mp hf
    have hgns : ¬g.state.Settled := by
      intro hsettled
      apply hns
      split
      · cases hs : g.state <;> simp_all [FutureState.cancel, FutureState.Settled]
      · exact hsettled
    have hmem := hw.unsettled (by simp [Broken, hpc]) j g hg hgns
    rw [howing] at hmem
    exact hmem

theorem wf_main (hw : Wf x inputs p) (h : MainStep x p p' out) : Wf x inputs p' := by
  cases h with
  | submit hpc hrow hroom => exact wf_submit hw hpc hrow hroom
  | filled hpc hfull =>
    exact wf_goto hw (by simp [owing, hpc]) (by simp [Submitting, hpc]) (by simp [Broken, hpc])
      (fun _ => hfull) (by simp)
  | woken hpc hdone =>
    refine wf_goto hw (by simp [owing, hpc]) (by simp [Submitting, hpc]) (by simp [Broken, hpc])
      (by simp) ?_
    rintro _ ⟨⟩
    exact ⟨hdone.2.1, fun i hi => (hdone.2.2 i hi).1⟩
  | idle hpc hnone =>
    have hempty : p.pendingInputs = [] := by
      have hpos := x.maxWorkers_pos
      rcases hw.full hpc with h | h
      · exact h
      · simp [hnone] at h
        omega
    refine ⟨hw.rows, hw.keyed, hw.bound, ?_, fun _ _ => hempty, by simp, ?_, ?_, ?_, by simp⟩
    · intro hs
      simp [Submitting] at hs
    · simp [owing, hnone]
    · simp [owing, hnone]
    · intro _ i f hf hns
      have hmem := hw.unsettled (by simp [Broken, hpc]) i f hf hns
      simp [owing, hpc, hnone] at hmem
  | drain hpc hst => exact wf_del hw hpc hst trivial
  | drained hpc =>
    exact wf_goto hw (by simp [owing, hpc]) (by simp [Submitting, hpc]) (by simp [Broken, hpc])
      (by simp) (by simp)
  | abort hpc _ => exact wf_abort hw hpc
  | refill hpc _ =>
    exact wf_goto hw (by simp [owing, hpc]) (by simp [Submitting, hpc]) (by simp [Broken, hpc])
      (by simp) (by simp)
  | cancel hpc => exact wf_cancel hw hpc
  | cancelled hpc =>
    exact wf_goto hw (by simp [owing, hpc]) (by simp [Submitting, hpc]) (by simp [Broken, hpc])
      (by simp) (by simp)
  | keep hpc hst => exact wf_collect hw hpc hst trivial _
  | collect hpc hst => exact wf_collect hw hpc hst trivial _
  | collected hpc =>
    exact wf_goto hw (by simp [owing, hpc]) (by simp [Submitting, hpc]) (by simp [Broken, hpc])
      (by simp) (by simp)
  | closed hpc _ =>
    exact wf_goto hw (by simp [owing, hpc]) (by simp [Submitting, hpc]) (by simp [Broken, hpc])
      (by simp) (by simp)
  | emit hpc =>
    exact wf_goto hw (by simp [owing, hpc]) (by simp [Submitting, hpc]) (by simp [Broken, hpc])
      (by simp) (by simp)
  | emitted hpc =>
    exact wf_goto hw (by simp [owing, hpc]) (by simp [Submitting, hpc]) (by simp [Broken, hpc])
      (by simp) (by simp)
  | drainRaised hpc _ =>
    exact ⟨hw.rows, hw.keyed, (List.length_filter_le _ _).trans hw.bound, by simp [Submitting],
      by simp [Broken], by simp, by simp [owing], by simp [owing], by simp [Broken], by simp⟩
  | collectRaised hpc _ =>
    exact ⟨hw.rows, hw.keyed, hw.bound, by simp [Submitting],
      by simp [Broken], by simp, by simp [owing], by simp [owing], by simp [Broken], by simp⟩
  | unwound hpc _ =>
    exact ⟨hw.rows, hw.keyed, hw.bound, by simp [Submitting],
      by simp [Broken], by simp, by simp [owing], by simp [owing], by simp [Broken], by simp⟩

theorem wf_step (hw : Wf x inputs p) (h : step x p a = some (p', out)) : Wf x inputs p' := by
  cases a with
  | thread i a =>
    obtain ⟨q, hq, hpair⟩ := Option.map_eq_some_iff.mp h
    cases hpair
    exact wf_thread hw hq
  | main a => exact wf_main hw (mainStep_inv h)

-- ---------------------------------------------------------------------------
-- What a step takes out of `due`
-- ---------------------------------------------------------------------------

theorem promise_of_getElem? {p : Pool} (h : p.futures[i]? = some f) :
    p.promise (i, row) = (row, f.value) := by
  simp [promise, h]

theorem due_goto {p : Pool} {pc' : PoolPc} (howing : ({ p with pc := pc' } : Pool).owing = p.owing)
    (hheld : ({ p with pc := pc' } : Pool).held = p.held) : p.due = ({ p with pc := pc' } : Pool).due := by
  unfold due
  rw [howing, hheld]
  rfl

theorem due_take {p p' : Pool} (hperm : p.owing.Perm ((i, row) :: p'.owing)) (hheld : p'.held = p.held)
    (hfut : p'.futures = p.futures) (hf : p.futures[i]? = some f) (hvalue : f.value = result) :
    p.due = (↑[(row, result)] : Multiset _) + p'.due := by
  have hpromise : p'.promise = p.promise := by
    funext e
    simp [promise, hfut]
  unfold due
  rw [Multiset.coe_add, Multiset.coe_eq_coe, hheld, hpromise]
  have hmap := (hperm.map p.promise).append_right (p.held.map absent)
  rw [List.map_cons, promise_of_getElem? hf, hvalue] at hmap
  exact hmap

theorem due_submit (hw : Wf x inputs p) (hpc : p.pc = .filling) (hrow : p.pendingInputs = row :: rest) :
    p.due = (p.submit row rest).due ∧
      (p.submit row rest).outcomes inputs = p.outcomes inputs := by
  have howing : p.owing = p.inFlight := by simp [owing, hpc]
  have howing' : (p.submit row rest).owing = _ := owing_submit hpc
  have hheld : p.held = row :: (rest ++ p.abortedRows) := by simp [held, hpc, hrow]
  have hheld' : (p.submit row rest).held = rest ++ p.abortedRows := by simp [held, submit, hpc]
  have hold : p.inFlight.map (p.submit row rest).promise = p.inFlight.map p.promise := by
    refine List.map_congr_left fun e he => ?_
    obtain ⟨f, hf, -⟩ := hw.entry e (howing ▸ he)
    have hlt := (List.getElem?_eq_some_iff.mp hf).1
    have hget : (p.submit row rest).futures[e.1]? = some f := by
      simp [submit, List.getElem?_append_left hlt, hf]
    simp [promise, hf, hget]
  have hnew : (p.submit row rest).promise (p.futures.length, row) = absent row := by
    simp [promise, submit, Future.value, absent]
  constructor
  · unfold due
    rw [howing, howing', hheld, hheld', List.map_append, hold, List.map_singleton, hnew,
      List.append_assoc]
    rfl
  · obtain ⟨hpending, -⟩ := hw.pending (by simp [Submitting, hpc])
    have hdrop : inputs.drop p.futures.length = row :: rest := by rw [← hpending, hrow]
    have hdrop' : inputs.drop (p.futures.length + 1) = rest := by
      have htail := congrArg List.tail hdrop
      simpa [List.tail_drop] using htail
    simp [outcomes, submit, hdrop, hdrop', Future.promise, Future.value, absent]

theorem value_cancel (f : Future) : ({ f with state := f.state.cancel } : Future).value = f.value := by
  cases hs : f.state <;> simp [Future.value, FutureState.cancel, hs]

theorem due_cancel {p : Pool} (inputs : List LLMInput) (hpc : p.pc = .cancelling (e :: rest)) :
    p.due = ({ p.cancel i with pc := .cancelling rest } : Pool).due ∧
      ({ p.cancel i with pc := .cancelling rest } : Pool).outcomes inputs = p.outcomes inputs := by
  have howing : p.owing = p.inFlight := by simp [owing, hpc]
  have hheld : p.held = p.pendingInputs ++ p.abortedRows := by simp [held, hpc]
  have hpromise : (p.cancel i).promise = p.promise := by
    funext e
    unfold promise
    rw [getElem?_cancel]
    cases p.futures[e.1]? with
    | none => rfl
    | some f => by_cases hij : i = e.1 <;> simp [hij, value_cancel]
  have hmap : (p.cancel i).futures.map Future.promise = p.futures.map Future.promise := by
    apply List.ext_getElem?
    intro j
    rw [List.getElem?_map, getElem?_cancel, List.getElem?_map]
    cases p.futures[j]? with
    | none => rfl
    | some f => by_cases hij : i = j <;> simp [hij, Future.promise, value_cancel]
  have hlen : (p.cancel i).futures.length = p.futures.length := by simp [cancel]
  constructor
  · unfold due
    rw [howing, hheld, ← hpromise]
    rfl
  · show (p.cancel i).futures.map Future.promise ++
      (inputs.drop (p.cancel i).futures.length).map absent = _
    rw [hmap, hlen]
    rfl

theorem due_main (hw : Wf x inputs p) (h : MainStep x p p' out) :
    (p'.Broken ∧ out = none) ∨ ∃ paid : List (LLMInput × LLMResult), paid.map (·.2) = out.toList ∧
      p.due = ↑paid + p'.due ∧ p'.outcomes inputs = p.outcomes inputs := by
  cases h with
  | submit hpc hrow _ =>
    obtain ⟨hdue, hout⟩ := due_submit hw hpc hrow
    exact .inr ⟨[], rfl, by simpa using hdue, hout⟩
  | filled hpc _ | idle hpc _ | woken hpc _ | drained hpc | refill hpc _ | cancelled hpc | collected hpc
  | emitted hpc =>
    refine .inr ⟨[], rfl, ?_, rfl⟩
    rw [Multiset.coe_nil, zero_add]
    exact due_goto (by simp [owing, hpc]) (by simp [held, hpc])
  | @drain i done result hpc hst =>
    obtain ⟨f, hf, hfst⟩ := stateOf_eq_some.mp hst
    obtain ⟨-, hin⟩ := hw.awake _ hpc
    obtain ⟨e, hmem, rfl⟩ := List.mem_map.mp (hin i (by simp))
    have hperm : p.owing.Perm ((e.1, e.2) :: del e.1 p.inFlight) := by
      have hn := hw.nodup
      have howing : p.owing = p.inFlight := by simp [owing, hpc]
      rw [howing] at hn ⊢
      exact perm_del hn hmem
    refine .inr ⟨[(e.2, result)], rfl, ?_, rfl⟩
    exact due_take hperm (by simp [held, hpc]) rfl hf (by simp [Future.value, hfst])
  | drainRaised hpc _ => exact .inl ⟨trivial, rfl⟩
  | abort hpc _ =>
    refine .inr ⟨[], rfl, ?_, rfl⟩
    have howing : p.owing = p.inFlight := by simp [owing, hpc]
    have hheld : p.held = p.pendingInputs ++ p.abortedRows := by simp [held, hpc]
    unfold due
    rw [howing, hheld, Multiset.coe_add, Multiset.coe_eq_coe]
    have hcomm : (p.pendingInputs ++ p.abortedRows).Perm (p.abortedRows ++ p.pendingInputs) :=
      List.perm_append_comm
    exact (hcomm.map absent).append_left (p.inFlight.map p.promise)
  | cancel hpc =>
    obtain ⟨hdue, hout⟩ := due_cancel inputs hpc
    exact .inr ⟨[], rfl, by simpa using hdue, hout⟩
  | @keep i row rest hpc hst =>
    refine .inr ⟨[], rfl, ?_, rfl⟩
    obtain ⟨f, hf, hfst⟩ := stateOf_eq_some.mp hst
    have howing : p.owing = (i, row) :: rest := by simp [owing, hpc]
    have hheld : p.held = p.pendingInputs ++ p.abortedRows := by simp [held, hpc]
    have hrow : f.row = row := by
      obtain ⟨g, hg, hgrow⟩ := hw.entry (i, row) (by simp [howing])
      obtain rfl : f = g := by simpa [hf] using hg
      exact hgrow
    have hpromise : p.promise (i, row) = absent row := by
      simp [promise_of_getElem? hf, Future.value, hfst, hrow, absent]
    unfold due
    rw [howing, hheld, List.map_cons, hpromise, Multiset.coe_add, Multiset.coe_eq_coe]
    show (absent row :: (rest.map p.promise ++ (p.pendingInputs ++ p.abortedRows).map absent)).Perm
      (rest.map p.promise ++ (p.pendingInputs ++ (p.abortedRows ++ [row])).map absent)
    simp only [List.map_append, List.map_singleton, ← List.append_assoc]
    exact (List.perm_append_singleton _ _).symm
  | @collect i row rest result hpc hst =>
    obtain ⟨f, hf, hfst⟩ := stateOf_eq_some.mp hst
    have hperm : p.owing.Perm ((i, row) :: rest) := by simp [owing, hpc]
    refine .inr ⟨[(row, result)], rfl, ?_, rfl⟩
    exact due_take hperm (by simp [held, hpc]) rfl hf (by simp [Future.value, hfst])
  | collectRaised hpc _ => exact .inl ⟨trivial, rfl⟩
  | closed hpc _ =>
    have hempty := hw.spent (by simp [Submitting, hpc]) (by simp [Broken, hpc])
    refine .inr ⟨[], rfl, ?_, rfl⟩
    rw [Multiset.coe_nil, zero_add]
    exact due_goto (by simp [owing, hpc]) (by simp [held, hpc, hempty])
  | @emit row rest hpc =>
    refine .inr ⟨[absent row], rfl, ?_, rfl⟩
    have howing : p.owing = [] := by simp [owing, hpc]
    have hheld : p.held = row :: rest := by simp [held, hpc]
    unfold due
    rw [howing, hheld, Multiset.coe_add]
    rfl
  | unwound hpc _ => exact .inl ⟨trivial, rfl⟩

theorem broken_main (h : MainStep x p p' out) (hb : p.Broken) : p'.Broken := by
  cases h with
  | unwound _ _ => trivial
  | drainRaised _ _ => trivial
  | collectRaised _ _ => trivial
  | submit hpc _ _ | filled hpc _ | woken hpc _ | idle hpc _ | drain hpc _ | drained hpc
  | abort hpc _ | refill hpc _ | cancel hpc | cancelled hpc | keep hpc _ | collect hpc _
  | collected hpc | closed hpc _ | emit hpc | emitted hpc => simp [Broken, hpc] at hb

theorem broken_thread (h : threadStep x p i a = some p') : p'.Broken ↔ p.Broken := by
  obtain ⟨f, st, -, -, -, rfl⟩ := threadStep_inv h
  rfl

theorem broken_step (h : step x p a = some (p', out)) (hb : p.Broken) : p'.Broken := by
  cases a with
  | thread i a =>
    obtain ⟨q, hq, hpair⟩ := Option.map_eq_some_iff.mp h
    cases hpair
    exact (broken_thread hq).mpr hb
  | main a => exact broken_main (mainStep_inv h) hb

theorem due_keyed (hw : Wf x inputs p) : ∀ e ∈ p.due, e.2.key = e.1.key := by
  intro e he
  rcases List.mem_append.mp (Multiset.mem_coe.mp he) with h | h
  · obtain ⟨d, hd, rfl⟩ := List.mem_map.mp h
    obtain ⟨f, hf, hrow⟩ := hw.entry d hd
    have hkeyed := hw.keyed f (List.mem_of_getElem? hf)
    cases hs : f.state <;> simp_all [promise, Future.value, BatchExecutor.Keyed]
  · obtain ⟨row, -, rfl⟩ := List.mem_map.mp h
    rfl

/-- A step of the main loop pays one of the rows owed, or none. -/
theorem owed_main (hw : Wf x inputs p) (h : MainStep x p p' out) :
    (p'.Broken ∧ out = none) ∨ (p.owed = p'.owed ∧ out = none) ∨
      ∃ row result, p.owed = row ::ₘ p'.owed ∧ out = some result ∧ result.key = row.key := by
  rcases due_main hw h with hb | ⟨paid, hpaid, hdue, -⟩
  · exact .inl hb
  · have hrows := congrArg (Multiset.map (·.1)) hdue
    rw [Multiset.map_add, due_rows, due_rows] at hrows
    cases out with
    | none =>
      obtain rfl : paid = [] := by simpa using hpaid
      exact .inr (.inl ⟨by simpa using hrows, rfl⟩)
    | some result =>
      obtain ⟨e, rfl, rfl⟩ : ∃ e, paid = [e] ∧ e.2 = result := by
        simpa [List.map_eq_singleton_iff] using hpaid
      refine .inr (.inr ⟨e.1, e.2, by simpa using hrows, rfl, due_keyed hw e ?_⟩)
      rw [hdue]
      simp

theorem not_broken_of_yield (h : MainStep x p p' (some result)) : ¬p'.Broken := by
  cases h <;> simp [Broken]

theorem owed_thread (h : threadStep x p i a = some p') : p'.owed = p.owed := by
  obtain ⟨f, st, -, -, -, rfl⟩ := threadStep_inv h
  rfl

theorem due_thread (hw : Wf x inputs p) (hb : ¬p.Broken) (h : threadStep x p i a = some p') :
    ∃ old new D O, p.due = old ::ₘ D ∧ p'.due = new ::ₘ D ∧
      (↑(p.outcomes inputs) : Multiset _) = old ::ₘ O ∧
      (↑(p'.outcomes inputs) : Multiset _) = new ::ₘ O := by
  obtain ⟨f, st, hf, -, hst, rfl⟩ := threadStep_inv h
  obtain ⟨hlt, hget⟩ := List.getElem?_eq_some_iff.mp hf
  have hmem := hw.unsettled hb i f hf (FutureState.not_settled_of_step hst)
  obtain ⟨e, he, rfl⟩ := List.mem_map.mp hmem
  obtain ⟨g, hg, hrow⟩ := hw.entry e he
  obtain rfl : f = g := by simpa [hf] using hg
  let f' : Future := { f with state := st }
  let p' : Pool := { p with
    futures := p.futures.set e.1 f'
    abortEvent := p.abortEvent || a = .set }
  have hperm : p.owing.Perm (e :: del e.1 p.owing) := perm_del hw.nodup he
  have hother : (del e.1 p.owing).map p'.promise = (del e.1 p.owing).map p.promise := by
    refine List.map_congr_left fun d hd => ?_
    have hne : ¬e.1 = d.1 := fun heq => (mem_del.mp hd).2 heq.symm
    simp [p', promise, hne]
  have hold : p.promise e = f.promise := by simp [promise, hf, Future.promise, hrow]
  have hnew : p'.promise e = f'.promise := by simp [p', promise, hlt, Future.promise, f', hrow]
  refine ⟨f.promise, f'.promise, ↑((del e.1 p.owing).map p.promise ++ p.held.map absent),
    ↑((p.futures.eraseIdx e.1).map Future.promise ++
      (inputs.drop p.futures.length).map absent), ?_, ?_, ?_, ?_⟩
  · have hmap := (hperm.map p.promise).append_right (p.held.map absent)
    rw [List.map_cons, hold] at hmap
    exact Multiset.coe_eq_coe.mpr hmap
  · have hmap := (hperm.map p'.promise).append_right (p.held.map absent)
    rw [List.map_cons, hnew, hother] at hmap
    exact Multiset.coe_eq_coe.mpr hmap
  · have hsplit := (List.getElem_cons_eraseIdx_perm hlt).symm.map Future.promise
    rw [hget, List.map_cons] at hsplit
    exact Multiset.coe_eq_coe.mpr (hsplit.append_right _)
  · have hsplit := (List.set_perm_cons_eraseIdx hlt f').map Future.promise
    rw [List.map_cons] at hsplit
    have hlen : p'.futures.length = p.futures.length := by simp [p']
    show (↑(p'.futures.map Future.promise ++ (inputs.drop p'.futures.length).map absent) :
      Multiset (LLMInput × LLMResult)) = _
    rw [hlen]
    exact Multiset.coe_eq_coe.mpr (hsplit.append_right _)

theorem outcomes_rows (hw : Wf x inputs p) : (p.outcomes inputs).map (·.1) = inputs := by
  have hpromise : (fun f : Future => f.promise.1) = (·.row) := rfl
  have habsent : (fun row => (absent row).1) = id := rfl
  simp [outcomes, Function.comp_def, hpromise, habsent, hw.rows]

theorem outcomes_keyed (hw : Wf x inputs p) : ∀ e ∈ p.outcomes inputs, e.2.key = e.1.key := by
  intro e he
  rcases List.mem_append.mp he with h | h
  · obtain ⟨f, hf, rfl⟩ := List.mem_map.mp h
    have hkeyed := hw.keyed f hf
    cases hs : f.state <;> simp_all [Future.promise, Future.value, BatchExecutor.Keyed]
  · obtain ⟨row, -, rfl⟩ := List.mem_map.mp h
    rfl

end Pool

end LlmWorker
