import LlmWorker.Executor.Containment
import Mathlib.Algebra.Order.Ring.Nat

/-!
# The iteration comes to an end

Every step of a page lowers its rank, whatever the threads and the provider
do, and until the iteration is over some step can be taken: the main loop only
waits for futures whose threads can still act.
-/

namespace LlmWorker

open Python

variable {x : BatchExecutor} {inputs : List LLMInput}

-- ---------------------------------------------------------------------------
-- The rank of a thread
-- ---------------------------------------------------------------------------

namespace FutureState

/-- A bound on the steps that are left to the thread. -/
def rank (x : BatchExecutor) : FutureState → Nat
  | .pending => 2 * x.retryMaxAttempts + 6
  | .running .entered => 2 * x.retryMaxAttempts + 5
  | .running (.attempting _ left) => 2 * left + 4
  | .running (.calling _ left) => 2 * left + 3
  | .running (.aborting _) => 2
  | .running (.returning _) | .running (.raising _) => 1
  | .cancelled | .finished _ | .raised _ => 0

theorem rank_enter (x : BatchExecutor) (row : LLMInput) :
    rank x (.running (x.enter row)) < 2 * x.retryMaxAttempts + 5 := by
  unfold BatchExecutor.enter
  split
  · simp only [rank]
    omega
  · split <;> simp only [rank] <;> omega

theorem rank_react (x : BatchExecutor) (row : LLMInput) (request : ContractRequest) (left : Nat)
    (outcome : Result LLMResponse) : rank x (.running (x.react row request left outcome)) < 2 * left + 3 := by
  unfold BatchExecutor.react
  split
  · simp only [rank]
    omega
  · cases x.conclude row outcome with
    | mk result aborts => cases aborts <;> simp [rank]

theorem rank_step (h : x.threadStep row st a = some st') : rank x st' < rank x st := by
  cases st with
  | pending =>
    cases a <;> simp [BatchExecutor.threadStep] at h
    subst h
    simp [rank]
  | running phase =>
    cases phase <;> cases a <;> simp [BatchExecutor.threadStep, BatchExecutor.phaseStep] at h
    case entered.check isSet =>
      subst h
      cases isSet with
      | false => exact rank_enter x row
      | true => simp [rank]
    case attempting.call => subst h; simp [rank]
    case calling.answer => subst h; exact rank_react ..
    case aborting.set => subst h; simp [rank]
    case returning.ret => obtain ⟨-, rfl⟩ := h; simp [rank]
    case raising.raise => obtain ⟨-, rfl⟩ := h; simp [rank]
  | _ => simp [BatchExecutor.threadStep] at h

theorem rank_cancel (x : BatchExecutor) (st : FutureState) : rank x st.cancel ≤ rank x st := by
  cases st <;> simp [cancel, rank]

end FutureState

-- ---------------------------------------------------------------------------
-- The rank of a page
-- ---------------------------------------------------------------------------

theorem sum_map_set {l : List α} {g : α → Nat} (h : l[i]? = some a) :
    ((l.set i b).map g).sum + g a = (l.map g).sum + g b := by
  induction l generalizing i with
  | nil => cases h
  | cons c l ih =>
    cases i with
    | zero =>
      cases h
      simp only [List.set_cons_zero, List.map_cons, List.sum_cons]
      omega
    | succ i =>
      have := ih h
      simp only [List.set_cons_succ, List.map_cons, List.sum_cons]
      omega

theorem sum_map_modify_le {l : List α} {f : α → α} {g : α → Nat} (h : ∀ a, g (f a) ≤ g a) (i : Nat) :
    ((l.modify i f).map g).sum ≤ (l.map g).sum := by
  induction l generalizing i with
  | nil => simp
  | cons a l ih =>
    cases i with
    | zero =>
      have := h a
      simp only [List.modify_zero_cons, List.map_cons, List.sum_cons]
      omega
    | succ i =>
      have := ih i
      simp only [List.modify_succ_cons, List.map_cons, List.sum_cons]
      omega

namespace Pool

/-- What a row weighs before it has a future: its thread's steps, and those of
the main loop that it gives rise to. -/
def rowRank (x : BatchExecutor) : Nat := FutureState.rank x .pending + 6

def futuresRank (x : BatchExecutor) (p : Pool) : Nat := (p.futures.map fun f => f.state.rank x).sum

/-- A future in flight pays for one more turn of the submit loop. -/
def mainRank (x : BatchExecutor) (p : Pool) : Nat :=
  let submitting := rowRank x * p.pendingInputs.length + 5 * p.inFlight.length + p.abortedRows.length
  match p.pc with
  | .draining [] => submitting + 14
  | .checking => submitting + 13
  | .filling => submitting + 12
  | .head => submitting + 11
  | .draining (_ :: _) => submitting + 10
  | .cancelling rest => rest.length + 2 * p.inFlight.length + p.abortedRows.length + 6
  | .collecting rest => 2 * rest.length + p.abortedRows.length + 4
  | .closing => p.abortedRows.length + 3
  | .emitting rest => rest.length + 2
  | .unwinding _ => 1
  | .exhausted | .raised _ => 0

def rank (x : BatchExecutor) (p : Pool) : Nat := p.futuresRank x + p.mainRank x

theorem rank_start (x : BatchExecutor) (inputs : List LLMInput) :
    (start inputs).rank x = rowRank x * inputs.length + 12 := by
  simp [rank, futuresRank, mainRank, start]

theorem rank_thread (h : threadStep x p i a = some p') : p'.rank x < p.rank x := by
  obtain ⟨f, st, hf, -, hst, rfl⟩ := threadStep_inv h
  have hlt := FutureState.rank_step hst
  have hsum : ((p.futures.set i ⟨f.row, st⟩).map fun f => f.state.rank x).sum + f.state.rank x =
      (p.futures.map fun f => f.state.rank x).sum + st.rank x := sum_map_set hf
  simp only [rank, futuresRank, mainRank]
  omega

theorem futuresRank_cancel (x : BatchExecutor) (p : Pool) (i : Nat) :
    (p.cancel i).futuresRank x ≤ p.futuresRank x :=
  sum_map_modify_le (fun f => FutureState.rank_cancel x f.state) i

theorem rank_main (hw : Wf x inputs p) (h : MainStep x p p' out) : p'.rank x < p.rank x := by
  cases h with
  | submit hpc hrow hroom =>
    simp only [rank, futuresRank, mainRank, submit, hpc, hrow, rowRank, List.map_append, List.sum_append,
      List.map_cons, List.map_nil, List.sum_cons, List.sum_nil, List.length_append, List.length_cons, List.length_nil,
      Nat.mul_add_one]
    omega
  | @woken done hpc hdone =>
    cases done with
    | nil => exact absurd rfl hdone.1
    | cons i done => simp only [rank, futuresRank, mainRank, hpc]; omega
  | @drain i done result hpc hst =>
    obtain ⟨-, hin⟩ := hw.awake _ hpc
    obtain ⟨e, hmem, rfl⟩ := List.mem_map.mp (hin i (by simp))
    have hlt : (del e.1 p.inFlight).length < p.inFlight.length :=
      List.length_filter_lt_length_iff_exists.mpr ⟨e, hmem, by simp⟩
    have hle : ({ p with pc := .draining done, inFlight := del e.1 p.inFlight } : Pool).mainRank x ≤
        rowRank x * p.pendingInputs.length + 5 * (del e.1 p.inFlight).length + p.abortedRows.length + 14 := by
      cases done <;> simp [mainRank]
    have hmain : p.mainRank x =
        rowRank x * p.pendingInputs.length + 5 * p.inFlight.length + p.abortedRows.length + 10 := by
      simp [mainRank, hpc]
    simp only [rank, futuresRank] at hle hmain ⊢
    omega
  | abort hpc hset =>
    have hle : p.pendingInputs.length ≤ rowRank x * p.pendingInputs.length :=
      Nat.le_mul_of_pos_left _ (by simp [rowRank])
    simp only [rank, futuresRank, mainRank, hpc, List.length_append]
    omega
  | @cancel i row rest hpc =>
    have hle := futuresRank_cancel x p i
    have hmain : ({ p.cancel i with pc := .cancelling rest } : Pool).mainRank x + 1 = p.mainRank x := by
      simp only [mainRank, hpc, cancel, List.length_cons]
      omega
    show (p.cancel i).futuresRank x + _ < p.futuresRank x + p.mainRank x
    rw [← hmain]
    exact Nat.add_lt_add_of_le_of_lt hle (Nat.lt_succ_self _)
  | idle hpc hnone =>
    simp only [rank, futuresRank, mainRank, hpc, hnone, List.length_nil]
    omega
  | drainRaised hpc | collectRaised hpc =>
    simp only [rank, futuresRank, mainRank, hpc]
    omega
  | filled hpc | drained hpc | refill hpc | cancelled hpc | keep hpc | collect hpc | collected hpc | closed hpc
  | emit hpc | emitted hpc | unwound hpc =>
    simp only [rank, futuresRank, mainRank, hpc, List.length_cons, List.length_append, List.length_nil]
    omega

theorem rank_pool (hw : Wf x inputs p) (h : step x p a = some (p', out)) : p'.rank x < p.rank x := by
  cases a with
  | thread i a =>
    obtain ⟨q, hq, hpair⟩ := Option.map_eq_some_iff.mp h
    cases hpair
    exact rank_thread hq
  | main a => exact rank_main hw (mainStep_inv h)

-- ---------------------------------------------------------------------------
-- Some step can be taken
-- ---------------------------------------------------------------------------

/-- What the main loop takes for granted of the futures that it does not wait for. -/
structure Ready (p : Pool) : Prop where
  done : ∀ done, p.pc = .draining done → ∀ i ∈ done, ∃ st, p.stateOf i = some st ∧ st.isDone = true
  uncancelled : p.Submitting → ∀ f ∈ p.futures, f.state ≠ .cancelled

theorem ready_start (inputs : List LLMInput) : Ready (start inputs) :=
  ⟨by simp [start], by simp [start]⟩

theorem ready_exhausted : Ready { start [] with pc := .exhausted } :=
  ⟨by simp, by simp [Submitting]⟩

theorem ready_thread (hr : Ready p) (h : threadStep x p i a = some p') : Ready p' := by
  obtain ⟨f, st, hf, -, hst, rfl⟩ := threadStep_inv h
  refine ⟨fun done hpc j hj => ?_, fun hs g hg => ?_⟩
  · obtain ⟨st', hj', hdone⟩ := hr.done done hpc j hj
    obtain ⟨g, hg, rfl⟩ := stateOf_eq_some.mp hj'
    by_cases hij : i = j
    · subst hij
      obtain rfl : f = g := by simpa [hf] using hg
      rw [FutureState.not_done_of_step hst] at hdone
      cases hdone
    · exact ⟨g.state, stateOf_eq_some.mpr ⟨g, by simpa [hij] using hg, rfl⟩, hdone⟩
  · rcases List.mem_or_eq_of_mem_set hg with hmem | rfl
    · exact hr.uncancelled hs g hmem
    · exact FutureState.not_cancelled_of_step hst

theorem ready_main (hr : Ready p) (h : MainStep x p p' out) : Ready p' := by
  cases h with
  | submit hpc =>
    refine ⟨fun done hd => by simp [submit, hpc] at hd, fun _ f hf => ?_⟩
    rcases List.mem_append.mp hf with hmem | hnew
    · exact hr.uncancelled (by simp [Submitting, hpc]) f hmem
    · obtain rfl : f = _ := by simpa using hnew
      simp
  | woken hpc hdone =>
    refine ⟨fun done hd i hi => ?_, fun _ => hr.uncancelled (by simp [Submitting, hpc])⟩
    cases hd
    obtain ⟨-, st, hst, hisDone⟩ := hdone.2.2 i hi
    exact ⟨st, hst, hisDone⟩
  | drain hpc _ =>
    refine ⟨fun done hd i hi => ?_, fun _ => hr.uncancelled (by simp [Submitting, hpc])⟩
    cases hd
    exact hr.done _ hpc i (List.mem_cons_of_mem _ hi)
  | filled hpc | drained hpc | refill hpc =>
    exact ⟨fun done hd => (by cases hd), fun _ => hr.uncancelled (by simp [Submitting, hpc])⟩
  | _ => exact ⟨fun done hd => (by cases hd), fun hs => hs.elim⟩

theorem thread_enabled (x : BatchExecutor) (p : Pool) (hf : p.futures[i]? = some f) (hdone : f.state.isDone = false) :
    ∃ a p', threadStep x p i a = some p' := by
  have enabled {a st} (hsees : sees p.abortEvent a = true) (hst : x.threadStep f.row f.state a = some st) :
      ∃ a p', threadStep x p i a = some p' := by
    have hsome : (threadStep x p i a).isSome = true := by simp [threadStep, hf, hsees, hst]
    exact ⟨a, Option.isSome_iff_exists.mp hsome⟩
  cases hs : f.state with
  | pending => exact enabled (a := .start) rfl (by rw [hs]; rfl)
  | running phase =>
    cases phase with
    | entered => exact enabled (a := .check p.abortEvent) (by simp [sees]) (by rw [hs]; rfl)
    | attempting => exact enabled (a := .call) rfl (by rw [hs]; rfl)
    | calling => exact enabled (a := .answer (.ok ⟨.null, .null, .null⟩)) rfl (by rw [hs]; rfl)
    | aborting => exact enabled (a := .set) rfl (by rw [hs]; rfl)
    | returning result =>
      exact enabled (a := .ret result) rfl (by rw [hs]; exact if_pos rfl)
    | raising e =>
      exact enabled (a := .raise e) rfl (by rw [hs]; exact if_pos rfl)
  | _ => simp [hs, FutureState.isDone] at hdone

theorem progress (hw : Wf x inputs p) (hr : Ready p) (hpc : p.pc ≠ .exhausted) (hraised : ∀ e, p.pc ≠ .raised e) :
    ∃ a p' out, step x p a = some (p', out) := by
  have resume {q out} (h : mainStep x p .resume = some (q, out)) : ∃ a p' out, step x p a = some (p', out) :=
    ⟨.main .resume, q, out, h⟩
  have thread {i : Nat} {f : Future} (hf : p.futures[i]? = some f) (hdone : f.state.isDone = false) :
      ∃ a p' out, step x p a = some (p', out) := by
    obtain ⟨a, p', h⟩ := thread_enabled x p hf hdone
    exact ⟨.thread i a, p', none, by simp [step, h]⟩
  -- the end of a `with` block waits for the threads
  have join (h : p.allDone = true → ∃ a p' out, step x p a = some (p', out)) :
      ∃ a p' out, step x p a = some (p', out) := by
    cases hall : p.allDone with
    | true => exact h hall
    | false =>
      obtain ⟨f, hmem, hdone⟩ : ∃ f ∈ p.futures, f.state.isDone = false := by simpa [allDone] using hall
      obtain ⟨i, hi⟩ := List.mem_iff_getElem?.mp hmem
      exact thread hi hdone
  cases hcase : p.pc with
  | filling =>
    cases hrow : p.pendingInputs with
    | nil => exact resume (by simp only [mainStep, hcase, hrow]; rfl)
    | cons row rest =>
      by_cases hroom : p.inFlight.length < x.maxWorkers
      · exact resume (by simp only [mainStep, hcase, hrow, if_pos hroom]; rfl)
      · exact resume (by simp only [mainStep, hcase, hrow, if_neg hroom]; rfl)
  | head =>
    cases hin : p.inFlight with
    | nil => exact resume (by simp only [mainStep, hcase, hin, if_true]; rfl)
    | cons e rest =>
      have hmem : e ∈ p.inFlight := by simp [hin]
      obtain ⟨f, hf, -⟩ := hw.entry e (by simpa [owing, hcase] using hmem)
      cases hdone : f.state.isDone with
      | false => exact thread hf hdone
      | true =>
        have hreturn : p.CanReturn [e.1] := by
          refine ⟨by simp, by simp, fun i hi => ?_⟩
          obtain rfl : i = e.1 := by simpa using hi
          exact ⟨List.mem_map_of_mem hmem, f.state, stateOf_eq_some.mpr ⟨f, hf, rfl⟩, hdone⟩
        exact ⟨.main (.wait [e.1]), _, _, by simp only [step, mainStep, hcase, if_pos hreturn]; rfl⟩
  | draining done =>
    cases done with
    | nil => exact resume (by simp only [mainStep, hcase]; rfl)
    | cons i done =>
      obtain ⟨st, hst, hdone⟩ := hr.done _ hcase i (by simp)
      obtain ⟨f, hf, rfl⟩ := stateOf_eq_some.mp hst
      have hne := hr.uncancelled (by simp [Submitting, hcase]) f (List.mem_of_getElem? hf)
      cases hstate : f.state with
      | finished result =>
        rw [hstate] at hst
        exact resume (by simp only [mainStep, hcase, hst]; rfl)
      | raised e =>
        rw [hstate] at hst
        exact resume (by simp only [mainStep, hcase, hst]; rfl)
      | cancelled => exact absurd hstate hne
      | _ => simp [hstate, FutureState.isDone] at hdone
  | checking =>
    cases hset : p.abortEvent with
    | true => exact resume (by simp only [mainStep, hcase, hset, if_true]; rfl)
    | false => exact resume (by simp only [mainStep, hcase, hset, Bool.false_eq_true, if_false]; rfl)
  | cancelling rest =>
    cases rest with
    | nil => exact resume (by simp only [mainStep, hcase]; rfl)
    | cons e rest => exact resume (by simp only [mainStep, hcase]; rfl)
  | collecting rest =>
    cases rest with
    | nil => exact resume (by simp only [mainStep, hcase]; rfl)
    | cons e rest =>
      obtain ⟨f, hf, -⟩ := hw.entry e (by simp [owing, hcase])
      have hst : p.stateOf e.1 = some f.state := stateOf_eq_some.mpr ⟨f, hf, rfl⟩
      cases hstate : f.state with
      | pending | running => exact thread hf (by simp [hstate, FutureState.isDone])
      | cancelled | finished | raised =>
        rw [hstate] at hst
        exact resume (by simp only [mainStep, hcase, hst]; rfl)
  | closing => exact join fun hall => resume (by simp only [mainStep, hcase, hall, if_true]; rfl)
  | emitting rest =>
    cases rest with
    | nil => exact resume (by simp only [mainStep, hcase]; rfl)
    | cons row rest => exact resume (by simp only [mainStep, hcase]; rfl)
  | exhausted => exact absurd hcase hpc
  | unwinding e => exact join fun hall => resume (by simp only [mainStep, hcase, hall, if_true]; rfl)
  | raised e => exact absurd hcase (hraised e)

-- ---------------------------------------------------------------------------
-- Nothing raises
-- ---------------------------------------------------------------------------

end Pool

def FutureState.Calm : FutureState → Prop
  | .running (.raising _) | .raised _ => False
  | _ => True

theorem FutureState.calm_step (hpy : x.py.LoadsRaises) (hst : x.threadStep row st a = some st') (hc : st.Calm)
    (hdeep : a = .check false → ¬x.NestsTooDeep row) : st'.Calm := by
  cases st with
  | pending =>
    cases a <;> simp [BatchExecutor.threadStep] at hst
    subst hst
    trivial
  | running phase =>
    cases phase <;> cases a <;> simp [BatchExecutor.threadStep, BatchExecutor.phaseStep] at hst
    case entered.check isSet =>
      subst hst
      cases isSet with
      | true => trivial
      | false =>
        simp only [Bool.false_eq_true, if_false]
        unfold BatchExecutor.enter
        cases hparse : x.parseRow row with
        | ok request => trivial
        | error e =>
          cases herror : rowError e with
          | some text => simp [Calm, herror]
          | none => exact absurd ((BatchExecutor.parseRow_escapes_iff hpy row).mp ⟨e, hparse, herror⟩) (hdeep rfl)
    case attempting.call => subst hst; trivial
    case calling.answer request left outcome =>
      subst hst
      unfold BatchExecutor.react
      split
      · trivial
      · cases x.conclude row outcome with
        | mk result aborts => cases aborts <;> trivial
    case aborting.set => subst hst; trivial
    case returning.ret => obtain ⟨-, rfl⟩ := hst; trivial
    case raising.raise => exact hc.elim
  | _ => simp [BatchExecutor.threadStep] at hst

namespace Pool

/-- The iteration has not been ended by an exception, and is not going to be. -/
def Calm (p : Pool) : Prop := ¬p.Broken ∧ ∀ f ∈ p.futures, f.state.Calm

theorem calm_start (inputs : List LLMInput) : Calm (start inputs) := by
  simp [Calm, start, Broken]

theorem calm_exhausted : Calm { start [] with pc := .exhausted } := by
  simp [Calm, start, Broken]

theorem calm_thread (hpy : x.py.LoadsRaises) (hc : Calm p) (h : threadStep x p i a = some p')
    (hdeep : a = .check false → ∀ f, p.futures[i]? = some f → ¬x.NestsTooDeep f.row) : Calm p' := by
  refine ⟨fun hb => hc.1 ((broken_thread h).mp hb), fun g hg => ?_⟩
  obtain ⟨f, st, hf, -, hst, rfl⟩ := threadStep_inv h
  rcases List.mem_or_eq_of_mem_set hg with hmem | rfl
  · exact hc.2 g hmem
  · exact FutureState.calm_step hpy hst (hc.2 f (List.mem_of_getElem? hf)) fun ha => hdeep ha f hf

theorem calm_main (hc : Calm p) (h : MainStep x p p' out) : Calm p' := by
  obtain ⟨hb, hcalm⟩ := hc
  have hraised {i e} : p.stateOf i ≠ some (.raised e) := by
    intro hst
    obtain ⟨f, hf, hstate⟩ := stateOf_eq_some.mp hst
    have := hcalm f (List.mem_of_getElem? hf)
    rw [hstate] at this
    exact this
  have hfutures : ∀ f ∈ p'.futures, f.state.Calm := by
    intro f hf
    rcases futures_main h with heq | ⟨row, heq⟩ | ⟨i, heq⟩
    · exact hcalm f (heq ▸ hf)
    · rw [heq] at hf
      rcases List.mem_append.mp hf with hmem | hnew
      · exact hcalm f hmem
      · obtain rfl : f = _ := by simpa using hnew
        trivial
    · rw [heq] at hf
      obtain ⟨j, hj⟩ := List.mem_iff_getElem?.mp hf
      rw [getElem?_cancel] at hj
      obtain ⟨g, hg, rfl⟩ := Option.map_eq_some_iff.mp hj
      have hgcalm := hcalm g (List.mem_of_getElem? hg)
      split
      · cases hs : g.state <;> simp_all [FutureState.cancel, FutureState.Calm]
      · exact hgcalm
  refine ⟨?_, hfutures⟩
  cases h with
  | drainRaised _ hst | collectRaised _ hst => exact absurd hst hraised
  | submit hpc => simp [Broken, submit, hpc]
  | unwound hpc => simp [Broken, hpc] at hb
  | _ => simp [Broken]

end Pool

end LlmWorker
