import LlmWorker.Executor.Invoke

/-!
# The concurrent executor

`process_batch_iter`: the main loop next to its pool threads. A future is
known by its position among the submitted ones, which is also its row's
position in `inputs`. The main loop takes one step for each turn of one of
its loops, and threads may act between any two of them.
-/

namespace LlmWorker

open Python

structure Future where
  row : LLMInput
  state : FutureState
  deriving DecidableEq

namespace FutureState

/-- `future.done()` -/
def isDone : FutureState → Bool
  | .cancelled | .finished _ | .raised _ => true
  | .pending | .running _ => false

/-- `future.cancel()` -/
def cancel : FutureState → FutureState
  | .pending => .cancelled
  | st => st

end FutureState

/-- Where the main loop stands. `filling` is the submit loop, before the first
`wait` and after each `wait`; `closing` is the end of the `with` block, and
`unwinding` the same end on the way out of an exception. -/
inductive PoolPc
  | filling
  | head
  | draining (done : List Nat)
  | checking
  | cancelling (rest : List (Nat × LLMInput))
  | collecting (rest : List (Nat × LLMInput))
  | closing
  | emitting (rest : List LLMInput)
  | exhausted
  | unwinding (e : Exc)
  | raised (e : Exc)
  deriving DecidableEq

structure Pool where
  pc : PoolPc
  pendingInputs : List LLMInput
  futures : List Future
  inFlight : List (Nat × LLMInput)
  abortedRows : List LLMInput
  abortEvent : Bool
  deriving DecidableEq

/-- `wait` ends a call of `wait(…, FIRST_COMPLETED)`, which returns some of the
futures that are done; `resume` is any other step of the main loop. -/
inductive MainAction
  | wait (done : List Nat)
  | resume
  deriving DecidableEq

inductive PoolAction
  | thread (i : Nat) (a : ThreadAction)
  | main (a : MainAction)
  deriving DecidableEq

/-- `del d[i]` -/
def del (i : Nat) (d : List (Nat × α)) : List (Nat × α) := d.filter fun e => e.1 ≠ i

namespace Pool

/-- A call of `process_batch_iter`, before its first `next`. -/
def start (inputs : List LLMInput) : Pool := ⟨.filling, inputs, [], [], [], false⟩

def stateOf (p : Pool) (i : Nat) : Option FutureState := p.futures[i]?.map (·.state)

def allDone (p : Pool) : Bool := p.futures.all fun f => f.state.isDone

def submit (p : Pool) (row : LLMInput) (rest : List LLMInput) : Pool :=
  { p with
    pendingInputs := rest
    futures := p.futures ++ [⟨row, .pending⟩]
    inFlight := p.inFlight ++ [(p.futures.length, row)] }

def cancel (p : Pool) (i : Nat) : Pool :=
  { p with futures := p.futures.modify i fun f => { f with state := f.state.cancel } }

/-- What `wait` may return. -/
def CanReturn (p : Pool) (done : List Nat) : Prop :=
  done ≠ [] ∧ done.Nodup ∧ ∀ i ∈ done, i ∈ p.inFlight.map (·.1) ∧ ∃ st ∈ p.stateOf i, st.isDone

instance (p : Pool) (done : List Nat) : Decidable (p.CanReturn done) := by
  unfold CanReturn
  infer_instance

/-- One step of the main loop, and the result it yields, if any. -/
def mainStep (x : BatchExecutor) (p : Pool) (a : MainAction) : Option (Pool × Option LLMResult) :=
  match p.pc, a with
  | .filling, .resume =>
    match p.pendingInputs with
    | row :: rest =>
      if p.inFlight.length < x.maxWorkers then
        some (p.submit row rest, none)
      else
        some ({ p with pc := .head }, none)
    | [] => some ({ p with pc := .head }, none)
  | .head, .wait done =>
    if p.CanReturn done then some ({ p with pc := .draining done }, none) else none
  | .head, .resume =>
    if p.inFlight = [] then some ({ p with pc := .cancelling [] }, none) else none
  | .draining (i :: done), .resume =>
    match p.stateOf i with
    | some (.finished result) =>
      some ({ p with pc := .draining done, inFlight := del i p.inFlight }, some result)
    | some (.raised e) => some ({ p with pc := .unwinding e, inFlight := del i p.inFlight }, none)
    | _ => none
  | .draining [], .resume => some ({ p with pc := .checking }, none)
  | .checking, .resume =>
    if p.abortEvent then
      some ({ p with
        pc := .cancelling p.inFlight
        pendingInputs := []
        abortedRows := p.abortedRows ++ p.pendingInputs }, none)
    else
      some ({ p with pc := .filling }, none)
  | .cancelling ((i, _) :: rest), .resume =>
    some ({ p.cancel i with pc := .cancelling rest }, none)
  | .cancelling [], .resume => some ({ p with pc := .collecting p.inFlight }, none)
  | .collecting ((i, row) :: rest), .resume =>
    match p.stateOf i with
    | some .cancelled =>
      some ({ p with pc := .collecting rest, abortedRows := p.abortedRows ++ [row] }, none)
    | some (.finished result) => some ({ p with pc := .collecting rest }, some result)
    | some (.raised e) => some ({ p with pc := .unwinding e }, none)
    | _ => none
  | .collecting [], .resume => some ({ p with pc := .closing }, none)
  | .closing, .resume =>
    if p.allDone then some ({ p with pc := .emitting p.abortedRows }, none) else none
  | .emitting (row :: rest), .resume =>
    some ({ p with pc := .emitting rest }, some (abortedResult row))
  | .emitting [], .resume => some ({ p with pc := .exhausted }, none)
  | .unwinding e, .resume => if p.allDone then some ({ p with pc := .raised e }, none) else none
  | _, _ => none

def sees (abortEvent : Bool) : ThreadAction → Bool
  | .check isSet => isSet = abortEvent
  | _ => true

def threadStep (x : BatchExecutor) (p : Pool) (i : Nat) (a : ThreadAction) : Option Pool :=
  match p.futures[i]? with
  | none => none
  | some f =>
    if sees p.abortEvent a then
      (x.threadStep f.row f.state a).map fun st =>
        { p with
          futures := p.futures.set i { f with state := st }
          abortEvent := p.abortEvent || a = .set }
    else
      none

def step (x : BatchExecutor) (p : Pool) : PoolAction → Option (Pool × Option LLMResult)
  | .thread i a => (p.threadStep x i a).map fun p' => (p', none)
  | .main a => p.mainStep x a

end Pool

/-- `list(process_batch_iter(inputs))` on its way: the iterator and the items so far. -/
structure Collected where
  pool : Pool
  results : List LLMResult
  deriving DecidableEq

namespace BatchExecutor

def collect (x : BatchExecutor) (s : Collected) (a : PoolAction) : Option Collected :=
  (s.pool.step x a).map fun r => ⟨r.1, s.results ++ r.2.toList⟩

def processBatch (x : BatchExecutor) (inputs : List LLMInput) : Transition.LTS Collected PoolAction :=
  .ofFn (fun s => s = ⟨Pool.start inputs, []⟩) x.collect

end BatchExecutor

-- ---------------------------------------------------------------------------
-- What one step does
-- ---------------------------------------------------------------------------

namespace Pool

theorem threadStep_inv (h : threadStep x p i a = some p') :
    ∃ f st, p.futures[i]? = some f ∧ sees p.abortEvent a = true ∧
      x.threadStep f.row f.state a = some st ∧
      p' = { p with
        futures := p.futures.set i { f with state := st }
        abortEvent := p.abortEvent || a = .set } := by
  unfold threadStep at h
  split at h
  · cases h
  · rename_i f hf
    split at h
    · rename_i hsees
      obtain ⟨st, hst, rfl⟩ := Option.map_eq_some_iff.mp h
      exact ⟨f, st, hf, hsees, hst, rfl⟩
    · cases h

/-- The steps of the main loop, one constructor for each way through it. -/
inductive MainStep (x : BatchExecutor) (p : Pool) : Pool → Option LLMResult → Prop
  | submit (hpc : p.pc = .filling) (hrow : p.pendingInputs = row :: rest)
      (hroom : p.inFlight.length < x.maxWorkers) : MainStep x p (p.submit row rest) none
  | filled (hpc : p.pc = .filling)
      (hfull : p.pendingInputs = [] ∨ x.maxWorkers ≤ p.inFlight.length) :
      MainStep x p { p with pc := .head } none
  | woken (hpc : p.pc = .head) (hdone : p.CanReturn done) :
      MainStep x p { p with pc := .draining done } none
  | idle (hpc : p.pc = .head) (hnone : p.inFlight = []) :
      MainStep x p { p with pc := .cancelling [] } none
  | drain (hpc : p.pc = .draining (i :: done)) (hst : p.stateOf i = some (.finished result)) :
      MainStep x p { p with pc := .draining done, inFlight := del i p.inFlight } (some result)
  | drainRaised (hpc : p.pc = .draining (i :: done)) (hst : p.stateOf i = some (.raised e)) :
      MainStep x p { p with pc := .unwinding e, inFlight := del i p.inFlight } none
  | drained (hpc : p.pc = .draining []) : MainStep x p { p with pc := .checking } none
  | abort (hpc : p.pc = .checking) (hset : p.abortEvent = true) :
      MainStep x p { p with
        pc := .cancelling p.inFlight
        pendingInputs := []
        abortedRows := p.abortedRows ++ p.pendingInputs } none
  | refill (hpc : p.pc = .checking) (hset : p.abortEvent = false) :
      MainStep x p { p with pc := .filling } none
  | cancel (hpc : p.pc = .cancelling ((i, row) :: rest)) :
      MainStep x p { p.cancel i with pc := .cancelling rest } none
  | cancelled (hpc : p.pc = .cancelling []) :
      MainStep x p { p with pc := .collecting p.inFlight } none
  | keep (hpc : p.pc = .collecting ((i, row) :: rest)) (hst : p.stateOf i = some .cancelled) :
      MainStep x p { p with pc := .collecting rest, abortedRows := p.abortedRows ++ [row] } none
  | collect (hpc : p.pc = .collecting ((i, row) :: rest))
      (hst : p.stateOf i = some (.finished result)) :
      MainStep x p { p with pc := .collecting rest } (some result)
  | collectRaised (hpc : p.pc = .collecting ((i, row) :: rest))
      (hst : p.stateOf i = some (.raised e)) : MainStep x p { p with pc := .unwinding e } none
  | collected (hpc : p.pc = .collecting []) : MainStep x p { p with pc := .closing } none
  | closed (hpc : p.pc = .closing) (hdone : p.allDone = true) :
      MainStep x p { p with pc := .emitting p.abortedRows } none
  | emit (hpc : p.pc = .emitting (row :: rest)) :
      MainStep x p { p with pc := .emitting rest } (some (abortedResult row))
  | emitted (hpc : p.pc = .emitting []) : MainStep x p { p with pc := .exhausted } none
  | unwound (hpc : p.pc = .unwinding e) (hdone : p.allDone = true) :
      MainStep x p { p with pc := .raised e } none

theorem mainStep_inv (h : mainStep x p a = some (p', out)) : MainStep x p p' out := by
  unfold mainStep at h
  split at h
  · rename_i hpc
    split at h
    · rename_i row rest hrow
      split at h
      · rename_i hroom
        cases h
        exact .submit hpc hrow hroom
      · rename_i hroom
        cases h
        exact .filled hpc (.inr (Nat.le_of_not_lt hroom))
    · rename_i hnil
      cases h
      exact .filled hpc (.inl hnil)
  · rename_i done hpc
    split at h
    · rename_i hdone
      cases h
      exact .woken hpc hdone
    · cases h
  · rename_i hpc
    split at h
    · rename_i hnone
      cases h
      exact .idle hpc hnone
    · cases h
  · rename_i i done hpc
    split at h
    · rename_i result hst
      cases h
      exact .drain hpc hst
    · rename_i e hst
      cases h
      exact .drainRaised hpc hst
    · cases h
  · rename_i hpc
    cases h
    exact .drained hpc
  · rename_i hpc
    split at h
    · rename_i hset
      cases h
      exact .abort hpc hset
    · rename_i hset
      cases h
      exact .refill hpc (by simpa using hset)
  · rename_i i row rest hpc
    cases h
    exact .cancel hpc
  · rename_i hpc
    cases h
    exact .cancelled hpc
  · rename_i i row rest hpc
    split at h
    · rename_i hst
      cases h
      exact .keep hpc hst
    · rename_i result hst
      cases h
      exact .collect hpc hst
    · rename_i e hst
      cases h
      exact .collectRaised hpc hst
    · cases h
  · rename_i hpc
    cases h
    exact .collected hpc
  · rename_i hpc
    split at h
    · rename_i hdone
      cases h
      exact .closed hpc hdone
    · cases h
  · rename_i row rest hpc
    cases h
    exact .emit hpc
  · rename_i hpc
    cases h
    exact .emitted hpc
  · rename_i e hpc
    split at h
    · rename_i hdone
      cases h
      exact .unwound hpc hdone
    · cases h
  · cases h

theorem abortEvent_thread (h : threadStep x p i a = some p') :
    p'.abortEvent = (p.abortEvent || a = .set) := by
  obtain ⟨f, st, -, -, -, rfl⟩ := threadStep_inv h
  rfl

theorem abortEvent_main (h : MainStep x p p' out) : p'.abortEvent = p.abortEvent := by
  cases h <;> rfl

end Pool

end LlmWorker
