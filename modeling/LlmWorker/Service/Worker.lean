import LlmWorker.Lib.Interleaving
import LlmWorker.Executor.ExactlyOnce
import LlmWorker.Service.Batch

/-!
# Workers over one store

`LLMWorkerService.run` as a process that can crash, be told to stop and be
started again, and any number of such processes over the three tables. The
monolith adds input rows and marks batches as pending.

A result write that fails for good leaves `process_batch_iter` suspended at a
`yield`, inside its `with` block. No code closes the generator: the exception
keeps the frame that holds it in a reference cycle (through tenacity's retry
state), so its pool goes on working next to the ones that follow. Such pools are
`abandoned`. The cyclic garbage collector may close the generator later, which
only makes the worker wait for the threads of that pool.
-/

namespace LlmWorker

open Python Transition

inductive WorkerPc
  | down
  | polling
  | querying
  | batches (rest : List UUID)
  | processing (batch : Batch) (rest : List UUID)
  | sleeping
  | stopped
  deriving DecidableEq

/-- `accepted` is a history variable: the keys of the result rows that the
server has accepted from this worker, over all its restarts. -/
structure Worker where
  pc : WorkerPc
  shouldStop : Bool
  abandoned : List Pool
  accepted : List Key
  deriving DecidableEq

/-- `signal` is SIGTERM or SIGINT; `poll` and `readError` end the query for
pending batches; `leftover` is a step of a thread of an abandoned pool. -/
inductive WorkerAction
  | start
  | crash
  | signal
  | next
  | poll
  | readError
  | batch (a : BatchAction)
  | leftover (j i : Nat) (a : ThreadAction)
  deriving DecidableEq

namespace Worker

def down : Worker := ⟨.down, false, [], []⟩

/-- The keys of the result rows that lie between two states of the store. -/
def added (s s' : Store) : List Key := (s'.results.drop s.results.length).map LLMResult.key

/-- `except ClickHouseError` of the poll loop. -/
def afterError (w : Worker) : Worker := { w with pc := if w.shouldStop then .polling else .sleeping }

def abandon (w : Worker) (p : Pool) : Worker := { w with abandoned := w.abandoned ++ [p] }

def allDone (w : Worker) : Bool := w.abandoned.all Pool.allDone

/-- The interpreter joins the threads of every pool before it exits. -/
def next (w : Worker) : Option Worker :=
  match w.pc with
  | .polling => some { w with pc := if w.shouldStop then .stopped else .querying }
  | .batches [] => some { w with pc := .polling }
  | .batches (b :: rest) =>
    some { w with pc := if w.shouldStop then .polling else .processing (.start b) rest }
  | .processing batch rest =>
    match batch.pc with
    | .returned => some { w with pc := .batches rest }
    | .failed e =>
      if e.type = .clickHouseError then
        some (w.abandon batch.pool).afterError
      else
        some { w.abandon batch.pool with pc := .stopped }
    | _ => none
  | .sleeping => some { w with pc := .polling }
  | .stopped => if w.allDone then some { w with pc := .down } else none
  | .down | .querying => none

def step (cfg : ServiceConfig) (s : Store) (w : Worker) : WorkerAction → Option (Store × Worker)
  | .start =>
    if w.pc = .down then
      some (s, { w with pc := .polling, shouldStop := false, abandoned := [] })
    else
      none
  | .crash => if w.pc ≠ .down then some (s, { w with pc := .down, abandoned := [] }) else none
  | .signal => if w.pc ≠ .down then some (s, { w with shouldStop := true }) else none
  | .next => w.next.map fun w' => (s, w')
  | .poll =>
    if w.pc = .querying then
      match s.getPendingBatches cfg.pendingBatchLimit with
      | [] => some (s, { w with pc := .sleeping })
      | b :: rest => some (s, { w with pc := .batches (b :: rest) })
    else
      none
  | .readError => if w.pc = .querying then some (s, w.afterError) else none
  | .batch a =>
    match w.pc with
    | .processing batch rest =>
      (batch.step cfg s a).map fun r =>
        (r.1, { w with pc := .processing r.2 rest, accepted := w.accepted ++ added s r.1 })
    | _ => none
  | .leftover j i a =>
    match w.abandoned[j]? with
    | some p =>
      (p.threadStep cfg.executor i a).map fun p' =>
        (s, { w with abandoned := w.abandoned.set j p' })
    | none => none

/-- The steps of a worker, one constructor for each way through the code. -/
inductive Step (cfg : ServiceConfig) (s : Store) (w : Worker) : WorkerAction → Store → Worker → Prop
  | start (hpc : w.pc = .down) :
      Step cfg s w .start s { w with pc := .polling, shouldStop := false, abandoned := [] }
  | crash (hpc : w.pc ≠ .down) : Step cfg s w .crash s { w with pc := .down, abandoned := [] }
  | signal (hpc : w.pc ≠ .down) : Step cfg s w .signal s { w with shouldStop := true }
  | loop (hpc : w.pc = .polling) :
      Step cfg s w .next s { w with pc := if w.shouldStop then .stopped else .querying }
  | passed (hpc : w.pc = .batches []) : Step cfg s w .next s { w with pc := .polling }
  | leave (hpc : w.pc = .batches (b :: rest)) (hstop : w.shouldStop = true) :
      Step cfg s w .next s { w with pc := .polling }
  | take (hpc : w.pc = .batches (b :: rest)) (hgo : w.shouldStop = false) :
      Step cfg s w .next s { w with pc := .processing (.start b) rest }
  | finish (hpc : w.pc = .processing batch rest) (hret : batch.pc = .returned) :
      Step cfg s w .next s { w with pc := .batches rest }
  | giveUp (hpc : w.pc = .processing batch rest) (hfailed : batch.pc = .failed e)
      (he : e.type = .clickHouseError) :
      Step cfg s w .next s (w.abandon batch.pool).afterError
  | die (hpc : w.pc = .processing batch rest) (hfailed : batch.pc = .failed e)
      (he : e.type ≠ .clickHouseError) :
      Step cfg s w .next s { w.abandon batch.pool with pc := .stopped }
  | wake (hpc : w.pc = .sleeping) : Step cfg s w .next s { w with pc := .polling }
  | exit (hpc : w.pc = .stopped) (hdone : w.allDone = true) : Step cfg s w .next s { w with pc := .down }
  | idle (hpc : w.pc = .querying) (h : s.getPendingBatches cfg.pendingBatchLimit = []) :
      Step cfg s w .poll s { w with pc := .sleeping }
  | poll (hpc : w.pc = .querying) (h : s.getPendingBatches cfg.pendingBatchLimit ≠ []) :
      Step cfg s w .poll s { w with pc := .batches (s.getPendingBatches cfg.pendingBatchLimit) }
  | readError (hpc : w.pc = .querying) : Step cfg s w .readError s w.afterError
  | batch (hpc : w.pc = .processing batch rest) (h : Batch.Step cfg s batch a s' batch') :
      Step cfg s w (.batch a) s'
        { w with pc := .processing batch' rest, accepted := w.accepted ++ added s s' }
  | leftover (hp : w.abandoned[j]? = some p) (h : p.threadStep cfg.executor i a = some p') :
      Step cfg s w (.leftover j i a) s { w with abandoned := w.abandoned.set j p' }

theorem next_inv (h : next w = some w') : Step cfg s w .next s w' := by
  unfold next at h
  split at h
  · rename_i hpc
    cases h
    exact .loop hpc
  · rename_i hpc
    cases h
    exact .passed hpc
  · rename_i b rest hpc
    cases h
    split
    · rename_i hstop
      exact .leave hpc hstop
    · rename_i hgo
      exact .take hpc (by simpa using hgo)
  · rename_i batch rest hpc
    split at h
    · rename_i hret
      cases h
      exact .finish hpc hret
    · rename_i e hfailed
      split at h
      · rename_i he
        cases h
        exact .giveUp hpc hfailed he
      · rename_i he
        cases h
        exact .die hpc hfailed he
    · cases h
  · rename_i hpc
    cases h
    exact .wake hpc
  · rename_i hpc
    split at h <;> cases h
    rename_i hdone
    exact .exit hpc hdone
  · cases h
  · cases h

theorem step_inv (h : step cfg s w a = some (s', w')) : Step cfg s w a s' w' := by
  cases a with
  | start =>
    simp only [step] at h
    split at h <;> cases h
    rename_i hpc
    exact .start hpc
  | crash =>
    simp only [step] at h
    split at h <;> cases h
    rename_i hpc
    exact .crash hpc
  | signal =>
    simp only [step] at h
    split at h <;> cases h
    rename_i hpc
    exact .signal hpc
  | next =>
    obtain ⟨w'', hw, hpair⟩ := Option.map_eq_some_iff.mp h
    cases hpair
    exact next_inv hw
  | poll =>
    simp only [step] at h
    split at h
    · rename_i hpc
      split at h
      · rename_i hnil
        cases h
        exact .idle hpc hnil
      · rename_i b rest hpending
        cases h
        rw [← hpending]
        exact .poll hpc (by simp [hpending])
    · cases h
  | readError =>
    simp only [step] at h
    split at h <;> cases h
    rename_i hpc
    exact .readError hpc
  | batch a =>
    simp only [step] at h
    split at h
    · rename_i batch rest hpc
      obtain ⟨⟨s'', batch'⟩, hb, hpair⟩ := Option.map_eq_some_iff.mp h
      cases hpair
      exact .batch hpc (Batch.step_inv hb)
    · cases h
  | leftover j i a =>
    simp only [step] at h
    split at h
    · rename_i p hp
      obtain ⟨p', hp', hpair⟩ := Option.map_eq_some_iff.mp h
      cases hpair
      exact .leftover hp hp'
    · cases h

end Worker

/-- What the monolith does to the tables. -/
inductive EnvAction
  | addInput (row : LLMInput)
  | addPending (b : UUID)
  deriving DecidableEq

def Store.env (s : Store) : EnvAction → Option Store
  | .addInput row => some { s with inputs := s.inputs ++ [row] }
  | .addPending b => some (s.writeBatchStatus b .pending ⟨0, 0, 0⟩)

variable {ι : Type} [DecidableEq ι]

/-- The workers `ι` over one store, which is empty at first. -/
def service (cfg : ServiceConfig) : Shared Store ι Worker WorkerAction EnvAction :=
  .ofFn (fun s w => s = .empty ∧ ∀ i, w i = .down) (Worker.step cfg) Store.env

/-- The inputs of `b` are fixed from the moment it is pending. -/
def Frozen (b : UUID) (s : Store) (e : EnvAction) : Prop :=
  ∀ row, e = .addInput row → row.batchId = b → ¬s.HasStatus b .pending

/-- Every batch is fixed from the moment it is pending, and its row ids differ. -/
def Distinct (s : Store) (e : EnvAction) : Prop :=
  ∀ row, e = .addInput row → ¬s.HasStatus row.batchId .pending ∧ row.key ∉ s.inputKeys

instance (b : UUID) (s : Store) (e : EnvAction) : Decidable (Frozen b s e) :=
  match e with
  | .addInput row =>
    decidable_of_iff (row.batchId = b → ¬s.HasStatus b .pending) (by simp [Frozen])
  | .addPending _ => isTrue (by simp [Frozen])

instance (s : Store) (e : EnvAction) : Decidable (Distinct s e) :=
  match e with
  | .addInput row =>
    decidable_of_iff (¬s.HasStatus row.batchId .pending ∧ row.key ∉ s.inputKeys) (by simp [Distinct])
  | .addPending _ => isTrue (by simp [Distinct])

/-- No insert raises after the server has accepted its rows. -/
def Faithful (_w : Worker) (a : WorkerAction) : Prop := a ≠ .batch (.insert .raisedAfter)

instance (w : Worker) (a : WorkerAction) : Decidable (Faithful w a) := by
  unfold Faithful
  infer_instance

-- ---------------------------------------------------------------------------
-- Concrete runs
-- ---------------------------------------------------------------------------

section
variable (cfg : ServiceConfig) (ok : Worker → WorkerAction → Prop)
  (okEnv : Store → EnvAction → Prop) [∀ w, DecidablePred (ok w)] [∀ s, DecidablePred (okEnv s)]

def allowed (s : Store × (ι → Worker)) : ι × WorkerAction ⊕ EnvAction → Bool
  | .inl (i, a) => ok (s.2 i) a
  | .inr e => okEnv s.1 e

def guardedNext (s : Store × (ι → Worker)) (a : ι × WorkerAction ⊕ EnvAction) :
    Option (Store × (ι → Worker)) :=
  if allowed ok okEnv s a then Shared.next (Worker.step cfg) Store.env s a else none

theorem reachable_of_exec {as : List (ι × WorkerAction ⊕ EnvAction)} {p : Store × (ι → Worker) → Bool}
    (h : (LTS.exec (guardedNext cfg ok okEnv) (.empty, fun _ => .down) as).map p = some true) :
    ∃ s, ((service cfg : Shared Store ι _ _ _).restrict ok okEnv).lts.Reachable s ∧ p s = true := by
  obtain ⟨s, hs, hp⟩ := Option.map_eq_some_iff.mp h
  refine ⟨s, ⟨(.empty, fun _ => .down), as, ⟨rfl, fun _ => rfl⟩, ?_⟩, hp⟩
  refine Shared.run_of_exec ?_ ?_ hs
  · intro s i a ha
    exact of_decide_eq_true ha
  · intro s e he
    exact of_decide_eq_true he

end

def sampleConfig (executor : BatchExecutor) (page : Nat) (h : 0 < page) : ServiceConfig :=
  ⟨executor, 100, page, h⟩

def rowByRow : ServiceConfig := sampleConfig (bedrockExecutor 1 Nat.one_pos) 1 Nat.one_pos

def onWorker (i : ι) (as : List WorkerAction) : List (ι × WorkerAction ⊕ EnvAction) :=
  as.map fun a => .inl (i, a)

def submitted (rows : List LLMInput) (b : UUID) : List (ι × WorkerAction ⊕ EnvAction) :=
  rows.map (fun row => .inr (.addInput row)) ++ [.inr (.addPending b)]

def inPool (as : List PoolAction) : List BatchAction := as.map .pool
def inBatch (as : List BatchAction) : List WorkerAction := as.map .batch

def onePage (thread : List ThreadAction) : List BatchAction :=
  [.fetch] ++ inPool (resumes 2 ++ onThread 0 thread ++ [.main (.wait [0])] ++ resumes 9) ++ [.next]

def oneBatch (thread : List ThreadAction) : List WorkerAction :=
  [.next, .poll, .next] ++
    inBatch (onePage thread ++ [.insert .ok, .next, .fetch, .count, .insert .ok]) ++ [.next]

end LlmWorker
