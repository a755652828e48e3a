import LlmWorker.Executor.Yield

/-!
# One run of `process_single_batch`

The page loop with its chunked result writes, the counts and the status write,
next to the threads of its current page. Publishing the worker info between
two pages touches none of the three tables and is left out, and so is
`saw_rows`, which only decides what is logged.
-/

namespace LlmWorker

open Python

def resultWriteBatchSize : Nat := 50
def resultWriteMaxAttempts : Nat := 3
def batchStatusWriteMaxAttempts : Nat := 3

/-- `load_config` accepts no `BATCH_PAGE_SIZE` below one. -/
structure ServiceConfig where
  executor : BatchExecutor
  pendingBatchLimit : Nat
  batchPageSize : Nat
  batchPageSize_pos : 0 < batchPageSize

/-- An insert returns, or it raises `ClickHouseError` before or after the
server has accepted its rows. -/
inductive InsertOutcome
  | ok
  | raisedBefore
  | raisedAfter
  deriving DecidableEq

def InsertOutcome.accepted : InsertOutcome → Bool
  | .ok | .raisedAfter => true
  | .raisedBefore => false

def clickHouseError : Exc := ⟨.clickHouseError, "connection lost"⟩

/-- Where the run stands; `attempt` is the number of the attempt under way. -/
inductive BatchPc
  | fetching
  | consuming
  | writing (attempt : Nat)
  | counting
  | reporting (counts : Counts) (attempt : Nat)
  | returned
  | failed (e : Exc)
  deriving DecidableEq

/-- `pool` is the iteration over the last page fetched. -/
structure Batch where
  id : UUID
  pc : BatchPc
  pool : Pool
  pending : List LLMResult
  deriving DecidableEq

inductive BatchAction
  | fetch
  | pool (a : PoolAction)
  | next
  | insert (outcome : InsertOutcome)
  | count
  | readError
  deriving DecidableEq

namespace Batch

/-- A call of `process_single_batch`; no page has been fetched. -/
def start (b : UUID) : Batch := ⟨b, .fetching, { Pool.start [] with pc := .exhausted }, []⟩

/-- The body of the loop over the results. -/
def receive (batch : Batch) (result : LLMResult) : Batch :=
  { batch with
    pc := if resultWriteBatchSize ≤ batch.pending.length + 1 then .writing 1 else .consuming
    pending := batch.pending ++ [result] }

/-- The way on from an attempt to insert: `done` after a success, the next
attempt after an error, and the error itself after the last attempt. -/
def afterInsert (batch : Batch) (outcome : InsertOutcome) (done : Batch) (again : BatchPc)
    (more : Prop) [Decidable more] : Batch :=
  if outcome = .ok then done
  else if more then { batch with pc := again }
  else { batch with pc := .failed clickHouseError }

def afterWrite (batch : Batch) (outcome : InsertOutcome) (attempt : Nat) : Batch :=
  batch.afterInsert outcome { batch with pc := .consuming, pending := [] }
    (.writing (attempt + 1)) (attempt < resultWriteMaxAttempts)

def afterReport (batch : Batch) (outcome : InsertOutcome) (counts : Counts) (attempt : Nat) : Batch :=
  batch.afterInsert outcome { batch with pc := .returned }
    (.reporting counts (attempt + 1)) (attempt < batchStatusWriteMaxAttempts)

def step (cfg : ServiceConfig) (s : Store) (batch : Batch) : BatchAction → Option (Store × Batch)
  | .pool (.thread i a) =>
    (batch.pool.threadStep cfg.executor i a).map fun p => (s, { batch with pool := p })
  | .pool (.main a) =>
    if batch.pc = .consuming then
      (batch.pool.mainStep cfg.executor a).map fun
        | (p, none) => (s, { batch with pool := p })
        | (p, some result) => (s, { batch with pool := p }.receive result)
    else
      none
  | .fetch =>
    if batch.pc = .fetching then
      match s.getBatchRows cfg.batchPageSize batch.id with
      | [] => some (s, { batch with pc := .counting })
      | row :: rows =>
        some (s, { batch with pc := .consuming, pool := Pool.start (row :: rows), pending := [] })
    else
      none
  | .next =>
    match batch.pc, batch.pool.pc with
    | .consuming, .exhausted =>
      some (s, { batch with pc := if batch.pending = [] then .fetching else .writing 1 })
    | .consuming, .raised e => some (s, { batch with pc := .failed e })
    | _, _ => none
  | .insert outcome =>
    match batch.pc with
    | .writing attempt =>
      some (if outcome.accepted then s.writeResults batch.pending else s,
        batch.afterWrite outcome attempt)
    | .reporting counts attempt =>
      some (if outcome.accepted then s.writeBatchStatus batch.id .complete counts else s,
        batch.afterReport outcome counts attempt)
    | _ => none
  | .count =>
    if batch.pc = .counting then
      some (s, { batch with pc := .reporting (s.getBatchCounts batch.id) 1 })
    else
      none
  | .readError =>
    if batch.pc = .fetching ∨ batch.pc = .counting then
      some (s, { batch with pc := .failed clickHouseError })
    else
      none

/-- One run of `process_single_batch` over the tables `s₀`, with no other worker. -/
def processSingleBatch (cfg : ServiceConfig) (b : UUID) (s₀ : Store) :
    Transition.LTS (Store × Batch) BatchAction :=
  .ofFn (fun s => s = (s₀, start b)) fun s a => step cfg s.1 s.2 a

-- ---------------------------------------------------------------------------
-- What one step does
-- ---------------------------------------------------------------------------

/-- The steps of a run, one constructor for each way through the code. -/
inductive Step (cfg : ServiceConfig) (s : Store) (batch : Batch) :
    BatchAction → Store → Batch → Prop
  | thread (h : batch.pool.threadStep cfg.executor i a = some p) :
      Step cfg s batch (.pool (.thread i a)) s { batch with pool := p }
  | silent (hpc : batch.pc = .consuming) (h : batch.pool.mainStep cfg.executor a = some (p, none)) :
      Step cfg s batch (.pool (.main a)) s { batch with pool := p }
  | receive (hpc : batch.pc = .consuming)
      (h : batch.pool.mainStep cfg.executor a = some (p, some result)) :
      Step cfg s batch (.pool (.main a)) s ({ batch with pool := p }.receive result)
  | empty (hpc : batch.pc = .fetching) (h : s.getBatchRows cfg.batchPageSize batch.id = []) :
      Step cfg s batch .fetch s { batch with pc := .counting }
  | page (hpc : batch.pc = .fetching) (h : s.getBatchRows cfg.batchPageSize batch.id ≠ []) :
      Step cfg s batch .fetch s { batch with
        pc := .consuming
        pool := Pool.start (s.getBatchRows cfg.batchPageSize batch.id)
        pending := [] }
  | turn (hpc : batch.pc = .consuming) (hpool : batch.pool.pc = .exhausted)
      (h : batch.pending = []) : Step cfg s batch .next s { batch with pc := .fetching }
  | flush (hpc : batch.pc = .consuming) (hpool : batch.pool.pc = .exhausted)
      (h : batch.pending ≠ []) : Step cfg s batch .next s { batch with pc := .writing 1 }
  | raised (hpc : batch.pc = .consuming) (hpool : batch.pool.pc = .raised e) :
      Step cfg s batch .next s { batch with pc := .failed e }
  | write (hpc : batch.pc = .writing attempt) :
      Step cfg s batch (.insert outcome)
        (if outcome.accepted then s.writeResults batch.pending else s)
        (batch.afterWrite outcome attempt)
  | report (hpc : batch.pc = .reporting counts attempt) :
      Step cfg s batch (.insert outcome)
        (if outcome.accepted then s.writeBatchStatus batch.id .complete counts else s)
        (batch.afterReport outcome counts attempt)
  | count (hpc : batch.pc = .counting) :
      Step cfg s batch .count s { batch with pc := .reporting (s.getBatchCounts batch.id) 1 }
  | readError (hpc : batch.pc = .fetching ∨ batch.pc = .counting) :
      Step cfg s batch .readError s { batch with pc := .failed clickHouseError }

theorem step_inv (h : step cfg s batch a = some (s', batch')) : Step cfg s batch a s' batch' := by
  cases a with
  | pool a =>
    cases a with
    | thread i a =>
      obtain ⟨p, hp, hpair⟩ := Option.map_eq_some_iff.mp h
      cases hpair
      exact .thread hp
    | main a =>
      simp only [step] at h
      split at h
      · rename_i hpc
        obtain ⟨⟨p, out⟩, hp, hpair⟩ := Option.map_eq_some_iff.mp h
        cases out <;> cases hpair
        · exact .silent hpc hp
        · exact .receive hpc hp
      · cases h
  | fetch =>
    simp only [step] at h
    split at h
    · rename_i hpc
      split at h
      · rename_i hnil
        cases h
        exact .empty hpc hnil
      · rename_i row rows hrows
        cases h
        rw [← hrows]
        exact .page hpc (by simp [hrows])
    · cases h
  | next =>
    simp only [step] at h
    split at h
    · rename_i hpc hpool
      by_cases hnil : batch.pending = []
      · rw [if_pos hnil] at h
        cases h
        exact .turn hpc hpool hnil
      · rw [if_neg hnil] at h
        cases h
        exact .flush hpc hpool hnil
    · rename_i e hpc hpool
      cases h
      exact .raised hpc hpool
    · cases h
  | insert outcome =>
    simp only [step] at h
    split at h
    · rename_i attempt hpc
      cases h
      exact .write hpc
    · rename_i counts attempt hpc
      cases h
      exact .report hpc
    · cases h
  | count =>
    simp only [step] at h
    split at h
    · rename_i hpc
      cases h
      exact .count hpc
    · cases h
  | readError =>
    simp only [step] at h
    split at h
    · rename_i hpc
      cases h
      exact .readError hpc
    · cases h

@[simp] theorem id_receive (batch : Batch) (result : LLMResult) : (batch.receive result).id = batch.id := rfl

theorem afterInsert_cases (batch : Batch) (outcome : InsertOutcome) (done : Batch) (again : BatchPc)
    (more : Prop) [Decidable more] :
    (outcome = .ok ∧ batch.afterInsert outcome done again more = done) ∨
      outcome ≠ .ok ∧ (batch.afterInsert outcome done again more = { batch with pc := again } ∧ more ∨
        batch.afterInsert outcome done again more = { batch with pc := .failed clickHouseError } ∧
          ¬more) := by
  unfold afterInsert
  by_cases hok : outcome = .ok
  · simp [hok]
  · by_cases hmore : more <;> simp [hok, hmore]

theorem afterWrite_cases (batch : Batch) (outcome : InsertOutcome) (attempt : Nat) :
    (outcome = .ok ∧ batch.afterWrite outcome attempt = { batch with pc := .consuming, pending := [] }) ∨
      outcome ≠ .ok ∧
        (batch.afterWrite outcome attempt = { batch with pc := .writing (attempt + 1) } ∧
            attempt < resultWriteMaxAttempts ∨
          batch.afterWrite outcome attempt = { batch with pc := .failed clickHouseError } ∧
            ¬attempt < resultWriteMaxAttempts) :=
  afterInsert_cases ..

theorem afterReport_cases (batch : Batch) (outcome : InsertOutcome) (counts : Counts) (attempt : Nat) :
    (outcome = .ok ∧ batch.afterReport outcome counts attempt = { batch with pc := .returned }) ∨
      outcome ≠ .ok ∧
        (batch.afterReport outcome counts attempt = { batch with pc := .reporting counts (attempt + 1) } ∧
            attempt < batchStatusWriteMaxAttempts ∨
          batch.afterReport outcome counts attempt = { batch with pc := .failed clickHouseError } ∧
            ¬attempt < batchStatusWriteMaxAttempts) :=
  afterInsert_cases ..

theorem id_afterWrite (batch : Batch) (outcome : InsertOutcome) (attempt : Nat) :
    (batch.afterWrite outcome attempt).id = batch.id := by
  rcases afterWrite_cases batch outcome attempt with ⟨-, h⟩ | ⟨-, ⟨h, -⟩ | ⟨h, -⟩⟩ <;> rw [h]

theorem id_afterReport (batch : Batch) (outcome : InsertOutcome) (counts : Counts) (attempt : Nat) :
    (batch.afterReport outcome counts attempt).id = batch.id := by
  rcases afterReport_cases batch outcome counts attempt with ⟨-, h⟩ | ⟨-, ⟨h, -⟩ | ⟨h, -⟩⟩ <;> rw [h]

theorem pool_afterWrite (batch : Batch) (outcome : InsertOutcome) (attempt : Nat) :
    (batch.afterWrite outcome attempt).pool = batch.pool := by
  rcases afterWrite_cases batch outcome attempt with ⟨-, h⟩ | ⟨-, ⟨h, -⟩ | ⟨h, -⟩⟩ <;> rw [h]

theorem pool_afterReport (batch : Batch) (outcome : InsertOutcome) (counts : Counts) (attempt : Nat) :
    (batch.afterReport outcome counts attempt).pool = batch.pool := by
  rcases afterReport_cases batch outcome counts attempt with ⟨-, h⟩ | ⟨-, ⟨h, -⟩ | ⟨h, -⟩⟩ <;> rw [h]

end Batch

end LlmWorker
