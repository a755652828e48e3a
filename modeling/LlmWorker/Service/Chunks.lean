import LlmWorker.Lib.Program
import LlmWorker.Service.Batch

/-!
# Writing the results in chunks

`_write_results_in_chunks` and `_write_results_with_retry` as one program,
whose only operation is a call of `write_results`. Unlike a run of the batch,
where each failing insert raises `ClickHouseError`, a call may raise anything
here. What the program hands over is a partition of the stream, cut off after
the first chunk that fails for good.
-/

namespace LlmWorker

open Python Transition

/-- Code whose operations are calls of `write_results`. -/
abbrev Writing := ExceptT Exc (Program (List LLMResult) fun _ => Result Unit)

-- ---------------------------------------------------------------------------
-- The code
-- ---------------------------------------------------------------------------

def writeResults (results : List LLMResult) : Writing Unit := ExceptT.mk (Program.ask results .done)

/-- The attempts of `Retrying` from one on that `more` can follow. -/
def attemptWrite (results : List LLMResult) : Nat → Writing Unit
  | 0 => writeResults results
  | more + 1 =>
    tryCatch (writeResults results) fun exc =>
      if exc.type = .clickHouseError then attemptWrite results more else throw exc

def writeResultsWithRetry (results : List LLMResult) : Writing Unit :=
  attemptWrite results (resultWriteMaxAttempts - 1)

/-- The loop over the results, and what follows it. -/
def writeResultsInChunks (pending : List LLMResult) : List LLMResult → Writing Unit
  | [] => if pending ≠ [] then writeResultsWithRetry pending else return ()
  | result :: results =>
    if resultWriteBatchSize ≤ (pending ++ [result]).length then do
      writeResultsWithRetry (pending ++ [result])
      writeResultsInChunks [] results
    else
      writeResultsInChunks (pending ++ [result]) results

-- ---------------------------------------------------------------------------
-- The partition
-- ---------------------------------------------------------------------------

def chunksOf (pending : List LLMResult) : List LLMResult → List (List LLMResult)
  | [] => if pending ≠ [] then [pending] else []
  | result :: results =>
    if resultWriteBatchSize ≤ (pending ++ [result]).length then
      (pending ++ [result]) :: chunksOf [] results
    else
      chunksOf (pending ++ [result]) results

/-- Consecutive parts of a list, the last of which may be smaller than the others. -/
structure Chunking (results : List LLMResult) (chunks : List (List LLMResult)) : Prop where
  flatten : chunks.flatten = results
  full : ∀ chunk ∈ chunks.dropLast, chunk.length = 50
  last : ∀ chunk, chunks.getLast? = some chunk → 1 ≤ chunk.length ∧ chunk.length ≤ 50

theorem Chunking.cons (h : Chunking results chunks) (hchunk : chunk.length = 50) :
    Chunking (chunk ++ results) (chunk :: chunks) where
  flatten := by rw [List.flatten_cons, h.flatten]
  full c hc := by
    cases chunks with
    | nil => cases hc
    | cons next chunks =>
      rw [List.dropLast_cons_cons] at hc
      rcases List.mem_cons.mp hc with rfl | hc
      · exact hchunk
      · exact h.full c hc
  last c hc := by
    cases chunks with
    | nil =>
      cases hc
      simp [hchunk]
    | cons next chunks => exact h.last c (by rwa [List.getLast?_cons_cons] at hc)

theorem chunking_chunksOf (h : pending.length < resultWriteBatchSize) :
    Chunking (pending ++ results) (chunksOf pending results) := by
  induction results generalizing pending with
  | nil =>
    rw [List.append_nil]
    by_cases hnil : pending = []
    · subst hnil
      exact ⟨rfl, by simp [chunksOf], by simp [chunksOf]⟩
    · have hpos : 0 < pending.length := List.length_pos_iff.mpr hnil
      rw [chunksOf, if_pos hnil]
      refine ⟨by simp, by simp, fun chunk hchunk => ?_⟩
      cases hchunk
      exact ⟨hpos, Nat.le_of_lt h⟩
  | cons result results ih =>
    rw [chunksOf, List.append_cons]
    split
    · rename_i hfull
      have hlength : (pending ++ [result]).length = 50 := by
        simp only [resultWriteBatchSize, List.length_append, List.length_singleton] at h hfull ⊢
        omega
      have hempty : ([] : List LLMResult).length < resultWriteBatchSize := by decide
      exact (ih hempty).cons hlength
    · rename_i hroom
      exact ih (Nat.not_le.mp hroom)

-- ---------------------------------------------------------------------------
-- The calls
-- ---------------------------------------------------------------------------

structure Attempted where
  chunk : List LLMResult
  earlier : List (Result Unit)
  outcome : Result Unit

namespace Attempted

def calls (a : Attempted) : List (List LLMResult × Result Unit) :=
  (a.earlier ++ [a.outcome]).map fun answer => (a.chunk, answer)

/-- At most three attempts, each but the first after a `ClickHouseError`. -/
structure Retried (a : Attempted) : Prop where
  few : a.earlier.length < 3
  again : ∀ answer ∈ a.earlier, ∃ e, answer = .error e ∧ e.type = .clickHouseError
  final : ∀ e, a.outcome = .error e → e.type = .clickHouseError → a.earlier.length + 1 = 3

end Attempted

section
variable (answers : Nat → Result Unit)

/-- The answers in turn, with a log of the calls. -/
def serveWrites (chunk : List LLMResult) (log : List (List LLMResult × Result Unit)) :
    Result Unit × List (List LLMResult × Result Unit) :=
  (answers log.length, log ++ [(chunk, answers log.length)])

def runWrites (x : Writing Unit) (log : List (List LLMResult × Result Unit)) :
    Result Unit × List (List LLMResult × Result Unit) :=
  x.run.interp (serveWrites answers) log

variable {answers}

theorem runWrites_bind (x : Writing Unit) (y : Writing Unit) :
    runWrites answers (x >>= fun _ => y) log =
      match runWrites answers x log with
      | (.ok (), log') => runWrites answers y log'
      | (.error e, log') => (.error e, log') := by
  show Program.interp _ (x.run >>= _) log = _
  rw [Program.interp_bind, runWrites]
  cases Program.interp (serveWrites answers) x.run log with
  | mk r log' => cases r <;> rfl

theorem runWrites_tryCatch (x : Writing Unit) (handle : Exc → Writing Unit) :
    runWrites answers (tryCatch x handle) log =
      match runWrites answers x log with
      | (.ok (), log') => (.ok (), log')
      | (.error e, log') => runWrites answers (handle e) log' := by
  show Program.interp _ (x.run >>= _) log = _
  rw [Program.interp_bind, runWrites]
  cases Program.interp (serveWrites answers) x.run log with
  | mk r log' => cases r <;> rfl

theorem attemptWrite_spec (chunk : List LLMResult) (more : Nat) (log : List (List LLMResult × Result Unit)) :
    ∃ a : Attempted, a.chunk = chunk ∧
      runWrites answers (attemptWrite chunk more) log = (a.outcome, log ++ a.calls) ∧ a.earlier.length ≤ more ∧
      (∀ answer ∈ a.earlier, ∃ e, answer = .error e ∧ e.type = .clickHouseError) ∧
      ∀ e, a.outcome = .error e → e.type = .clickHouseError → a.earlier.length = more := by
  have hcall : runWrites answers (writeResults chunk) log =
      (answers log.length, log ++ [(chunk, answers log.length)]) := rfl
  induction more generalizing log with
  | zero => exact ⟨⟨chunk, [], answers log.length⟩, rfl, hcall, Nat.le_refl 0, by simp, fun _ _ _ => rfl⟩
  | succ more ih =>
    rw [attemptWrite, runWrites_tryCatch, hcall]
    cases hanswer : answers log.length with
    | ok u => exact ⟨⟨chunk, [], .ok ()⟩, rfl, rfl, Nat.zero_le _, by simp, nofun⟩
    | error e =>
      by_cases he : e.type = .clickHouseError
      · obtain ⟨a, rfl, hrun, hlength, hagain, hfinal⟩ := ih (log ++ [(chunk, .error e)]) rfl
        refine ⟨⟨a.chunk, .error e :: a.earlier, a.outcome⟩, rfl, ?_, Nat.succ_le_succ hlength, ?_, ?_⟩
        · simp only [if_pos he, hrun, Attempted.calls]
          simp
        · intro answer hmem
          rcases List.mem_cons.mp hmem with rfl | hmem
          · exact ⟨e, rfl, he⟩
          · exact hagain answer hmem
        · intro e' hout htype
          exact congrArg (· + 1) (hfinal e' hout htype)
      · refine ⟨⟨chunk, [], .error e⟩, rfl, ?_, Nat.zero_le _, by simp, ?_⟩
        · simp only [if_neg he]
          rfl
        · intro e' hout htype
          cases hout
          exact absurd htype he

theorem writeResultsWithRetry_spec (chunk : List LLMResult) (log : List (List LLMResult × Result Unit)) :
    ∃ a : Attempted, a.chunk = chunk ∧ a.Retried ∧
      runWrites answers (writeResultsWithRetry chunk) log = (a.outcome, log ++ a.calls) := by
  obtain ⟨a, hchunk, hrun, hlength, hagain, hfinal⟩ := attemptWrite_spec chunk 2 log
  exact ⟨a, hchunk, ⟨Nat.lt_succ_of_le hlength, hagain, fun e hout htype => by rw [hfinal e hout htype]⟩, hrun⟩

/-- How far the writing of some chunks has got, and what comes of it. -/
inductive Outcome (chunks : List (List LLMResult)) (attempted : List Attempted) : Result Unit → Prop
  | all (hchunks : attempted.map (·.chunk) = chunks) (hok : ∀ a ∈ attempted, a.outcome = .ok ()) :
      Outcome chunks attempted (.ok ())
  | stopped (hchunks : attempted.map (·.chunk) <+: chunks) (hsplit : attempted = done ++ [last])
      (hok : ∀ a ∈ done, a.outcome = .ok ()) (hlast : last.outcome = .error e) :
      Outcome chunks attempted (.error e)

theorem Outcome.cons (h : Outcome chunks attempted r) (ha : a.outcome = .ok ()) :
    Outcome (a.chunk :: chunks) (a :: attempted) r := by
  cases h with
  | all hchunks hok =>
    exact .all (by rw [List.map_cons, hchunks]) (List.forall_mem_cons.mpr ⟨ha, hok⟩)
  | stopped hchunks hsplit hok hlast =>
    subst hsplit
    refine .stopped ?_ (List.cons_append ..).symm (List.forall_mem_cons.mpr ⟨ha, hok⟩) hlast
    exact (List.prefix_cons_inj _).mpr hchunks

theorem writeResultsInChunks_spec (pending results : List LLMResult) (log : List (List LLMResult × Result Unit)) :
    ∃ (attempted : List Attempted) (r : Result Unit),
      runWrites answers (writeResultsInChunks pending results) log = (r, log ++ attempted.flatMap Attempted.calls) ∧
      (∀ a ∈ attempted, a.Retried) ∧ Outcome (chunksOf pending results) attempted r := by
  induction results generalizing pending log with
  | nil =>
    by_cases hnil : pending = []
    · subst hnil
      exact ⟨[], .ok (), by simp [writeResultsInChunks]; rfl, by simp, .all rfl (by simp)⟩
    · obtain ⟨a, rfl, hretried, hrun⟩ := writeResultsWithRetry_spec pending log
      rw [writeResultsInChunks, if_pos hnil, chunksOf, if_pos hnil]
      refine ⟨[a], a.outcome, by simpa using hrun, by simpa using hretried, ?_⟩
      cases hout : a.outcome with
      | ok u => exact .all rfl (by simpa using hout)
      | error e => exact .stopped (List.prefix_refl _) (List.nil_append _).symm (by simp) hout
  | cons result results ih =>
    rw [writeResultsInChunks, chunksOf]
    split
    · obtain ⟨a, hchunk, hretried, hrun⟩ := writeResultsWithRetry_spec (pending ++ [result]) log
      rw [← hchunk] at hrun ⊢
      rw [runWrites_bind, hrun]
      cases hout : a.outcome with
      | ok u =>
        obtain ⟨attempted, r, hrest, hall, houtcome⟩ := ih [] (log ++ a.calls)
        refine ⟨a :: attempted, r, ?_, List.forall_mem_cons.mpr ⟨hretried, hall⟩, houtcome.cons hout⟩
        simpa using hrest
      | error e =>
        refine ⟨[a], .error e, by simp, by simpa using hretried, ?_⟩
        exact .stopped (by simp) (List.nil_append _).symm (by simp) hout
    · exact ih (pending ++ [result]) log

end

/-- The calls of `_write_results_in_chunks` are those of its chunks in order,
each with its attempts, up to the first that fails for good. -/
theorem writeResultsInChunks_partitions (answers : Nat → Result Unit) (results : List LLMResult) :
    ∃ (chunks : List (List LLMResult)) (attempted : List Attempted), Chunking results chunks ∧
      (runWrites answers (writeResultsInChunks [] results) []).2 = attempted.flatMap Attempted.calls ∧
      (∀ a ∈ attempted, a.Retried) ∧
      Outcome chunks attempted (runWrites answers (writeResultsInChunks [] results) []).1 := by
  obtain ⟨attempted, r, hrun, hretried, houtcome⟩ := writeResultsInChunks_spec [] results []
  rw [hrun]
  have hempty : ([] : List LLMResult).length < resultWriteBatchSize := by decide
  exact ⟨chunksOf [] results, attempted, chunking_chunksOf hempty, List.nil_append _, hretried, houtcome⟩

-- ---------------------------------------------------------------------------
-- The steps of a batch
-- ---------------------------------------------------------------------------

def InsertOutcome.answer : InsertOutcome → Result Unit
  | .ok => .ok ()
  | .raisedBefore | .raisedAfter => .error clickHouseError

namespace Batch

/-- What is left of the program, when the results `later` are still to come. -/
def rest (batch : Batch) (later : List LLMResult) : Writing Unit :=
  match batch.pc with
  | .consuming => writeResultsInChunks batch.pending later
  | .writing attempt => do
    attemptWrite batch.pending (resultWriteMaxAttempts - attempt)
    writeResultsInChunks [] later
  | .failed e => throw e
  | _ => return ()

variable {batch : Batch} {answers : Nat → Result Unit}

theorem rest_receive (hpc : batch.pc = .consuming) :
    (batch.receive result).rest later = batch.rest (result :: later) := by
  simp only [rest, receive, hpc, writeResultsInChunks, List.length_append, List.length_singleton]
  by_cases hfull : resultWriteBatchSize ≤ batch.pending.length + 1
  · simp only [if_pos hfull]
    rfl
  · simp only [if_neg hfull]

theorem rest_flush (hpc : batch.pc = .consuming) (hpending : batch.pending ≠ []) :
    runWrites answers (Batch.rest { batch with pc := .writing 1 } []) log =
      runWrites answers (batch.rest []) log := by
  simp only [rest, hpc, runWrites_bind, writeResultsInChunks, if_pos hpending, writeResultsWithRetry]
  cases runWrites answers (attemptWrite batch.pending (resultWriteMaxAttempts - 1)) log with
  | mk r log' => cases r <;> rfl

theorem rest_insert (hpc : batch.pc = .writing attempt) (hattempt : attempt ≤ resultWriteMaxAttempts)
    (hanswer : answers log.length = InsertOutcome.answer outcome) :
    runWrites answers (batch.rest later) log =
      runWrites answers ((batch.afterWrite outcome attempt).rest later)
        (log ++ [(batch.pending, InsertOutcome.answer outcome)]) := by
  have hcall : runWrites answers (writeResults batch.pending) log =
      (InsertOutcome.answer outcome, log ++ [(batch.pending, InsertOutcome.answer outcome)]) := by
    rw [← hanswer]
    rfl
  have herror (hraised : outcome ≠ .ok) : InsertOutcome.answer outcome = .error clickHouseError := by
    cases outcome with
    | ok => exact absurd rfl hraised
    | _ => rfl
  rcases afterWrite_cases batch outcome attempt with ⟨rfl, hafter⟩ | ⟨hraised, ⟨hafter, hmore⟩ | ⟨hafter, hlast⟩⟩
  · rw [hafter]
    simp only [rest, hpc, runWrites_bind]
    cases hleft : resultWriteMaxAttempts - attempt <;> simp only [attemptWrite, runWrites_tryCatch, hcall] <;> rfl
  · have hleft : resultWriteMaxAttempts - attempt = (resultWriteMaxAttempts - (attempt + 1)) + 1 := by omega
    rw [hafter]
    simp only [rest, hpc, runWrites_bind, hleft, attemptWrite, runWrites_tryCatch, hcall, herror hraised]
    rfl
  · have hleft : resultWriteMaxAttempts - attempt = 0 := by omega
    rw [hafter]
    simp only [rest, hpc, runWrites_bind, hleft, attemptWrite, hcall, herror hraised]
    rfl

end Batch

end LlmWorker
