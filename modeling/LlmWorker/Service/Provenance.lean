import LlmWorker.Executor.Earned
import LlmWorker.Service.Abort
import LlmWorker.Service.Worker

/-!
# Where a stored result comes from

Any workers over one store, with crashes, lost acknowledgements and rows added
at any time: `llm_results` never holds a row that some input row of a submitted
batch has not earned, by the calls that the run has made so far.
-/

namespace LlmWorker

open Python Transition
open BatchExecutor (MayAnswer)

namespace Store

def RowOf (s : Store) (b : UUID) (row : LLMInput) : Prop := row ∈ s.inputs ∧ row.batchId = b

/-- The rows of a submitted batch have earned the result. -/
def Earned (x : BatchExecutor) (made : Call → Prop) (s : Store) (b : UUID) (result : LLMResult) : Prop :=
  s.HasStatus b .pending ∧ ∃ row, s.RowOf b row ∧ x.Earns made (s.RowOf b) row result

structure Keeps (s s' : Store) : Prop where
  inputs : ∀ row ∈ s.inputs, row ∈ s'.inputs
  submitted : ∀ b, s.HasStatus b .pending → s'.HasStatus b .pending

theorem Keeps.refl (s : Store) : Keeps s s := ⟨fun _ hrow => hrow, fun _ hb => hb⟩

theorem Keeps.rowOf (h : Keeps s s') (b : UUID) : ∀ row, s.RowOf b row → s'.RowOf b row :=
  fun row hrow => ⟨h.inputs row hrow.1, hrow.2⟩

theorem Earned.mono (h : s.Earned x made b result) (hmade : ∀ c, made c → made' c) (hk : Keeps s s') :
    s'.Earned x made' b result := by
  obtain ⟨hb, row, hrow, hearns⟩ := h
  exact ⟨hk.submitted b hb, row, hk.rowOf b row hrow, hearns.mono hmade (hk.rowOf b)⟩

theorem keeps_writeResults (s : Store) (results : List LLMResult) : Keeps s (s.writeResults results) :=
  ⟨fun _ hrow => hrow, fun _ hb => hb⟩

theorem keeps_writeBatchStatus (s : Store) (b : UUID) (status : BatchStatus) (counts : Counts) :
    Keeps s (s.writeBatchStatus b status counts) :=
  ⟨fun _ hrow => hrow, fun _ hb => hasStatus_writeBatchStatus.mpr (.inl hb)⟩

theorem keeps_env (h : s.env e = some s') : Keeps s s' := by
  cases e with
  | addInput row =>
    cases h
    exact ⟨fun _ hrow => List.mem_append_left _ hrow, fun _ hb => hb⟩
  | addPending b =>
    cases h
    exact keeps_writeBatchStatus s b .pending ⟨0, 0, 0⟩

end Store

-- ---------------------------------------------------------------------------
-- One run of process_single_batch
-- ---------------------------------------------------------------------------

namespace Batch

def asked (batch : Batch) : BatchAction → Option Call
  | .pool a => batch.pool.asked a
  | _ => none

structure Earned (cfg : ServiceConfig) (made : Call → Prop) (s : Store) (batch : Batch) : Prop where
  submitted : s.HasStatus batch.id .pending
  pool : batch.pool.Earned cfg.executor made (s.RowOf batch.id)
  pending : ∀ result ∈ batch.pending, s.Earned cfg.executor made batch.id result

variable {cfg : ServiceConfig} {made made' : Call → Prop} {s s' : Store} {batch batch' : Batch}

theorem Earned.mono (h : batch.Earned cfg made s) (hmade : ∀ c, made c → made' c) (hk : Store.Keeps s s') :
    batch.Earned cfg made' s' :=
  ⟨hk.submitted _ h.submitted, h.pool.mono hmade (hk.rowOf _), fun result hr => (h.pending result hr).mono hmade hk⟩

theorem Earned.goto (h : batch.Earned cfg made s) (pc : BatchPc) : Earned cfg made s { batch with pc := pc } :=
  ⟨h.submitted, h.pool, h.pending⟩

theorem earned_start (hb : s.HasStatus b .pending) : (start b).Earned cfg made s where
  submitted := hb
  pool := ⟨by simp [start, Pool.start], by simp [start, Pool.start], by simp [start, Pool.start],
    by simp [start, Pool.start], by simp [start, Pool.start], trivial⟩
  pending := by simp [start]

theorem keeps_step (h : Step cfg s batch a s' batch') : Store.Keeps s s' := by
  cases h with
  | write =>
    split
    · exact Store.keeps_writeResults s _
    · exact .refl s
  | report =>
    split
    · exact Store.keeps_writeBatchStatus s _ _ _
    · exact .refl s
  | _ => exact .refl s

theorem earned_step (he : batch.Earned cfg made s) (hmade : ∀ c ∈ batch.asked a, made c)
    (h : Step cfg s batch a s' batch') : batch'.Earned cfg made s' := by
  have hk := keeps_step h
  cases h with
  | thread hp => exact ⟨he.submitted, Pool.earned_thread he.pool hmade hp, he.pending⟩
  | silent hpc hp => exact ⟨he.submitted, (Pool.earned_main he.pool (Pool.mainStep_inv hp)).1, he.pending⟩
  | @receive a p result hpc hp =>
    obtain ⟨hpool, hout⟩ := Pool.earned_main he.pool (Pool.mainStep_inv hp)
    refine ⟨he.submitted, hpool, fun r hr => ?_⟩
    rcases List.mem_append.mp hr with hold | hnew
    · exact he.pending r hold
    · obtain rfl : r = result := by simpa using hnew
      exact ⟨he.submitted, hout r rfl⟩
  | page hpc =>
    refine ⟨he.submitted, Pool.earned_start fun row hrow => ?_, by simp⟩
    obtain ⟨hin, hid, -⟩ := Store.mem_getBatchRows hrow
    exact ⟨hin, hid⟩
  | empty | turn | flush | raised | count | readError => exact he.goto _
  | @write attempt outcome hpc =>
    have he' := he.mono (fun _ hc => hc) hk
    rcases afterWrite_cases batch outcome attempt with ⟨-, heq⟩ | ⟨-, ⟨heq, -⟩ | ⟨heq, -⟩⟩ <;> rw [heq]
    · exact ⟨he'.submitted, he'.pool, by simp⟩
    · exact he'.goto _
    · exact he'.goto _
  | @report counts attempt outcome hpc =>
    have he' := he.mono (fun _ hc => hc) hk
    rcases afterReport_cases batch outcome counts attempt with ⟨-, heq⟩ | ⟨-, ⟨heq, -⟩ | ⟨heq, -⟩⟩ <;> rw [heq] <;>
      exact he'.goto _

theorem results_step (he : batch.Earned cfg made s) (h : Step cfg s batch a s' batch') :
    ∀ result ∈ s'.results, result ∈ s.results ∨ s'.Earned cfg.executor made batch.id result := by
  have hk := keeps_step h
  intro result hr
  cases h with
  | write =>
    split at hr
    · rcases List.mem_append.mp hr with hold | hnew
      · exact .inl hold
      · exact .inr ((he.pending result hnew).mono (fun _ hc => hc) hk)
    · exact .inl hr
  | report => split at hr <;> exact .inl hr
  | _ => exact .inl hr

end Batch

-- ---------------------------------------------------------------------------
-- The workers
-- ---------------------------------------------------------------------------

namespace Worker

def asked (w : Worker) (a : WorkerAction) : Option Call :=
  match w.pc, a with
  | .processing batch _, .batch a => batch.asked a
  | _, _ => none

/-- The calls that a step answers, those of threads left behind included. -/
def calls (w : Worker) : WorkerAction → List Call
  | .leftover j i a => (w.abandoned[j]?.bind fun p => p.asked (.thread i a)).toList
  | a => (w.asked a).toList

theorem asked_mem_calls {w : Worker} (h : c ∈ w.asked a) : c ∈ w.calls a := by
  cases a with
  | leftover =>
    unfold asked at h
    split at h <;> simp_all
  | _ => simpa [calls] using h

/-- An answer to a request of the batch at hand is one that the provider may give. -/
def Answered (P : MayAnswer) (w : Worker) (a : WorkerAction) : Prop := ∀ c ∈ w.asked a, P c.request c.outcome

instance (P : MayAnswer) [∀ request, DecidablePred (P request)] (w : Worker) : DecidablePred (Answered P w) :=
  fun a => by
    unfold Answered
    infer_instance

def Earned (cfg : ServiceConfig) (made : Call → Prop) (s : Store) (w : Worker) : Prop :=
  match w.pc with
  | .batches rest => ∀ b ∈ rest, s.HasStatus b .pending
  | .processing batch rest => batch.Earned cfg made s ∧ ∀ b ∈ rest, s.HasStatus b .pending
  | _ => True

variable {cfg : ServiceConfig} {made made' : Call → Prop} {s s' : Store} {w w' : Worker}

theorem Earned.mono (h : w.Earned cfg made s) (hmade : ∀ c, made c → made' c) (hk : Store.Keeps s s') :
    w.Earned cfg made' s' := by
  unfold Earned at h ⊢
  cases hpc : w.pc with
  | batches rest =>
    rw [hpc] at h
    exact fun b hb => hk.submitted b (h b hb)
  | processing batch rest =>
    rw [hpc] at h
    exact ⟨h.1.mono hmade hk, fun b hb => hk.submitted b (h.2 b hb)⟩
  | _ => trivial

theorem earned_afterError (w : Worker) : w.afterError.Earned cfg made s := by
  unfold Earned afterError
  cases w.shouldStop <;> trivial

theorem keeps_step (h : Step cfg s w a s' w') : Store.Keeps s s' := by
  cases h with
  | batch _ hb => exact Batch.keeps_step hb
  | _ => exact .refl s

theorem earned_step (he : w.Earned cfg made s) (hmade : ∀ c ∈ w.asked a, made c) (h : Step cfg s w a s' w') :
    w'.Earned cfg made s' := by
  have hpc' := he
  unfold Earned at hpc'
  cases h with
  | signal | leftover => exact he
  | loop => cases hs : w.shouldStop <;> simp [Earned]
  | take hpc =>
    rw [hpc] at hpc'
    exact ⟨Batch.earned_start (hpc' _ (by simp)), fun b hb => hpc' b (List.mem_cons_of_mem _ hb)⟩
  | finish hpc =>
    rw [hpc] at hpc'
    exact hpc'.2
  | poll => exact fun b hb => (Store.mem_getPendingBatches hb).1
  | giveUp | readError => exact earned_afterError _
  | batch hpc hb =>
    rw [hpc] at hpc'
    refine ⟨Batch.earned_step hpc'.1 (fun c hc => hmade c ?_) hb, fun b hmem => ?_⟩
    · simpa [asked, hpc] using hc
    · exact (Batch.keeps_step hb).submitted b (hpc'.2 b hmem)
  | _ => exact trivial

theorem results_step (he : w.Earned cfg made s) (h : Step cfg s w a s' w') :
    ∀ result ∈ s'.results, result ∈ s.results ∨ ∃ b, s'.Earned cfg.executor made b result := by
  cases h with
  | batch hpc hb =>
    unfold Earned at he
    rw [hpc] at he
    exact fun result hr => (Batch.results_step he.1 hb result hr).imp_right fun h => ⟨_, h⟩
  | _ => exact fun result hr => .inl hr

end Worker

section

variable {ι : Type} [DecidableEq ι] {cfg : ServiceConfig} {P : MayAnswer}

/-- All that is stored has been earned by the calls noted, when those of the
iterations at hand are among them. -/
theorem noted_earned {note : Worker → WorkerAction → List Call} {s : (Store × List Call) × (ι → Worker)}
    (hnote : ∀ {w a}, ∀ c ∈ w.asked a, c ∈ note w a)
    (h : ((service cfg : Shared Store ι _ _ _).noted note).lts.Reachable s) (hr : result ∈ s.1.1.results) :
    s.1.1.Earned cfg.executor (· ∈ s.1.2) result.batchId result := by
  have hall := (Shared.always
    (G := fun s => ∀ result ∈ s.1.results, ∃ b, s.1.Earned cfg.executor (· ∈ s.2) b result)
    (L := fun s w => w.Earned cfg (· ∈ s.2) s.1)
    (R := fun s s' => Store.Keeps s.1 s'.1 ∧ ∀ c ∈ s.2, c ∈ s'.2) ?_ ?_ ?_ ?_ h).1 result hr
  · obtain ⟨b, hb, row, hrow, hearns⟩ := hall
    obtain rfl : b = result.batchId := by
      rw [← hrow.2]
      exact (congrArg Prod.fst hearns.key).symm
    exact ⟨hb, row, hrow, hearns⟩
  · rintro ⟨s, calls⟩ w ⟨⟨rfl, hdown⟩, hnil⟩
    refine ⟨by simp [Store.empty], fun i => ?_⟩
    rw [hdown i]
    trivial
  · rintro ⟨s, calls⟩ w i a ⟨s', calls'⟩ w' - hs hw ⟨hact, hcalls⟩
    obtain rfl : calls' = calls ++ note (w i) a := hcalls
    have hstep := Worker.step_inv hact
    have hk := Worker.keeps_step hstep
    have hold : ∀ c ∈ calls, c ∈ calls ++ note (w i) a := fun c hc => List.mem_append_left _ hc
    -- The step may use the call that it answers itself.
    have hw := hw.mono hold (.refl s)
    refine ⟨fun result hr => ?_, Worker.earned_step hw (fun c hc => List.mem_append_right _ (hnote c hc)) hstep,
      hk, hold⟩
    rcases Worker.results_step hw hstep result hr with hold' | hnew
    · obtain ⟨b, hb⟩ := hs result hold'
      exact ⟨b, hb.mono hold hk⟩
    · exact hnew
  · rintro ⟨s, calls⟩ e ⟨s', calls'⟩ hs ⟨henv, hcalls⟩
    obtain rfl : calls' = calls := hcalls
    have hk := Store.keeps_env henv
    refine ⟨fun result hr => ?_, hk, fun c hc => hc⟩
    have hold : result ∈ s.results := by
      cases e <;> cases henv <;> exact hr
    obtain ⟨b, hb⟩ := hs result hold
    exact ⟨b, hb.mono (fun _ hc => hc) hk⟩
  · rintro s s' w - ⟨hk, hcalls⟩ hw
    exact hw.mono hcalls hk

theorem service_earned {s : Store × (ι → Worker)}
    (h : ((service cfg : Shared Store ι _ _ _).restrict (Worker.Answered P) fun _ _ => True).lts.Reachable s)
    (hr : result ∈ s.1.results) :
    s.1.Earned cfg.executor (fun c => P c.request c.outcome) result.batchId result := by
  let note (w : Worker) (a : WorkerAction) : List Call := (w.asked a).toList
  obtain ⟨calls, hrestricted⟩ : ∃ calls, (((service cfg : Shared Store ι _ _ _).restrict (Worker.Answered P)
      fun _ _ => True).noted note).lts.Reachable ((s.1, calls), s.2) := Shared.reachable_noted h
  obtain ⟨hnoted, hmay⟩ : ((service cfg).noted note).lts.Reachable ((s.1, calls), s.2) ∧
      ∀ c ∈ calls, P c.request c.outcome :=
    Shared.noted_restrict (fun hok c hc => hok c (by simpa [note] using hc)) hrestricted
  exact (noted_earned (fun c hc => by simpa [note] using hc) hnoted hr).mono hmay (.refl _)

/-- In every run, with the calls it has made so far: every stored result is one
that an input row of a submitted batch has earned. It completed with the answer
to the last call of an attempt at that very row, it failed with the row's own
parse error or with the error of such a last call, or the last call for some row
of the same batch has aborted it. -/
theorem stored_results_earned {s : (Store × List Call) × (ι → Worker)}
    (h : ((service cfg : Shared Store ι _ _ _).noted Worker.calls).lts.Reachable s) (hr : result ∈ s.1.1.results) :
    s.1.1.HasStatus result.batchId .pending ∧ ∃ row, s.1.1.RowOf result.batchId row ∧ row.key = result.key ∧
      cfg.executor.Earns (· ∈ s.1.2) (s.1.1.RowOf result.batchId) row result := by
  obtain ⟨hb, row, hrow, hearns⟩ := noted_earned (fun _ => Worker.asked_mem_calls) h hr
  exact ⟨hb, row, hrow, hearns.key.symm, hearns⟩

end

/-- The provider denies the first row of a page, and the second one is given up with it. -/
theorem stored_results_earned_denied : ∃ s : (Store × List Call) × (Unit → Worker),
    abortedResult (plainRow 1 2) ∈ s.1.1.results ∧
      onePageOf2.executor.Earns (· ∈ s.1.2) (s.1.1.RowOf 1) (plainRow 1 2) (abortedResult (plainRow 1 2)) := by
  have hexec : (LTS.exec (guardedNext onePageOf2 (fun _ _ => True) fun _ _ => True) (.empty, fun _ : Unit => .down)
      (submitted [plainRow 1 1, plainRow 1 2] 1 ++ onWorker () ([.start, .next, .poll, .next] ++
        inBatch (untilDenied 1 ++ .pool (.thread 0 .set) :: .pool (.thread 1 .start) :: lateOnPage)))).map
      (fun s => decide (abortedResult (plainRow 1 2) ∈ s.1.results ∧ s.1.inputs = twoRows.inputs)) = some true := by
    decide +kernel
  obtain ⟨s, hreach, hend⟩ := reachable_of_exec _ _ _ hexec
  obtain ⟨hr, hinputs⟩ := of_decide_eq_true hend
  obtain ⟨calls, hnoted⟩ : ∃ calls, (((service onePageOf2 : Shared Store Unit _ _ _).restrict (fun _ _ => True)
      fun _ _ => True).noted Worker.calls).lts.Reachable ((s.1, calls), s.2) := Shared.reachable_noted hreach
  have hnoted := (Shared.noted_restrict (p := fun _ => True) (fun _ _ _ => trivial) hnoted).1
  obtain ⟨-, row, hrow, hkey, hearns⟩ := stored_results_earned hnoted hr
  obtain rfl : row = plainRow 1 2 := by
    have hmem : row ∈ [plainRow 1 1, plainRow 1 2] := by
      have hin := hrow.1
      rwa [hinputs] at hin
    rcases List.mem_pair.mp hmem with rfl | rfl
    · cases hkey
    · rfl
  exact ⟨_, hr, hearns⟩

end LlmWorker
