import LlmWorker.Service.Ledger

/-!
# No row is lost at completion

A worker reports a batch only after a page of it came back empty, and results
are never taken back, so what that page said stays true. This is a
rely-guarantee argument: it holds for any number of workers, through crashes,
restarts and inserts whose acknowledgement is lost.
-/

namespace LlmWorker

open Transition

namespace Ledger

def Job.SawEmptyPage : Job → Prop
  | .counting | .reporting _ | .returned => True
  | _ => False

variable {b : UUID}

/-- What holds of the tables: a batch is reported after it was pending and once it is covered. -/
def Sound (b : UUID) (s : Store) : Prop :=
  s.HasStatus b .complete → s.HasStatus b .pending ∧ s.Covered b

structure Honest (b : UUID) (s : Store) (w : Worker) : Prop where
  queue : b ∈ w.queue → s.HasStatus b .pending
  pending : ∀ job, w.job = some (b, job) → s.HasStatus b .pending
  covered : ∀ job, w.job = some (b, job) → job.SawEmptyPage → s.Covered b

def Grows (b : UUID) (s s' : Store) : Prop :=
  s.HasStatus b .pending → s'.HasStatus b .pending ∧ (s.Covered b → s'.Covered b)

theorem Honest.stable (h : Honest b s w) (hg : Grows b s s') : Honest b s' w :=
  ⟨fun hq => (hg (h.queue hq)).1, fun job hj => (hg (h.pending job hj)).1,
    fun job hj hs => (hg (h.pending job hj)).2 (h.covered job hj hs)⟩

theorem grows_job (h : JobStep page repeats c s job s' job') : Grows b s s' := by
  intro hp
  rcases h.store with rfl | ⟨chunk, owed, -, rfl⟩ | ⟨counts, -, rfl⟩
  · exact ⟨hp, id⟩
  · exact ⟨hp, Store.Covered.writeResults⟩
  · exact ⟨Store.hasStatus_writeBatchStatus.mpr (.inl hp), id⟩

theorem grows_env (hok : Frozen b s e) (h : s.env e = some s') : Grows b s s' := by
  intro hp
  cases e with
  | addInput row =>
    cases h
    refine ⟨hp, fun hc row' hrow hb => ?_⟩
    rcases List.mem_append.mp hrow with hold | hnew
    · exact hc row' hold hb
    · obtain rfl : row' = row := by simpa using hnew
      exact absurd hp (hok row' rfl hb)
  | addPending c =>
    cases h
    exact ⟨Store.hasStatus_writeBatchStatus.mpr (.inl hp), id⟩

theorem sound_env (hs : Sound b s) (hok : Frozen b s e) (h : s.env e = some s') : Sound b s' := by
  intro hc
  have hold : s.HasStatus b .complete := by
    cases e with
    | addInput row =>
      cases h
      exact hc
    | addPending c =>
      cases h
      rcases Store.hasStatus_writeBatchStatus.mp hc with h | ⟨-, h⟩
      · exact h
      · cases h
  obtain ⟨hp, hcov⟩ := hs hold
  obtain ⟨hp', hcov'⟩ := grows_env hok h hp
  exact ⟨hp', hcov' hcov⟩

/-- A job that sees an empty page covers its batch, and keeps saying so. -/
theorem covered_job (hpage : 0 < page) (h : JobStep page repeats b s job s' job')
    (hcov : job.SawEmptyPage → s.Covered b) (hsaw : job'.SawEmptyPage) : s'.Covered b := by
  cases h with
  | empty hnil => exact (Store.getBatchRows_eq_nil hpage).mp hnil
  | count | report => exact hcov trivial
  | reportRaised => exact hcov trivial
  | insertRaised hr hj => rcases hj with rfl | rfl <;> simp [Job.SawEmptyPage] at hsaw
  | _ => simp [Job.SawEmptyPage] at hsaw

theorem sound_job (hs : Sound b s) (h : JobStep page repeats c s job s' job')
    (hpending : c = b → s.HasStatus b .pending) (hcov : c = b → job.SawEmptyPage → s.Covered b) :
    Sound b s' := by
  rcases h.store with rfl | ⟨chunk, owed, -, rfl⟩ | ⟨counts, rfl, rfl⟩
  · exact hs
  · intro hc
    obtain ⟨hp, hcov⟩ := hs hc
    exact ⟨hp, hcov.writeResults⟩
  · intro hc
    rcases Store.hasStatus_writeBatchStatus.mp hc with hold | ⟨rfl, -⟩
    · obtain ⟨hp, hcov⟩ := hs hold
      exact ⟨Store.hasStatus_writeBatchStatus.mpr (.inl hp), hcov⟩
    · exact ⟨Store.hasStatus_writeBatchStatus.mpr (.inl (hpending rfl)), hcov rfl trivial⟩

theorem honest_act (hs : Sound b s) (hw : Honest b s w) (h : Act cfg repeats s w s' w') :
    Sound b s' ∧ Honest b s' w' ∧ Grows b s s' := by
  cases h with
  | poll hjob =>
    refine ⟨hs, ⟨fun hq => (Store.mem_getPendingBatches hq).1, ?_, ?_⟩, fun hp => ⟨hp, id⟩⟩
    · simp [hjob]
    · simp [hjob]
  | @take c rest hjob hq =>
    have hpend : b ∈ c :: rest → s.HasStatus b .pending := fun hm => hw.queue (hq ▸ hm)
    refine ⟨hs, ⟨fun hm => hpend (List.mem_cons_of_mem _ hm), ?_, ?_⟩, fun hp => ⟨hp, id⟩⟩
    · rintro job ⟨⟩
      exact hpend (by simp)
    · rintro job ⟨⟩ hsaw
      simp [Job.SawEmptyPage] at hsaw
  | @work c job _ job' hjob hstep =>
    have hgrow : Grows b s s' := grows_job hstep
    have hpending : c = b → s.HasStatus b .pending := by
      rintro rfl
      exact hw.pending job hjob
    have hcov : c = b → job.SawEmptyPage → s.Covered b := by
      rintro rfl
      exact hw.covered job hjob
    refine ⟨sound_job hs hstep hpending hcov, ⟨fun hq => (hgrow (hw.queue hq)).1, ?_, ?_⟩, hgrow⟩
    · rintro _ ⟨⟩
      exact (hgrow (hpending rfl)).1
    · rintro _ ⟨⟩ hsaw
      exact covered_job cfg.batchPageSize_pos hstep (hcov rfl) hsaw
  | finish hjob => exact ⟨hs, ⟨hw.queue, by simp, by simp⟩, fun hp => ⟨hp, id⟩⟩
  | drop => exact ⟨hs, ⟨by simp, by simp, by simp⟩, fun hp => ⟨hp, id⟩⟩

end Ledger

variable {ι : Type} [DecidableEq ι] {cfg : ServiceConfig} {b : UUID}

theorem ledgers_sound {repeats : Prop} {okEnv : Store → EnvAction → Prop}
    (hfrozen : ∀ s e, okEnv s e → Frozen b s e) (h : (ledgers ι cfg repeats okEnv).lts.Reachable s) :
    Ledger.Sound b s.1 ∧ ∀ i, Ledger.Honest b s.1 (s.2 i) := by
  refine Shared.always (G := Ledger.Sound b) (L := Ledger.Honest b) (R := Ledger.Grows b) ?_ ?_ ?_ ?_ h
  · rintro s w ⟨rfl, hw⟩
    refine ⟨by simp [Ledger.Sound, Store.HasStatus, Store.empty], fun i => ?_⟩
    rw [hw i]
    exact ⟨by simp, by simp, by simp⟩
  · intro s w i a s' w' _ hs hw hact
    exact Ledger.honest_act hs hw hact
  · rintro s e s' hs ⟨hok, henv⟩
    have hok := hfrozen s e hok
    exact ⟨Ledger.sound_env hs hok henv, Ledger.grows_env hok henv⟩
  · intro s s' w _ hg hw
    exact hw.stable hg

/-- In every reachable state in which a 'complete' row of the batch has been
written, every input row of the batch has a result. -/
theorem no_row_lost_at_completion
    (h : ((service cfg : Shared Store ι _ _ _).restrict (fun _ _ => True) (Frozen b)).lts.Reachable s)
    (hc : s.1.HasStatus b .complete) : s.1.Covered b :=
  ((ledgers_sound (fun _ _ h => h) ((service_refines fun _ _ _ _ => trivial).reachable h)).1 hc).2

theorem one_row_not_lost :
    ∃ s : Store × (Fin 2 → Worker), s.1.HasStatus 1 .complete ∧ s.1.Covered 1 := by
  have hexec : (LTS.exec (guardedNext rowByRow (fun _ _ => True) (Frozen 1))
      (.empty, fun _ : Fin 2 => .down)
      (submitted [plainRow 1 1] 1 ++ onWorker 0 (.start :: oneBatch (served (plainRow 1 1))))).map
        (fun s => decide (s.1.HasStatus 1 .complete)) = some true := by decide +kernel
  obtain ⟨s, hreach, hc⟩ := reachable_of_exec _ _ _ hexec
  have hc := of_decide_eq_true hc
  exact ⟨s, hc, no_row_lost_at_completion hreach hc⟩

end LlmWorker
