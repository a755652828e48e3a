import LlmWorker.Service.Coverage

/-!
# What a batch is reported with

The counts of a 'complete' row were read off the tables some time before. The
total is exact; the results counted are among those stored now, and they are no
fewer than the rows. Nothing more can be said of a batch that several workers
process, or of inserts that are made twice.
-/

namespace LlmWorker

open Transition

/-- Counts of the batch that were read off the tables at some time after it was covered. -/
structure Store.Counted (s : Store) (b : UUID) (counts : Counts) : Prop where
  total : counts.totalRows = (s.getBatchCounts b).totalRows
  completed : counts.completedRows ≤ (s.getBatchCounts b).completedRows
  failed : counts.failedRows ≤ (s.getBatchCounts b).failedRows
  covers : s.DistinctRows b → counts.totalRows ≤ counts.completedRows + counts.failedRows

theorem Store.counted_of_covered {s : Store} (h : s.Covered b) : s.Counted b (s.getBatchCounts b) :=
  ⟨rfl, Nat.le_refl _, Nat.le_refl _, Store.total_le_of_covered h⟩

namespace Ledger

variable {b : UUID}

def Preserves (b : UUID) (s s' : Store) : Prop :=
  (s.HasStatus b .pending →
    (s'.inputs.filter fun row => row.batchId = b) = s.inputs.filter fun row => row.batchId = b) ∧
    s.results <+: s'.results

theorem Preserves.refl (b : UUID) (s : Store) : Preserves b s s := ⟨fun _ => rfl, List.prefix_rfl⟩

theorem counted_mono (h : s.Counted b counts) (hp : s.HasStatus b .pending) (hpre : Preserves b s s') :
    s'.Counted b counts := by
  obtain ⟨hrows, more, hmore⟩ := hpre
  have hrows := hrows hp
  have htotal : (s'.getBatchCounts b).totalRows = (s.getBatchCounts b).totalRows := by
    simp only [Store.getBatchCounts]
    rw [Store.countP_inputs, Store.countP_inputs, hrows]
  have hresults (p : LLMResult → Bool) : s.results.countP p ≤ s'.results.countP p := by
    rw [← hmore, List.countP_append]
    exact Nat.le_add_right _ _
  refine ⟨h.total.trans htotal.symm, h.completed.trans (hresults _), h.failed.trans (hresults _), fun hdistinct => ?_⟩
  exact h.covers (by simpa only [Store.DistinctRows, hrows] using hdistinct)

def Reports (b : UUID) (s : Store) : Prop :=
  ∀ row ∈ s.batches, row.batchId = b → row.status = .complete → s.Counted b row.counts

/-- The counts a worker is about to report the batch with. -/
def Counting (b : UUID) (s : Store) (w : Worker) : Prop :=
  ∀ counts, w.job = some (b, .reporting counts) → s.HasStatus b .pending ∧ s.Counted b counts

theorem preserves_job (h : JobStep page repeats c s job s' job') : Preserves b s s' := by
  rcases h.store with rfl | ⟨chunk, owed, -, rfl⟩ | ⟨counts, -, rfl⟩
  · exact .refl b s'
  · exact ⟨fun _ => rfl, List.prefix_append _ _⟩
  · exact ⟨fun _ => rfl, List.prefix_rfl⟩

theorem preserves_env (hok : Frozen b s e) (h : s.env e = some s') : Preserves b s s' := by
  cases e with
  | addInput row =>
    cases h
    refine ⟨fun hp => ?_, List.prefix_rfl⟩
    have hother : row.batchId ≠ b := fun hb => hok row rfl hb hp
    simp [List.filter_append, hother]
  | addPending c =>
    cases h
    exact .refl b _

theorem Counting.stable (h : Counting b s w) (hpre : Preserves b s s') (hg : Grows b s s') : Counting b s' w := by
  intro counts hjob
  obtain ⟨hp, hcounted⟩ := h counts hjob
  exact ⟨(hg hp).1, counted_mono hcounted hp hpre⟩

theorem Reports.mono (h : Reports b s) (hs : Sound b s) (hpre : Preserves b s s')
    (hnew : ∀ row ∈ s'.batches, row ∈ s.batches ∨ row.status ≠ .complete) : Reports b s' := by
  intro row hrow hb hc
  have hold : row ∈ s.batches := (hnew row hrow).resolve_right fun hne => hne hc
  exact counted_mono (h row hold hb hc) (hs ⟨row, hold, hb, hc⟩).1 hpre

theorem reports_env (h : Reports b s) (hs : Sound b s) (hok : Frozen b s e) (henv : s.env e = some s') :
    Reports b s' := by
  refine h.mono hs (preserves_env hok henv) fun row hrow => ?_
  cases e with
  | addInput input =>
    cases henv
    exact .inl hrow
  | addPending c =>
    cases henv
    rcases List.mem_append.mp hrow with hold | hnew
    · exact .inl hold
    · obtain rfl : row = ⟨c, .pending, ⟨0, 0, 0⟩⟩ := by simpa using hnew
      exact .inr (by simp)

theorem reports_job (h : Reports b s) (hs : Sound b s) (hstep : JobStep page repeats c s job s' job')
    (hcounted : ∀ counts, c = b → job = .reporting counts → s.HasStatus b .pending ∧ s.Counted b counts) :
    Reports b s' := by
  rcases hstep.store with rfl | ⟨chunk, owed, -, rfl⟩ | ⟨counts, hjob, rfl⟩
  · exact h
  · exact h.mono hs (preserves_job hstep) fun row hrow => .inl hrow
  · intro row hrow hb hc
    rcases List.mem_append.mp hrow with hold | hnew
    · exact counted_mono (h row hold hb hc) (hs ⟨row, hold, hb, hc⟩).1 (preserves_job hstep)
    · obtain rfl : row = ⟨c, .complete, counts⟩ := by simpa using hnew
      obtain ⟨hp, hnow⟩ := hcounted counts hb hjob
      exact counted_mono hnow hp (preserves_job hstep)

theorem counting_job (hp : s.HasStatus b .pending) (hcov : job.SawEmptyPage → s.Covered b)
    (hcounted : ∀ counts, job = .reporting counts → s.Counted b counts)
    (h : JobStep page repeats b s job s' job') (hjob : job' = .reporting counts) : s'.Counted b counts := by
  have hpre : Preserves b s s' := preserves_job h
  cases h with
  | count =>
    cases hjob
    exact Store.counted_of_covered (hcov trivial)
  | reportRaised _ hj =>
    rcases hj with rfl | rfl
    · cases hjob
      exact counted_mono (hcounted counts rfl) hp hpre
    · cases hjob
  | insertRaised _ hj => rcases hj with rfl | rfl <;> cases hjob
  | _ => cases hjob

theorem counting_act (hs : Sound b s) (hw : Honest b s w) (hr : Reports b s) (hc : Counting b s w)
    (h : Act cfg repeats s w s' w') : Reports b s' ∧ Counting b s' w' ∧ Preserves b s s' := by
  cases h with
  | poll hjob => exact ⟨hr, by simp [Counting, hjob], .refl b s⟩
  | take | finish | drop => exact ⟨hr, by simp [Counting], .refl b s⟩
  | @work c job _ job' hjob hstep =>
    refine ⟨?_, ?_, preserves_job hstep⟩
    · refine reports_job hr hs hstep ?_
      rintro counts rfl rfl
      exact hc counts hjob
    · rintro counts ⟨⟩
      have hp := hw.pending job hjob
      refine ⟨(grows_job hstep hp).1, counting_job hp (hw.covered job hjob) (fun counts hcounts => ?_) hstep rfl⟩
      subst hcounts
      exact (hc counts hjob).2

end Ledger

variable {ι : Type} [DecidableEq ι] {cfg : ServiceConfig} {b : UUID}

theorem ledgers_reports {repeats : Prop} {okEnv : Store → EnvAction → Prop}
    (hfrozen : ∀ s e, okEnv s e → Frozen b s e) (h : (ledgers ι cfg repeats okEnv).lts.Reachable s) :
    Ledger.Reports b s.1 := by
  have both := Shared.always (G := fun s => Ledger.Sound b s ∧ Ledger.Reports b s) (L := Ledger.Counting b)
    (R := fun s s' => Ledger.Preserves b s s' ∧ Ledger.Grows b s s') ?_ ?_ ?_ ?_ h
  · exact both.1.2
  · rintro s w ⟨rfl, hw⟩
    refine ⟨⟨by simp [Ledger.Sound, Store.HasStatus, Store.empty], by simp [Ledger.Reports, Store.empty]⟩, fun i => ?_⟩
    simp [Ledger.Counting, hw i]
  · rintro s w i a s' w' hreach ⟨hs, hr⟩ hc hact
    have hw := (ledgers_sound hfrozen hreach).2 i
    obtain ⟨hs', -, hg⟩ := Ledger.honest_act hs hw hact
    obtain ⟨hr', hc', hpre⟩ := Ledger.counting_act hs hw hr hc hact
    exact ⟨⟨hs', hr'⟩, hc', hpre, hg⟩
  · rintro s e s' ⟨hs, hr⟩ ⟨hok, henv⟩
    have hok := hfrozen s e hok
    exact ⟨⟨Ledger.sound_env hs hok henv, Ledger.reports_env hr hs hok henv⟩,
      Ledger.preserves_env hok henv, Ledger.grows_env hok henv⟩
  · rintro s s' w - ⟨hpre, hg⟩ hc
    exact hc.stable hpre hg

/-- Whatever the workers, crashes and lost acknowledgements, a batch is
reported with the number of its rows, with no more completed and no more failed
results than are stored, and with one of them at least for each row. -/
theorem reported_counts
    (h : ((service cfg : Shared Store ι _ _ _).restrict (fun _ _ => True) (Frozen b)).lts.Reachable s)
    (hrow : row ∈ s.1.batches) (hb : row.batchId = b) (hc : row.status = .complete) :
    row.counts.totalRows = (s.1.getBatchCounts b).totalRows ∧
      row.counts.completedRows ≤ (s.1.getBatchCounts b).completedRows ∧
      row.counts.failedRows ≤ (s.1.getBatchCounts b).failedRows ∧
      (s.1.DistinctRows b → row.counts.totalRows ≤ row.counts.completedRows + row.counts.failedRows) := by
  have hledgers := (service_refines fun _ _ _ _ => trivial).reachable h
  have hcounted : s.1.Counted b row.counts := ledgers_reports (fun _ _ h => h) hledgers row hrow hb hc
  exact ⟨hcounted.total, hcounted.completed, hcounted.failed, hcounted.covers⟩

/-- One worker reports the batch while the other still holds a result of it. -/
def overtaken : List (Bool × WorkerAction ⊕ EnvAction) :=
  submitted [plainRow 1 1] 1 ++
    onWorker false ([.start, .next, .poll, .next] ++ inBatch (onePage (served (plainRow 1 1)))) ++
    onWorker true (.start :: oneBatch (served (plainRow 1 1))) ++ onWorker false (inBatch [.insert .ok])

theorem reported_counts_overtaken : ∃ s : Store × (Bool → Worker), ∃ row ∈ s.1.batches,
    row.counts = ⟨1, 1, 0⟩ ∧ s.1.getBatchCounts 1 = ⟨1, 2, 0⟩ ∧
      row.counts.completedRows ≤ (s.1.getBatchCounts 1).completedRows := by
  have hexec : (LTS.exec (guardedNext rowByRow (fun _ _ => True) (Frozen 1)) (.empty, fun _ : Bool => .down)
      overtaken).map (fun s => decide (s.1.getBatchCounts 1 = ⟨1, 2, 0⟩ ∧ ∃ row ∈ s.1.batches,
        (row.batchId = 1 ∧ row.status = .complete) ∧ row.counts = ⟨1, 1, 0⟩)) = some true := by
    decide +kernel
  obtain ⟨s, hreach, hs⟩ := reachable_of_exec _ _ _ hexec
  obtain ⟨hnow, row, hrow, ⟨hb, hc⟩, hcounts⟩ := of_decide_eq_true hs
  obtain ⟨-, hcompleted, -⟩ := reported_counts hreach hrow hb hc
  exact ⟨s, row, hrow, hcounts, hnow, hcompleted⟩

end LlmWorker
