import LlmWorker.Service.Once

/-!
# Crash recovery is exact

One worker that crashes and restarts. Its ledger never opens a batch that is
complete, so what it reported stays true. Its threads only call the provider
for rows that are still owed, as long as no pool is abandoned at work.
-/

namespace LlmWorker

open Python Transition

namespace Store

def completions (s : Store) (b : UUID) : List BatchRow :=
  s.batches.filter fun row => row.batchId = b ∧ row.status = .complete

theorem completions_eq_nil {s : Store} : s.completions b = [] ↔ ¬s.HasStatus b .complete := by
  simp [completions, HasStatus]

theorem completions_writeBatchStatus (s : Store) (c : UUID) (status : BatchStatus) (counts : Counts) :
    (s.writeBatchStatus c status counts).completions b =
      s.completions b ++ if c = b ∧ status = .complete then [⟨c, status, counts⟩] else [] := by
  by_cases h : c = b ∧ status = .complete <;> simp [completions, writeBatchStatus, h]

@[simp] theorem getBatchCounts_writeBatchStatus (s : Store) (c : UUID) (status : BatchStatus)
    (counts : Counts) : (s.writeBatchStatus c status counts).getBatchCounts b = s.getBatchCounts b := rfl

theorem getBatchCounts_writeResults {s : Store} {rs : List LLMResult} (h : ∀ r ∈ rs, r.batchId ≠ b) :
    (s.writeResults rs).getBatchCounts b = s.getBatchCounts b := by
  have hnone (status : Status) :
      rs.countP (fun r => decide (r.batchId = b ∧ r.status = status)) = 0 := by
    rw [List.countP_eq_zero]
    intro r hr
    simp [h r hr]
  simp only [getBatchCounts, writeResults, List.countP_append, hnone, Nat.add_zero]

theorem getBatchCounts_addInput {s : Store} (h : row.batchId ≠ b) :
    ({ s with inputs := s.inputs ++ [row] } : Store).getBatchCounts b = s.getBatchCounts b := by
  simp [getBatchCounts, h]

end Store

-- ---------------------------------------------------------------------------
-- A completed batch stays as it was reported
-- ---------------------------------------------------------------------------

namespace Ledger

/-- The job may still write to the tables. -/
def Job.Live : Job → Prop
  | .returned | .failed => False
  | _ => True

structure Final (s : Store) (w : Worker) : Prop where
  queue : w.queue.Nodup ∧ ∀ b ∈ w.queue, ¬s.HasStatus b .complete
  job : ∀ b job, w.job = some (b, job) → b ∉ w.queue ∧ (job.Live → ¬s.HasStatus b .complete)
  report : ∀ b counts, w.job = some (b, .reporting counts) → counts = s.getBatchCounts b
  once : ∀ b, (s.completions b).length ≤ 1
  counts : ∀ row ∈ s.batches, row.status = .complete → row.counts = s.getBatchCounts row.batchId

theorem final_insert (hw : Final s w) (hjob : w.job = some (b, .holding chunk owed))
    (hb : ∀ r ∈ chunk, r.batchId = b) (accepted : List Key) :
    Final (s.writeResults chunk) { w with job := some (b, .holding [] owed), accepted := accepted } := by
  obtain ⟨hnot, hopen⟩ := hw.job _ _ hjob
  refine ⟨hw.queue, ?_, ?_, hw.once, fun row hrow hc => ?_⟩
  · rintro _ _ ⟨⟩
    exact ⟨hnot, fun _ => hopen trivial⟩
  · rintro _ _ ⟨⟩
  · rw [hw.counts row hrow hc]
    refine (Store.getBatchCounts_writeResults fun r hr hbr => ?_).symm
    exact hopen trivial ⟨row, hrow, hbr.symm.trans (hb r hr), hc⟩

theorem final_report (hw : Final s w) (hjob : w.job = some (b, .reporting counts)) (accepted : List Key) :
    Final (s.writeBatchStatus b .complete counts)
      { w with job := some (b, .returned), accepted := accepted } := by
  obtain ⟨hnot, hopen⟩ := hw.job _ _ hjob
  have hopen := hopen trivial
  refine ⟨⟨hw.queue.1, fun c hc hcomplete => ?_⟩, ?_, ?_, fun c => ?_, fun row hrow hc => ?_⟩
  · rcases Store.hasStatus_writeBatchStatus.mp hcomplete with hold | ⟨rfl, -⟩
    · exact hw.queue.2 c hc hold
    · exact hnot hc
  · rintro _ _ ⟨⟩
    exact ⟨hnot, by simp [Job.Live]⟩
  · rintro _ _ ⟨⟩
  · rw [Store.completions_writeBatchStatus]
    split
    · rename_i hbc
      rw [← hbc.1, Store.completions_eq_nil.mpr hopen]
      simp
    · simpa using hw.once c
  · rw [Store.getBatchCounts_writeBatchStatus]
    rcases List.mem_append.mp hrow with hold | hnew
    · exact hw.counts row hold hc
    · obtain rfl : row = _ := by simpa using hnew
      exact hw.report b counts hjob

theorem final_stay (hw : Final s w) (hjob : w.job = some (b, job)) (hlive : job'.Live → job.Live)
    (hreport : ∀ counts, job' = .reporting counts → counts = s.getBatchCounts b) (accepted : List Key) :
    Final s { w with job := some (b, job'), accepted := accepted } := by
  obtain ⟨hnot, hopen⟩ := hw.job _ _ hjob
  refine ⟨hw.queue, ?_, ?_, hw.once, hw.counts⟩
  · rintro _ _ ⟨⟩
    exact ⟨hnot, fun hl => hopen (hlive hl)⟩
  · rintro _ counts ⟨⟩
    exact hreport counts rfl

theorem final_act (hs : Once s w) (hw : Final s w) (h : Act cfg False s w s' w') : Final s' w' := by
  cases h with
  | poll hjob =>
    refine ⟨⟨Store.nodup_getPendingBatches _ _, fun b hb => (Store.mem_getPendingBatches hb).2⟩, ?_, ?_,
      hw.once, hw.counts⟩
    · simp [hjob]
    · simp [hjob]
  | @take b rest hjob hq =>
    obtain ⟨hnodup, hopen⟩ := hw.queue
    rw [hq] at hnodup hopen
    refine ⟨⟨hnodup.of_cons, fun c hc => hopen c (List.mem_cons_of_mem _ hc)⟩, ?_, ?_, hw.once, hw.counts⟩
    · rintro _ _ ⟨⟩
      exact ⟨(List.nodup_cons.mp hnodup).1, fun _ => hopen b (by simp)⟩
    · rintro _ _ ⟨⟩
  | @work b job _ job' hjob hstep =>
    cases hstep with
    | @insert chunk owed =>
      refine final_insert hw hjob (fun r hr => ?_) _
      exact ((hs.holds _ _ hjob).fresh _ (Job.mem_keys hr owed)).1
    | report => exact final_report hw hjob _
    | insertRaised hr _ | reportRaised hr _ => exact absurd hr not_false
    | count =>
      refine final_stay hw hjob (fun _ => trivial) ?_ _
      rintro _ ⟨⟩
      rfl
    | fail => exact final_stay hw hjob (by simp [Job.Live]) (by simp) _
    | _ => exact final_stay hw hjob (fun _ => trivial) (by simp) _
  | finish hjob => exact ⟨hw.queue, by simp, by simp, hw.once, hw.counts⟩
  | drop => exact ⟨by simp, by simp, by simp, hw.once, hw.counts⟩

theorem final_env (hsound : ∀ b, Sound b s) (hhonest : ∀ b, Honest b s w) (hw : Final s w)
    (hok : LlmWorker.Distinct s e) (h : s.env e = some s') : Final s' w := by
  cases e with
  | addInput row =>
    cases h
    obtain ⟨hfrozen, -⟩ := hok row rfl
    have hcounts {b : UUID} (hp : s.HasStatus b .pending) :
        ({ s with inputs := s.inputs ++ [row] } : Store).getBatchCounts b = s.getBatchCounts b :=
      Store.getBatchCounts_addInput fun hb => hfrozen (hb ▸ hp)
    refine ⟨hw.queue, hw.job, fun b counts hjob => ?_, hw.once, fun r hr hc => ?_⟩
    · rw [hcounts ((hhonest b).pending _ hjob)]
      exact hw.report b counts hjob
    · rw [hcounts (hsound r.batchId ⟨r, hr, rfl, hc⟩).1]
      exact hw.counts r hr hc
  | addPending c =>
    cases h
    have hcomplete {b : UUID} : (s.writeBatchStatus c .pending ⟨0, 0, 0⟩).HasStatus b .complete ↔
        s.HasStatus b .complete := by
      simp [Store.hasStatus_writeBatchStatus]
    refine ⟨⟨hw.queue.1, fun b hb hc => hw.queue.2 b hb (hcomplete.mp hc)⟩, fun b job hjob => ?_,
      hw.report, fun b => ?_, fun r hr hc => ?_⟩
    · obtain ⟨hnot, hopen⟩ := hw.job b job hjob
      exact ⟨hnot, fun hl hc => hopen hl (hcomplete.mp hc)⟩
    · simpa [Store.completions_writeBatchStatus] using hw.once b
    · rcases List.mem_append.mp hr with hold | hnew
      · exact hw.counts r hold hc
      · obtain rfl : r = _ := by simpa using hnew
        cases hc

end Ledger

variable {cfg : ServiceConfig}

theorem ledger_final (h : (ledgers Unit cfg False Distinct).lts.Reachable s) (i : Unit) :
    Ledger.Final s.1 (s.2 i) := by
  refine Shared.solo (I := Ledger.Final) ?_ ?_ ?_ h i
  · rintro s w ⟨rfl, hw⟩ i
    rw [hw i]
    constructor <;> simp [Store.empty, Store.completions]
  · intro s w i a s' w' hr hI hact
    exact Ledger.final_act ((ledgers_once hr).2 i) hI hact
  · rintro s w i e s' hr hI ⟨hok, henv⟩
    exact Ledger.final_env (fun b => (ledgers_sound (frozen_of_distinct b) hr).1)
      (fun b => (ledgers_sound (frozen_of_distinct b) hr).2 i) hI hok henv

-- ---------------------------------------------------------------------------
-- Pools at rest
-- ---------------------------------------------------------------------------

theorem FutureState.Settled.isDone {st : FutureState} (h : st.Settled) : st.isDone = true := by
  cases st <;> simp [FutureState.Settled, FutureState.isDone] at h ⊢

namespace Pool

def Fresh (s : Store) (p : Pool) : Prop :=
  ∀ f ∈ p.futures, f.state.isDone = false → f.row.key ∉ s.resultKeys

theorem fresh_of_allDone {p : Pool} (h : p.allDone = true) : p.Fresh s := by
  intro f hf hnot
  have hdone := List.all_eq_true.mp h f hf
  simp [hnot] at hdone

theorem not_allDone_of_step (h : threadStep x p i a = some p') : p.allDone = false := by
  obtain ⟨f, st, hf, -, hst, -⟩ := threadStep_inv h
  refine Bool.eq_false_iff.mpr fun hdone => ?_
  have hf := List.all_eq_true.mp hdone f (List.mem_of_getElem? hf)
  simp [FutureState.not_done_of_step hst] at hf

theorem allDone_of_exhausted (hw : Wf x inputs p) (hpc : p.pc = .exhausted) : p.allDone = true := by
  refine List.all_eq_true.mpr fun f hf => ?_
  obtain ⟨i, hi⟩ := List.mem_iff_getElem?.mp hf
  exact (hw.settled hpc hi).isDone

theorem allDone_of_raised (h : MainStep x p p' out) (hpc : p'.pc = .raised e) : p'.allDone = true := by
  cases h with
  | unwound _ hdone => exact hdone
  | submit hfilling => simp [submit, hfilling] at hpc
  | _ => simp at hpc

theorem futures_of_broken (h : MainStep x p p' out) (hb : p'.Broken) : p'.futures = p.futures := by
  cases h with
  | submit hfilling => simp [Broken, submit, hfilling] at hb
  | cancel => simp [Broken] at hb
  | _ => rfl

theorem fresh_thread (hf : p.Fresh s) (h : threadStep x p i a = some p') : p'.Fresh s := by
  obtain ⟨f, st, hget, -, hst, rfl⟩ := threadStep_inv h
  intro g hg hnot
  rcases List.mem_or_eq_of_mem_set hg with hmem | rfl
  · exact hf g hmem hnot
  · exact hf f (List.mem_of_getElem? hget) (FutureState.not_done_of_step hst)

theorem mem_owed (hw : Wf x inputs p) (hb : ¬p.Broken) (hf : f ∈ p.futures)
    (hnot : f.state.isDone = false) : f.row ∈ p.owed := by
  obtain ⟨i, hi⟩ := List.mem_iff_getElem?.mp hf
  have hns : ¬f.state.Settled := fun hs => by simp [hs.isDone] at hnot
  obtain ⟨e, he, rfl⟩ := List.mem_map.mp (hw.unsettled hb i f hi hns)
  obtain ⟨g, hg, hrow⟩ := hw.entry e he
  obtain rfl : g = f := by simpa [hi] using hg.symm
  simp only [owed, Multiset.mem_coe, List.mem_append]
  exact .inl (List.mem_map.mpr ⟨e, he, hrow.symm⟩)

end Pool

namespace Batch

def BetweenPages (batch : Batch) : Prop :=
  match batch.pc with
  | .consuming | .writing _ => False
  | _ => True

/-- The pool is at rest wherever the run leaves it behind. -/
structure Quiet (batch : Batch) : Prop where
  between : batch.BetweenPages → batch.pool.allDone = true
  raised : ∀ e, batch.pool.pc = .raised e → batch.pool.allDone = true

/-- The last attempt of a result write fails only with the pool at rest. -/
def Drained (batch : Batch) (outcome : InsertOutcome) : Prop :=
  match batch.pc with
  | .writing attempt => outcome ≠ .ok → resultWriteMaxAttempts ≤ attempt → batch.pool.allDone = true
  | _ => True

instance (batch : Batch) (outcome : InsertOutcome) : Decidable (batch.Drained outcome) := by
  unfold Drained
  split <;> infer_instance

theorem quiet_start (b : UUID) : (start b).Quiet := ⟨fun _ => rfl, by simp [start]⟩

theorem quiet_step (hok : batch.Ok cfg) (hq : batch.Quiet)
    (hdrained : ∀ outcome, a = .insert outcome → batch.Drained outcome)
    (h : Step cfg s batch a s' batch') : batch'.Quiet := by
  obtain ⟨⟨inputs, hw⟩, -⟩ := hok
  cases h with
  | thread hp =>
    have hnot := Pool.not_allDone_of_step hp
    obtain ⟨f, st, -, -, -, rfl⟩ := Pool.threadStep_inv hp
    refine ⟨fun hb => ?_, fun e he => ?_⟩
    · simp [hq.between hb] at hnot
    · simp [hq.raised e he] at hnot
  | silent hpc hp =>
    exact ⟨by simp [BetweenPages, hpc], fun e he => Pool.allDone_of_raised (Pool.mainStep_inv hp) he⟩
  | @receive a p result hpc hp =>
    refine ⟨?_, fun e he => Pool.allDone_of_raised (Pool.mainStep_inv hp) he⟩
    by_cases hfull : resultWriteBatchSize ≤ batch.pending.length + 1 <;>
      simp [BetweenPages, Batch.receive, hfull]
  | empty hpc _ | count hpc => exact ⟨fun _ => hq.between (by simp [BetweenPages, hpc]), hq.raised⟩
  | page => exact ⟨fun _ => rfl, by simp [Pool.start]⟩
  | turn _ hpool _ | flush _ hpool _ => exact ⟨fun _ => Pool.allDone_of_exhausted hw hpool, hq.raised⟩
  | raised _ hpool => exact ⟨fun _ => hq.raised _ hpool, hq.raised⟩
  | readError hpc =>
    refine ⟨fun _ => hq.between ?_, hq.raised⟩
    rcases hpc with hpc | hpc <;> simp [BetweenPages, hpc]
  | @write attempt outcome hpc =>
    rcases afterWrite_cases batch outcome attempt with ⟨-, heq⟩ | ⟨hne, ⟨heq, -⟩ | ⟨heq, hlast⟩⟩ <;> rw [heq]
    · exact ⟨by simp [BetweenPages], hq.raised⟩
    · exact ⟨by simp [BetweenPages], hq.raised⟩
    · have hd := hdrained outcome rfl
      simp only [Drained, hpc] at hd
      exact ⟨fun _ => hd hne (Nat.le_of_not_lt hlast), hq.raised⟩
  | @report counts attempt outcome hpc =>
    have hdone := hq.between (by simp [BetweenPages, hpc])
    rcases afterReport_cases batch outcome counts attempt with
      ⟨-, heq⟩ | ⟨-, ⟨heq, -⟩ | ⟨heq, -⟩⟩ <;> rw [heq] <;> exact ⟨fun _ => hdone, hq.raised⟩

end Batch

-- ---------------------------------------------------------------------------
-- One worker at work
-- ---------------------------------------------------------------------------

namespace Worker

/-- The row that a step sends to the provider. -/
def sends (w : Worker) : WorkerAction → Option LLMInput
  | .batch (.pool (.thread i .call)) =>
    match w.pc with
    | .processing batch _ => batch.pool.futures[i]?.map (·.row)
    | _ => none
  | .leftover j i .call => w.abandoned[j]?.bind fun p => p.futures[i]?.map (·.row)
  | _ => none

def Drained (w : Worker) : WorkerAction → Prop
  | .batch (.insert outcome) =>
    match w.pc with
    | .processing batch _ => batch.Drained outcome
    | _ => True
  | _ => True

def drained (w : Worker) : WorkerAction → Bool
  | .batch (.insert outcome) =>
    match w.pc with
    | .processing batch _ => batch.Drained outcome
    | _ => true
  | _ => true

theorem drained_iff {w : Worker} : w.drained a = true ↔ w.Drained a := by
  unfold drained Drained
  split
  · split <;> simp
  · simp

instance (w : Worker) (a : WorkerAction) : Decidable (w.Drained a) := decidable_of_iff _ drained_iff

theorem step_processing (h : Step cfg s w a s' w') (hpc : w'.pc = .processing batch' rest) :
    (s' = s ∧ w.pc = .processing batch' rest) ∨ (s' = s ∧ ∃ b, batch' = Batch.start b) ∨
      ∃ batch a', a = .batch a' ∧ w.pc = .processing batch rest ∧ Batch.Step cfg s batch a' s' batch' := by
  have hafter (w : Worker) : w.afterError.pc ≠ .processing batch' rest := by
    unfold afterError
    cases w.shouldStop <;> simp
  cases h with
  | signal | leftover => exact .inl ⟨rfl, hpc⟩
  | loop => cases hs : w.shouldStop <;> simp [hs] at hpc
  | take =>
    cases hpc
    exact .inr (.inl ⟨rfl, _, rfl⟩)
  | giveUp | readError => exact absurd hpc (hafter _)
  | batch hw hb =>
    cases hpc
    exact .inr (.inr ⟨_, _, rfl, hw, hb⟩)
  | _ => simp at hpc

/-- No thread of an abandoned pool is at work. -/
structure Quiet (w : Worker) : Prop where
  batch : ∀ batch rest, w.pc = .processing batch rest → batch.Quiet
  abandoned : w.allDone = true

theorem quiet_step (hok : w.Ok cfg) (hq : w.Quiet) (hd : w.Drained a) (h : Step cfg s w a s' w') :
    w'.Quiet := by
  have habandon {batch rest e} (hpc : w.pc = .processing batch rest) (hfailed : batch.pc = .failed e) :
      (w.abandon batch.pool).allDone = true := by
    have hdone := (hq.batch batch rest hpc).between (by simp [Batch.BetweenPages, hfailed])
    have hall := hq.abandoned
    simp only [allDone, abandon, List.all_append, List.all_cons, List.all_nil] at hall ⊢
    simp [hall, hdone]
  constructor
  · intro batch' rest hpc
    rcases step_processing h hpc with ⟨-, hw⟩ | ⟨-, b, rfl⟩ | ⟨batch, a', rfl, hw, hstep⟩
    · exact hq.batch batch' rest hw
    · exact Batch.quiet_start b
    · refine Batch.quiet_step (hok batch rest hw) (hq.batch batch rest hw) ?_ hstep
      rintro outcome rfl
      simpa only [Drained, hw] using hd
  · cases h with
    | start | crash => rfl
    | giveUp hpc hfailed | die hpc hfailed => exact habandon hpc hfailed
    | leftover hp hp' =>
      have hdone := List.all_eq_true.mp hq.abandoned _ (List.mem_of_getElem? hp)
      simp [Pool.not_allDone_of_step hp'] at hdone
    | _ => exact hq.abandoned

end Worker

-- ---------------------------------------------------------------------------
-- Recovery
-- ---------------------------------------------------------------------------

/-- One worker whose inserts raise only when nothing was inserted. -/
def restarting (cfg : ServiceConfig) : Shared Store Unit Worker WorkerAction EnvAction :=
  (service cfg).restrict Faithful Distinct

theorem restarting_ledger (h : (restarting cfg).lts.Reachable s) :
    (ledgers Unit cfg False Distinct).lts.Reachable (s.1, Worker.ledger ∘ s.2) :=
  (service_refines fun _ _ hok hnot => hnot hok).reachable h

theorem restarting_ok (h : (restarting cfg).lts.Reachable s) (i : Unit) : (s.2 i).Ok cfg := by
  refine Shared.solo (I := fun _ w => Worker.Ok cfg w) ?_ ?_ ?_ h i
  · rintro s w ⟨rfl, hdown⟩ i
    simp [hdown i, Worker.Ok, Worker.down]
  · rintro s w i a s' w' - hok ⟨-, hstep⟩
    exact Worker.ok_step hok (Worker.step_inv hstep)
  · rintro s w i e s' - hI -
    exact hI

theorem restarting_holds (h : (restarting cfg).lts.Reachable s)
    (hpc : (s.2 ()).pc = .processing batch rest) :
    Ledger.Holds batch.id s.1 s.1.resultKeys batch.job := by
  have hl := restarting_ledger h
  have hledger : (s.2 ()).ledger.job = some (batch.id, batch.job) := by simp [Worker.ledger, hpc]
  have hh := ((ledgers_once hl).2 ()).holds _ _ hledger
  refine ⟨hh.nodup, fun key hkey => ?_⟩
  obtain ⟨hb, hin, hnew⟩ := hh.fresh key hkey
  refine ⟨hb, hin, fun hstored => hnew ?_⟩
  have hcount := ledgers_count_eq hl key
  rw [Fintype.sum_unique] at hcount
  exact List.count_pos_iff.mp (hcount ▸ List.count_pos_iff.mpr hstored)

/-- The same worker, giving up a chunk only once the pool of its page is at rest. -/
def recovering (cfg : ServiceConfig) : Shared Store Unit Worker WorkerAction EnvAction :=
  (service cfg).restrict (fun w a => Faithful w a ∧ w.Drained a) Distinct

theorem restarting_of_step (h : (recovering cfg).lts.step s a t) : (restarting cfg).lts.step s a t := by
  rcases a with ⟨i, a⟩ | e
  · obtain ⟨w, ⟨hok, hstep⟩, ht⟩ := h
    exact ⟨w, ⟨hok.1, hstep⟩, ht⟩
  · exact h

theorem restarting_of_recovering (h : (recovering cfg).lts.Reachable s) : (restarting cfg).lts.Reachable s := by
  obtain ⟨s₀, as, hinit, hrun⟩ := h
  exact ⟨s₀, as, hinit, hrun.mono restarting_of_step⟩

theorem recovering_quiet (h : (recovering cfg).lts.Reachable s) (i : Unit) : (s.2 i).Quiet := by
  refine Shared.solo (I := fun _ w => w.Quiet) ?_ ?_ ?_ h i
  · rintro s w ⟨rfl, hdown⟩ i
    rw [hdown i]
    exact ⟨by simp [Worker.down], rfl⟩
  · rintro s w i a s' w' hr hq ⟨⟨-, hd⟩, hstep⟩
    exact Worker.quiet_step (restarting_ok (restarting_of_recovering hr) i) hq hd (Worker.step_inv hstep)
  · rintro s w i e s' - hI -
    exact hI

theorem Batch.fresh_of_holds (hok : Ok cfg batch) (hq : batch.Quiet)
    (hh : Ledger.Holds batch.id s s.resultKeys batch.job)
    (hb : batch.pc = .consuming → ¬batch.pool.Broken) : batch.pool.Fresh s := by
  obtain ⟨⟨inputs, hw⟩, hwhole⟩ := hok
  have working (hb : ¬batch.pool.Broken) (hjob : batch.job = .holding batch.pending batch.owed) :
      batch.pool.Fresh s := by
    intro f hf hnot
    refine (hh.fresh f.row.key ?_).2.2
    rw [hjob, Ledger.Job.keys, Multiset.mem_add]
    exact .inr (Multiset.mem_map_of_mem _ (Pool.mem_owed hw hb hf hnot))
  cases hpc : batch.pc with
  | consuming => exact working (hb hpc) (job_holding batch hpc (hb hpc))
  | writing attempt => exact working (hwhole attempt hpc) (by simp [job, hpc])
  | _ => exact Pool.fresh_of_allDone (hq.between (by simp [BetweenPages, hpc]))

theorem Batch.fresh_of_broken (hok : Ok cfg batch) (hf : batch.pool.Fresh s)
    (h : Step cfg s batch a s' batch') (hpc' : batch'.pc = .consuming) (hb : batch'.pool.Broken) :
    batch'.pool.Fresh s' := by
  cases h with
  | thread hp => exact Pool.fresh_thread hf hp
  | silent _ hp =>
    intro f hmem
    rw [Pool.futures_of_broken (Pool.mainStep_inv hp) hb] at hmem
    exact hf f hmem
  | receive _ hp => exact absurd hb (Pool.not_broken_of_yield (Pool.mainStep_inv hp))
  | page => simp [Pool.start, Pool.Broken] at hb
  | @write attempt outcome hpc =>
    rcases afterWrite_cases batch outcome attempt with ⟨-, heq⟩ | ⟨-, ⟨heq, -⟩ | ⟨heq, -⟩⟩
    · rw [heq] at hb
      exact absurd hb (hok.whole attempt hpc)
    · simp [heq] at hpc'
    · simp [heq] at hpc'
  | @report counts attempt outcome hpc =>
    rcases afterReport_cases batch outcome counts attempt with
      ⟨-, heq⟩ | ⟨-, ⟨heq, -⟩ | ⟨heq, -⟩⟩ <;> simp [heq] at hpc'
  | _ => simp at hpc'

theorem recovering_fresh (h : (recovering cfg).lts.Reachable s)
    (hpc : (s.2 ()).pc = .processing batch rest) : batch.pool.Fresh s.1 := by
  have hall := Shared.solo (S := recovering cfg)
    (I := fun s w => ∀ batch rest, w.pc = .processing batch rest → batch.pool.Fresh s) ?_ ?_ ?_ h ()
  · exact hall batch rest hpc
  · rintro s w ⟨rfl, hdown⟩ i batch rest hpc
    simp [hdown i, Worker.down] at hpc
  · rintro s w i a s' w' hr hI hact batch' rest' hpc'
    have hr' : (recovering cfg).lts.Reachable (s', Function.update w i w') :=
      hr.step (Shared.step_of_act hact)
    have hok := restarting_ok (restarting_of_recovering hr') ()
    have hq := recovering_quiet hr' ()
    have hpcr : (Function.update w i w' ()).pc = .processing batch' rest' := by simpa using hpc'
    have hh := restarting_holds (restarting_of_recovering hr') hpcr
    simp only [Function.update_self] at hok hq
    by_cases hb : batch'.pc = .consuming ∧ batch'.pool.Broken
    · rcases Worker.step_processing (Worker.step_inv hact.2) hpc' with ⟨rfl, hw⟩ | ⟨-, b, rfl⟩ | ⟨batch, a', -, hw, hstep⟩
      · exact hI batch' rest' hw
      · simp [Batch.start] at hb
      · exact Batch.fresh_of_broken (restarting_ok (restarting_of_recovering hr) i batch rest' hw)
          (hI batch rest' hw) hstep hb.1 hb.2
    · exact Batch.fresh_of_holds (hok batch' rest' hpc') (hq.batch batch' rest' hpc') hh
        fun hc hbroken => hb ⟨hc, hbroken⟩
  · rintro s w i e s' - hI ⟨-, henv⟩ batch rest hpc
    have hkeys : s'.resultKeys = s.resultKeys := by cases e <;> cases henv <;> rfl
    intro f hf hnot
    rw [hkeys]
    exact hI batch rest hpc f hf hnot

theorem sends_fresh (h : (recovering cfg).lts.Reachable s)
    (hstep : Worker.step cfg s.1 (s.2 ()) a = some (s', w'))
    (hsends : (s.2 ()).sends a = some row) : row.key ∉ s.1.resultKeys := by
  unfold Worker.sends at hsends
  split at hsends
  · rename_i i
    split at hsends
    · rename_i batch rest hpc
      obtain ⟨f, hf, rfl⟩ := Option.map_eq_some_iff.mp hsends
      simp only [Worker.step, hpc] at hstep
      obtain ⟨⟨s'', batch'⟩, hb, -⟩ := Option.map_eq_some_iff.mp hstep
      cases Batch.step_inv hb with
      | thread hp =>
        obtain ⟨g, st, hg, -, hst, -⟩ := Pool.threadStep_inv hp
        obtain rfl : g = f := by simpa [hf] using hg.symm
        exact recovering_fresh h hpc g (List.mem_of_getElem? hg) (FutureState.not_done_of_step hst)
    · cases hsends
  · rename_i j i
    obtain ⟨p, hp, -⟩ := Option.bind_eq_some_iff.mp hsends
    simp only [Worker.step, hp] at hstep
    obtain ⟨p', hp', -⟩ := Option.map_eq_some_iff.mp hstep
    have hdone := List.all_eq_true.mp (recovering_quiet h ()).abandoned p (List.mem_of_getElem? hp)
    simp [Pool.not_allDone_of_step hp'] at hdone
  · cases hsends

theorem adds_own (h : (restarting cfg).lts.Reachable s)
    (hok : Faithful (s.2 ()) a) (hstep : Worker.step cfg s.1 (s.2 ()) a = some (s', w'))
    (hpc : (s.2 ()).pc = .processing batch rest) :
    (∃ more, s'.results = s.1.results ++ more ∧ ∀ r ∈ more, r.batchId = batch.id) ∧
      ∃ more, s'.batches = s.1.batches ++ more ∧ ∀ row ∈ more, row.batchId = batch.id := by
  have hledger : (s.2 ()).ledger.job = some (batch.id, batch.job) := by simp [Worker.ledger, hpc]
  have hh := restarting_holds h hpc
  have stays {s : Store} : (∃ more, s.results = s.results ++ more ∧ ∀ r ∈ more, r.batchId = batch.id) ∧
      ∃ more, s.batches = s.batches ++ more ∧ ∀ row ∈ more, row.batchId = batch.id :=
    ⟨⟨[], by simp⟩, [], by simp⟩
  have hledgers : (s' = s.1 ∧ w'.ledger = (s.2 ()).ledger) ∨
      Ledger.Act cfg False s.1 (s.2 ()).ledger s' w'.ledger :=
    Worker.ledger_step (restarting_ok h ()) (fun hn => hn hok) (Worker.step_inv hstep)
  rcases hledgers with ⟨rfl, -⟩ | hact
  · exact stays
  · generalize (s.2 ()).ledger = l, w'.ledger = l' at hledger hact
    cases hact with
    | work hjob hj =>
      obtain ⟨rfl, rfl⟩ : batch.id = _ ∧ batch.job = _ := by simpa [hledger] using hjob
      rcases hj.store with rfl | ⟨chunk, owed, hchunk, rfl⟩ | ⟨counts, -, rfl⟩
      · exact stays
      · refine ⟨⟨chunk, rfl, fun r hr => ?_⟩, [], by simp [Store.writeResults]⟩
        exact (hh.fresh _ (hchunk ▸ Ledger.Job.mem_keys hr owed)).1
      · exact ⟨⟨[], by simp [Store.writeBatchStatus]⟩, _, rfl, by simp⟩
    | _ => exact stays

/-- However chunks are given up, a row has at most one result, each batch is
reported at most once, with the counts of the tables, and a step on one batch
leaves the others alone. -/
theorem restart_tables_exact (h : (restarting cfg).lts.Reachable s) :
    s.1.resultKeys.Nodup ∧
      (∀ b, (s.1.completions b).length ≤ 1 ∧ ∀ row ∈ s.1.completions b,
        row.counts = s.1.getBatchCounts b ∧
          row.counts.completedRows + row.counts.failedRows = row.counts.totalRows) ∧
      ∀ a t batch rest, (restarting cfg).lts.step s (.inl ((), a)) t →
        (s.2 ()).pc = .processing batch rest →
          (∃ more, t.1.results = s.1.results ++ more ∧ ∀ r ∈ more, r.batchId = batch.id) ∧
            ∃ more, t.1.batches = s.1.batches ++ more ∧ ∀ row ∈ more, row.batchId = batch.id := by
  have hl := restarting_ledger h
  refine ⟨List.nodup_iff_count_le_one.mpr (ledgers_count_le hl), fun b => ?_, ?_⟩
  · have hfinal := ledger_final hl ()
    refine ⟨hfinal.once b, fun row hrow => ?_⟩
    obtain ⟨hmem, hb⟩ := List.mem_filter.mp hrow
    obtain ⟨rfl, hc⟩ : row.batchId = b ∧ row.status = .complete := by simpa using hb
    have hwithin := (ledgers_within hl).1 row hmem hc
    refine ⟨hfinal.counts row hmem hc, Nat.le_antisymm ?_ hwithin.1⟩
    simpa using hwithin.2
  · rintro a t batch rest ⟨w', ⟨hok, hstep⟩, -⟩ hpc
    exact adds_own h hok hstep hpc

/-- In every state that a single worker can reach through crashes and
restarts, a row has at most one result, a row that has one is not sent to the
provider again, each batch is reported at most once, with the counts of the
tables, and a step on one batch leaves the others alone. -/
theorem crash_recovery_exact (h : (recovering cfg).lts.Reachable s) :
    s.1.resultKeys.Nodup ∧
      (∀ a t row, (recovering cfg).lts.step s (.inl ((), a)) t → (s.2 ()).sends a = some row →
        row.key ∉ s.1.resultKeys) ∧
      (∀ b, (s.1.completions b).length ≤ 1 ∧ ∀ row ∈ s.1.completions b,
        row.counts = s.1.getBatchCounts b ∧
          row.counts.completedRows + row.counts.failedRows = row.counts.totalRows) ∧
      ∀ a t batch rest, (recovering cfg).lts.step s (.inl ((), a)) t →
        (s.2 ()).pc = .processing batch rest →
          (∃ more, t.1.results = s.1.results ++ more ∧ ∀ r ∈ more, r.batchId = batch.id) ∧
            ∃ more, t.1.batches = s.1.batches ++ more ∧ ∀ row ∈ more, row.batchId = batch.id := by
  obtain ⟨hnodup, honce, hown⟩ := restart_tables_exact (restarting_of_recovering h)
  refine ⟨hnodup, ?_, honce, fun a t batch rest hst => hown a t batch rest (restarting_of_step hst)⟩
  rintro a t row ⟨w', ⟨-, hstep⟩, -⟩ hsends
  exact sends_fresh h hstep hsends

def restarted : List (Unit × WorkerAction ⊕ EnvAction) :=
  submitted [plainRow 1 1] 1 ++ onWorker ()
    ([.start, .next, .poll, .next] ++ inBatch (onePage (served (plainRow 1 1))) ++
      [.crash, .start] ++ oneBatch (served (plainRow 1 1)))

theorem restarted_exact :
    ∃ s : Store × (Unit → Worker), s.1.HasStatus 1 .complete ∧ s.1.resultKeys.Nodup ∧
      (s.1.completions 1).length ≤ 1 := by
  have hexec : (LTS.exec (guardedNext rowByRow (fun w a => Faithful w a ∧ w.Drained a) Distinct)
      (.empty, fun _ : Unit => .down) restarted).map
        (fun s => decide (s.1.HasStatus 1 .complete)) = some true := by decide +kernel
  obtain ⟨s, hreach, hc⟩ := reachable_of_exec _ _ _ hexec
  obtain ⟨hnodup, -, honce, -⟩ := crash_recovery_exact hreach
  exact ⟨s, of_decide_eq_true hc, hnodup, (honce 1).1⟩

-- ---------------------------------------------------------------------------
-- A pool left at work
-- ---------------------------------------------------------------------------

def throttled : Exc := ⟨.clientError (some "ThrottlingException") none, "slow down"⟩

def pageOf51 : ServiceConfig := sampleConfig (bedrockExecutor 2 Nat.two_pos) 51 (by decide)

/-- A page of 51 rows, of which the first is waiting for its next attempt
when the other 50 make up a chunk. -/
def leakingPage : List BatchAction :=
  let turn (i n : Nat) : List PoolAction :=
    onThread i (served (plainRow 1 i)) ++ [.main (.wait [i])] ++ resumes n
  [.fetch] ++ inPool (resumes 3 ++
    onThread 0 [.start, .check false, .call, .answer (.error throttled)] ++
    (List.range 49).flatMap (fun i => turn (i + 1) 5) ++ turn 50 1)

/-- The same page after the chunk was given up: its first row is denied, and
the others are aborted. -/
def abortedAgain : List BatchAction :=
  [.fetch] ++ inPool (resumes 3 ++ onThread 0 (denied (plainRow 1 0)) ++ [.main (.wait [0])] ++ resumes 57)

def leak : List (Unit × WorkerAction ⊕ EnvAction) :=
  submitted ((List.range 51).map (plainRow 1)) 1 ++ onWorker () (
    [.start, .next, .poll, .next] ++ inBatch leakingPage ++
      List.replicate 3 (.batch (.insert .raisedBefore)) ++ [.next, .next, .next, .poll, .next] ++
      inBatch abortedAgain ++ [.batch (.insert .ok)])

/-- The thread that was left behind sends its row again, though it has a result by now. -/
theorem leaked_row_sent_again :
    ∃ s a t row,
      ((service pageOf51 : Shared Store Unit _ _ _).restrict Faithful Distinct).lts.Reachable s ∧
      ((service pageOf51).restrict Faithful Distinct).lts.step s (.inl ((), a)) t ∧
      (s.2 ()).sends a = some row ∧ row.key ∈ s.1.resultKeys := by
  have hexec : (LTS.exec (guardedNext pageOf51 Faithful Distinct) (.empty, fun _ : Unit => .down)
      leak).map (fun s => decide
        ((s.2 ()).sends (.leftover 0 0 .call) = some (plainRow 1 0) ∧ (1, 0) ∈ s.1.resultKeys ∧
          ((s.2 ()).step pageOf51 s.1 (.leftover 0 0 .call)).isSome)) = some true := by
    decide +kernel
  obtain ⟨s, hreach, hs⟩ := reachable_of_exec _ _ _ hexec
  obtain ⟨hsends, hstored, hsome⟩ := of_decide_eq_true hs
  obtain ⟨⟨s', w'⟩, hstep⟩ := Option.isSome_iff_exists.mp hsome
  exact ⟨s, _, _, _, hreach, Shared.step_of_act ⟨by simp [Faithful], hstep⟩, hsends, hstored⟩

end LlmWorker
