import LlmWorker.Service.Provenance
import LlmWorker.Service.Shutdown

/-!
# One worker is enough

Once nothing more is submitted, a worker that meets no failure of its own
completes every pending batch, whatever the other workers do, and needs only so
many steps for it: each pending batch pays for one pass of the poll loop.
-/

namespace LlmWorker

open Python Transition

-- ---------------------------------------------------------------------------
-- The tables while nothing is submitted
-- ---------------------------------------------------------------------------

namespace Store

def pending (s : Store) : Finset UUID := (s.batches.map (·.batchId)).toFinset.filter s.Pending

theorem mem_pending {s : Store} : b ∈ s.pending ↔ s.Pending b := by
  simp only [pending, Finset.mem_filter, List.mem_toFinset, and_iff_right_iff_imp]
  rintro ⟨⟨row, hrow, hid, -⟩, -⟩
  exact List.mem_map.mpr ⟨row, hrow, hid⟩

theorem getPendingBatches_ne_nil {s : Store} (hlimit : 0 < limit) (hb : s.Pending b) :
    s.getPendingBatches limit ≠ [] := by
  have hmem : b ∈ (s.batches.map (·.batchId)).dedup.filter fun b => s.Pending b := by
    simpa [pending] using mem_pending.mpr hb
  intro hnil
  rcases List.take_eq_nil_iff.mp hnil with hzero | hsorted
  · exact Nat.lt_irrefl 0 (hzero ▸ hlimit)
  · have hlength := (List.perm_insertionSort (· ≤ ·)
      ((s.batches.map (·.batchId)).dedup.filter fun b => s.Pending b)).length_eq
    rw [hsorted, List.length_nil] at hlength
    rw [List.length_eq_zero_iff.mp hlength.symm] at hmem
    cases hmem

/-- The monolith submits nothing; the workers may do anything. -/
structure Drains (s s' : Store) : Prop where
  inputs : ∀ row ∈ s.inputs, row ∈ s'.inputs
  status : ∀ b status, s.HasStatus b status → s'.HasStatus b status
  submitted : ∀ b, s'.HasStatus b .pending → s.HasStatus b .pending
  rows : ∀ b, s.HasStatus b .pending → Batch.rowsOf s' b = Batch.rowsOf s b
  keys : ∀ key ∈ s.resultKeys, key ∈ s'.resultKeys

theorem Drains.refl (s : Store) : Drains s s :=
  ⟨fun _ h => h, fun _ _ h => h, fun _ h => h, fun _ _ => rfl, fun _ h => h⟩

theorem Drains.keeps (h : Drains s s') : Keeps s s' := ⟨h.inputs, fun b => h.status b .pending⟩

theorem mem_rowsOf {s : Store} : row ∈ Batch.rowsOf s b ↔ s.RowOf b row := by
  simp [Batch.rowsOf, RowOf]

theorem Drains.pending (h : Drains s s') (hb : s'.Pending b) : s.Pending b :=
  ⟨h.submitted b hb.1, fun hc => hb.2 (h.status b .complete hc)⟩

theorem Drains.unprocessed (h : Drains s s') (hb : s.HasStatus b .pending) :
    (s'.unprocessed b).length ≤ (s.unprocessed b).length := by
  have split (s : Store) : s.unprocessed b = (Batch.rowsOf s b).filter fun row => row.key ∉ s.resultKeys := by
    rw [Batch.rowsOf, List.filter_filter]
    refine List.filter_congr fun row _ => ?_
    by_cases hid : row.batchId = b
    · have hkey : (b, row.rowId) = row.key := by rw [← hid]; rfl
      simp [hid, mem_resultRowIds, hkey]
    · simp [hid]
  rw [split s, split s', h.rows b hb]
  refine (List.monotone_filter_right _ fun row hrow => ?_).length_le
  simp only [decide_eq_true_eq] at hrow ⊢
  exact fun hkey => hrow (h.keys _ hkey)

theorem drains_writeResults (s : Store) (results : List LLMResult) : Drains s (s.writeResults results) :=
  ⟨fun _ h => h, fun _ _ h => h, fun _ h => h, fun _ _ => rfl, fun key hkey => by
    rw [resultKeys_writeResults]
    exact List.mem_append_left _ hkey⟩

theorem drains_complete (s : Store) (b : UUID) (counts : Counts) :
    Drains s (s.writeBatchStatus b .complete counts) where
  inputs _ h := h
  status _ _ h := hasStatus_writeBatchStatus.mpr (.inl h)
  submitted c h := by
    rcases hasStatus_writeBatchStatus.mp h with hold | ⟨-, hnew⟩
    · exact hold
    · cases hnew
  rows _ _ := rfl
  keys _ h := h

theorem drains_addInput (h : Closed s (.addInput row)) : Drains s { s with inputs := s.inputs ++ [row] } where
  inputs _ h := List.mem_append_left _ h
  status _ _ h := h
  submitted _ h := h
  rows b hb := by
    have hne : row.batchId ≠ b := fun hid => h row rfl (hid ▸ hb)
    simp [Batch.rowsOf, hne]
  keys _ h := h

end Store

theorem Batch.drains_step (h : Batch.Step cfg s batch a s' batch') : Store.Drains s s' := by
  cases h with
  | write =>
    split
    · exact Store.drains_writeResults s _
    · exact .refl s
  | report =>
    split
    · exact Store.drains_complete s _ _
    · exact .refl s
  | _ => exact .refl s

theorem Worker.drains_step (h : Worker.Step cfg s w a s' w') : Store.Drains s s' := by
  cases h with
  | batch _ hb => exact Batch.drains_step hb
  | _ => exact .refl s

theorem Store.Drains.others (h : Drains s s') (hb : s.HasStatus batch.id .pending) : Batch.Others s batch s' :=
  ⟨h.rows batch.id hb, h.keys⟩

-- ---------------------------------------------------------------------------
-- A batch whose processing meets no failure
-- ---------------------------------------------------------------------------

namespace Batch

/-- The provider may answer anything. -/
abbrev anything : Call → Prop := fun _ => True

structure Smooth (cfg : ServiceConfig) (s : Store) (batch : Batch) : Prop where
  earned : batch.Earned cfg anything s
  sane : batch.Sane cfg
  blamed : batch.pool.Blamed
  going : ∀ e, batch.pc ≠ .failed e
  reported : batch.pc = .returned → s.HasStatus batch.id .complete

def ShallowRows (cfg : ServiceConfig) (s : Store) (b : UUID) : Prop :=
  ∀ row, s.RowOf b row → ¬cfg.executor.NestsTooDeep row

variable {cfg : ServiceConfig} {s s' : Store} {batch batch' : Batch}

theorem smooth_start (hb : s.HasStatus b .pending) : (start b).Smooth cfg s where
  earned := earned_start hb
  sane := sane_start cfg b
  blamed := by simp [start, Pool.Blamed, Pool.Broken]
  going := by simp [start]
  reported := by simp [start]

theorem Smooth.mono (h : batch.Smooth cfg s) (hd : Store.Drains s s') : batch.Smooth cfg s' :=
  ⟨h.earned.mono (fun _ hc => hc) hd.keeps, h.sane, h.blamed, h.going, fun hret => hd.status _ _ (h.reported hret)⟩

theorem ShallowRows.mono (h : ShallowRows cfg s b) (hb : s.HasStatus b .pending) (hd : Store.Drains s s') :
    ShallowRows cfg s' b := by
  intro row hrow
  rw [← Store.mem_rowsOf, hd.rows b hb, Store.mem_rowsOf] at hrow
  exact h row hrow

theorem Smooth.not_broken (h : batch.Smooth cfg s) (hpy : cfg.executor.py.LoadsRaises)
    (hshallow : ShallowRows cfg s batch.id) : ¬batch.pool.Broken := by
  intro hbroken
  obtain ⟨i, e, hraised⟩ := h.blamed hbroken
  obtain ⟨row, hrow, hparse, hnone⟩ := h.earned.pool.state hraised
  exact hshallow row hrow ((BatchExecutor.parseRow_escapes_iff hpy row).mp ⟨e, hparse, hnone⟩)

theorem smooth_step (hb : batch.Smooth cfg s) (hpy : cfg.executor.py.LoadsRaises)
    (hshallow : ShallowRows cfg s batch.id) (ha : Succeeds a) (h : Step cfg s batch a s' batch') :
    batch'.Smooth cfg s' := by
  have hearned := earned_step hb.earned (fun _ _ => trivial) h
  have hsane := sane_step hb.sane h
  cases h with
  | thread hp => exact ⟨hearned, hsane, Pool.blamed_thread hb.blamed hp, hb.going, hb.reported⟩
  | silent hpc hp =>
    exact ⟨hearned, hsane, Pool.blamed_main hb.blamed (Pool.mainStep_inv hp), hb.going, by simp [hpc]⟩
  | receive hpc hp =>
    refine ⟨hearned, hsane, Pool.blamed_main hb.blamed (Pool.mainStep_inv hp), ?_, ?_⟩ <;>
      simp only [receive] <;> split <;> simp
  | page => exact ⟨hearned, hsane, by simp [Pool.Blamed, Pool.Broken, Pool.start], by simp, by simp⟩
  | empty | turn | flush | count => exact ⟨hearned, hsane, hb.blamed, by simp, by simp⟩
  | raised _ hpool => exact absurd (by simp [Pool.Broken, hpool]) (hb.not_broken hpy hshallow)
  | readError => exact ha.elim
  | write =>
    obtain rfl : _ = InsertOutcome.ok := ha
    exact ⟨hearned, hsane, hb.blamed, by simp [afterWrite, afterInsert], by simp [afterWrite, afterInsert]⟩
  | report =>
    obtain rfl : _ = InsertOutcome.ok := ha
    exact ⟨hearned, hsane, hb.blamed, by simp [afterReport, afterInsert], fun _ =>
      Store.hasStatus_writeBatchStatus.mpr (.inr ⟨rfl, rfl⟩)⟩

end Batch

-- ---------------------------------------------------------------------------
-- What a worker on duty has left to do
-- ---------------------------------------------------------------------------

namespace Worker

def waiting (w : Worker) : List UUID :=
  match w.pc with
  | .batches rest | .processing _ rest => rest
  | _ => []

/-- A worker on its way through the poll loop, where the batches that satisfy
`Q` are the ones that were pending once. -/
structure OnDuty (cfg : ServiceConfig) (Q : UUID → Prop) (s : Store) (w : Worker) : Prop where
  up : w.pc ≠ .down ∧ w.pc ≠ .stopped
  going : w.shouldStop = false
  once : ∀ b, s.Pending b → Q b
  submitted : ∀ b, Q b → s.HasStatus b .pending
  shallow : ∀ b, Q b → Batch.ShallowRows cfg s b
  queued : ∀ b ∈ w.waiting, Q b
  nodup : w.waiting.Nodup
  batch : ∀ batch rest, w.pc = .processing batch rest → batch.Smooth cfg s ∧ Q batch.id ∧ batch.id ∉ rest

/-- What a pending batch pays for: its rows, and one turn of the poll loop. -/
def batchSteps (cfg : ServiceConfig) (s : Store) (b : UUID) : Nat :=
  Batch.pageSteps cfg * (s.unprocessed b).length + 10

def ahead (s : Store) (w : Worker) : Finset UUID :=
  match w.pc with
  | .processing batch rest => (s.pending ∪ rest.toFinset).erase batch.id
  | .batches rest => s.pending ∪ rest.toFinset
  | _ => s.pending

noncomputable def turnSteps (cfg : ServiceConfig) (s : Store) : WorkerPc → Nat
  | .down | .stopped => 0
  | .batches (_ :: _) => 6
  | .querying => 7
  | .polling => 8
  | .batches [] | .sleeping => 9
  | .processing batch _ => 10 + batch.stepsLeft cfg s

/-- A bound on the steps before no batch is pending. -/
noncomputable def drainSteps (cfg : ServiceConfig) (s : Store) (w : Worker) : Nat :=
  ∑ b ∈ ahead s w, batchSteps cfg s b + turnSteps cfg s w.pc + leftoverSteps cfg w

variable {cfg : ServiceConfig} {Q : UUID → Prop} {s s' : Store} {w w' : Worker}

theorem OnDuty.hasStatus (h : w.OnDuty cfg Q s) (hb : b ∈ ahead s w) : s.HasStatus b .pending := by
  have either (hmem : b ∈ s.pending ∪ w.waiting.toFinset) : s.HasStatus b .pending := by
    rcases Finset.mem_union.mp hmem with hp | hw
    · exact (Store.mem_pending.mp hp).1
    · exact h.submitted b (h.queued b (List.mem_toFinset.mp hw))
  unfold ahead at hb
  cases hpc : w.pc with
  | processing batch rest =>
    rw [hpc] at hb
    exact either (by simpa [waiting, hpc] using (Finset.mem_erase.mp hb).2)
  | batches rest =>
    rw [hpc] at hb
    exact either (by simpa [waiting, hpc] using hb)
  | _ =>
    rw [hpc] at hb
    exact (Store.mem_pending.mp hb).1

theorem OnDuty.mono (h : w.OnDuty cfg Q s) (hd : Store.Drains s s') : w.OnDuty cfg Q s' where
  up := h.up
  going := h.going
  once b hb := h.once b (hd.pending hb)
  submitted b hb := hd.status b .pending (h.submitted b hb)
  shallow b hb := (h.shallow b hb).mono (h.submitted b hb) hd
  queued := h.queued
  nodup := h.nodup
  batch b rest hpc := (h.batch b rest hpc).imp_left (·.mono hd)

theorem aheadSteps_le (h : w.OnDuty cfg Q s) (hd : Store.Drains s s') (hsub : ahead s' w' ⊆ ahead s w) :
    ∑ b ∈ ahead s' w', batchSteps cfg s' b ≤ ∑ b ∈ ahead s w, batchSteps cfg s b := by
  refine (Finset.sum_le_sum_of_subset hsub).trans (Finset.sum_le_sum fun b hb => ?_)
  exact Nat.add_le_add_right (Nat.mul_le_mul_left _ (hd.unprocessed (h.hasStatus hb))) _

theorem pending_subset (hd : Store.Drains s s') : s'.pending ⊆ s.pending := fun _ hb =>
  Store.mem_pending.mpr (hd.pending (Store.mem_pending.mp hb))

theorem ahead_subset (hd : Store.Drains s s') (w : Worker) : ahead s' w ⊆ ahead s w := by
  have hsub := pending_subset hd
  unfold ahead
  split
  · exact Finset.erase_subset_erase _ (Finset.union_subset_union_left hsub)
  · exact Finset.union_subset_union_left hsub
  · exact hsub

theorem OnDuty.drainSteps_le (h : w.OnDuty cfg Q s) (hd : Store.Drains s s') :
    drainSteps cfg s' w ≤ drainSteps cfg s w := by
  have hahead := aheadSteps_le h hd (ahead_subset hd w)
  have hturn : turnSteps cfg s' w.pc ≤ turnSteps cfg s w.pc := by
    cases hpc : w.pc with
    | processing batch rest =>
      obtain ⟨hsmooth, -⟩ := h.batch batch rest hpc
      exact Nat.add_le_add_left (hd.others hsmooth.earned.submitted).stepsLeft_le _
    | batches rest => cases rest <;> exact Nat.le_refl _
    | _ => exact Nat.le_refl _
  unfold drainSteps
  omega

theorem OnDuty.goto (rest : List UUID) {pc : WorkerPc} (h : w.OnDuty cfg Q s)
    (hpc : pc = .querying ∨ pc = .polling ∨ pc = .sleeping ∨ pc = .batches rest)
    (hwaiting : pc = .batches rest → (∀ b ∈ rest, Q b) ∧ rest.Nodup) : OnDuty cfg Q s { w with pc := pc } := by
  refine ⟨?_, h.going, h.once, h.submitted, h.shallow, ?_, ?_, ?_⟩ <;>
    rcases hpc with rfl | rfl | rfl | rfl <;> simp [waiting]
  · exact (hwaiting rfl).1
  · exact (hwaiting rfl).2

theorem onDuty_step (h : w.OnDuty cfg Q s) (hpy : cfg.executor.py.LoadsRaises) (ha : Healthy a)
    (hstep : Step cfg s w a s' w') : w'.OnDuty cfg Q s' := by
  have hd := drains_step hstep
  have h' := h.mono hd
  have hwaiting := h.queued
  have hnodup := h.nodup
  cases hstep with
  | start | crash | signal | readError => exact ha.elim
  | loop =>
    have hquery : OnDuty cfg Q s { w with pc := .querying } := h'.goto [] (by simp) (by simp)
    simpa [h.going] using hquery
  | passed | wake | idle => exact h'.goto [] (by simp) (by simp)
  | leave _ hstop =>
    rw [h.going] at hstop
    cases hstop
  | @take b rest hpc =>
    simp only [waiting, hpc] at hwaiting hnodup
    have hb := hwaiting b (by simp)
    obtain ⟨hnew, hrest⟩ := List.nodup_cons.mp hnodup
    refine ⟨by simp, h.going, h'.once, h'.submitted, h'.shallow, ?_, hrest, ?_⟩
    · exact fun c hc => hwaiting c (List.mem_cons_of_mem _ hc)
    · rintro _ _ ⟨⟩
      exact ⟨Batch.smooth_start (h.submitted b hb), hb, hnew⟩
  | finish hpc =>
    simp only [waiting, hpc] at hwaiting hnodup
    exact h'.goto _ (.inr (.inr (.inr rfl))) fun _ => ⟨hwaiting, hnodup⟩
  | giveUp hpc hfailed => exact absurd hfailed ((h.batch _ _ hpc).1.going _)
  | die hpc hfailed => exact absurd hfailed ((h.batch _ _ hpc).1.going _)
  | exit hpc => exact absurd hpc h.up.2
  | poll =>
    refine h'.goto _ (.inr (.inr (.inr rfl))) fun _ => ⟨fun b hb => ?_, Store.nodup_getPendingBatches _ _⟩
    exact h.once b (Store.mem_getPendingBatches hb)
  | @batch batch rest a s' batch' hpc hb =>
    obtain ⟨hsmooth, hQ, hnew⟩ := h.batch batch rest hpc
    simp only [waiting, hpc] at hwaiting hnodup
    refine ⟨by simp, h.going, h'.once, h'.submitted, h'.shallow, hwaiting, hnodup, ?_⟩
    rintro _ _ ⟨⟩
    rw [Batch.id_step hb]
    exact ⟨Batch.smooth_step hsmooth hpy (h.shallow _ hQ) ha hb, hQ, hnew⟩
  | leftover => exact ⟨h.up, h.going, h'.once, h'.submitted, h'.shallow, hwaiting, hnodup, h'.batch⟩

theorem drainSteps_step (h : w.OnDuty cfg Q s) (hlimit : 0 < cfg.pendingBatchLimit) (ha : Healthy a)
    (hstep : Step cfg s w a s' w') (hpending : s'.Pending c) : 1 + drainSteps cfg s' w' ≤ drainSteps cfg s w := by
  have hd := drains_step hstep
  have hsub := pending_subset hd
  have hnodup := h.nodup
  cases hstep with
  | start | crash | signal | readError => exact ha.elim
  | loop hpc =>
    simp only [drainSteps, turnSteps, ahead, leftoverSteps, hpc, h.going, Bool.false_eq_true, if_false]
    omega
  | passed hpc =>
    simp only [drainSteps, turnSteps, ahead, leftoverSteps, hpc, List.toFinset_nil, Finset.union_empty]
    omega
  | wake hpc =>
    simp only [drainSteps, turnSteps, ahead, leftoverSteps, hpc]
    omega
  | leave _ hstop =>
    rw [h.going] at hstop
    cases hstop
  | @take b rest hpc =>
    simp only [waiting, hpc] at hnodup
    have herase : ((s.pending ∪ (b :: rest).toFinset).erase b) = ((s.pending ∪ rest.toFinset).erase b) := by
      ext c
      simp only [Finset.mem_erase, Finset.mem_union, List.toFinset_cons, Finset.mem_insert]
      tauto
    have hsum := Finset.add_sum_erase (s.pending ∪ (b :: rest).toFinset) (batchSteps cfg s) (a := b) (by simp)
    rw [herase] at hsum
    have hstart := Batch.stepsLeft_start cfg s b
    have hid : (Batch.start b).id = b := rfl
    simp only [drainSteps, turnSteps, ahead, leftoverSteps, hpc, hid]
    rw [← hsum, batchSteps]
    omega
  | @finish batch rest hpc hret =>
    obtain ⟨hsmooth, -, hnew⟩ := h.batch batch rest hpc
    have hdone : batch.id ∉ s.pending := fun hmem => (Store.mem_pending.mp hmem).2 (hsmooth.reported hret)
    have herase : (s.pending ∪ rest.toFinset).erase batch.id = s.pending ∪ rest.toFinset :=
      Finset.erase_eq_of_notMem (by simp [hdone, hnew])
    have hturn : turnSteps cfg s (.batches rest) ≤ 9 := by cases rest <;> simp [turnSteps]
    simp only [drainSteps, ahead, leftoverSteps, hpc, herase, turnSteps] at hturn ⊢
    omega
  | giveUp hpc hfailed => exact absurd hfailed ((h.batch _ _ hpc).1.going _)
  | die hpc hfailed => exact absurd hfailed ((h.batch _ _ hpc).1.going _)
  | exit hpc => exact absurd hpc h.up.2
  | idle _ hnil => exact absurd hnil (Store.getPendingBatches_ne_nil hlimit hpending)
  | poll hpc hne =>
    have hahead : s.pending ∪ (s.getPendingBatches cfg.pendingBatchLimit).toFinset = s.pending := by
      refine Finset.union_eq_left.mpr fun b hb => ?_
      exact Store.mem_pending.mpr (Store.mem_getPendingBatches (List.mem_toFinset.mp hb))
    have hturn : turnSteps cfg s (.batches (s.getPendingBatches cfg.pendingBatchLimit)) = 6 := by
      obtain ⟨b, rest, heq⟩ := List.exists_cons_of_ne_nil hne
      rw [heq]
      rfl
    have hold : turnSteps cfg s .querying = 7 := rfl
    simp only [drainSteps, ahead, leftoverSteps, hpc, hahead, hturn, hold]
    omega
  | @batch batch rest a s' batch' hpc hb =>
    have hlt := Batch.stepsLeft_step (h.batch batch rest hpc).1.sane hb
    let next := { w with pc := .processing batch' rest, accepted := w.accepted ++ added s s' }
    have hnext : ahead s' next ⊆ ahead s w := by
      simp only [next, ahead, hpc, Batch.id_step hb]
      exact Finset.erase_subset_erase _ (Finset.union_subset_union_left hsub)
    have hahead := aheadSteps_le h hd hnext
    simp only [next, drainSteps, leftoverSteps, turnSteps, hpc] at hahead ⊢
    omega
  | @leftover j p p' i a hp hthread =>
    have hlt := Pool.futuresRank_thread hthread
    have hsum : ((w.abandoned.set j p').map fun p => p.futuresRank cfg.executor).sum + p.futuresRank cfg.executor =
        (w.abandoned.map fun p => p.futuresRank cfg.executor).sum + p'.futuresRank cfg.executor := sum_map_set hp
    have hsame : ahead s { w with abandoned := w.abandoned.set j p' } = ahead s w := rfl
    simp only [drainSteps, hsame, leftoverSteps]
    omega

end Worker

-- ---------------------------------------------------------------------------
-- One worker of the service
-- ---------------------------------------------------------------------------

section

variable {ι : Type} [DecidableEq ι] {cfg : ServiceConfig} {s t : Store × (ι → Worker)}

/-- The service from a reachable state on, where no more batches are submitted. -/
def drainingService (ι : Type) [DecidableEq ι] (cfg : ServiceConfig) :
    Shared Store ι Worker WorkerAction EnvAction where
  init s w := (closedService ι cfg).lts.Reachable (s, w)
  act s w a s' w' := Worker.step cfg s w a = some (s', w')
  env s e s' := (Closed s e ∧ ∀ b, e ≠ .addPending b) ∧ s.env e = some s'

theorem draining_amid (i : ι) (hreach : (closedService ι cfg).lts.Reachable s)
    (h : (drainingService ι cfg).lts.Run s as t) :
    (amid (fun s w a s' w' => Worker.step cfg s w a = some (s', w')) fun s _ s' => Store.Drains s s').Run
      (s.1, s.2 i) (as.map (Shared.seen i)) (t.1, t.2 i) := by
  have hstart : (drainingService ι cfg).lts.Reachable s :=
    .init (show (drainingService ι cfg).lts.init s from hreach)
  refine Shared.run_amid (O := fun s _ s' => Store.Drains s s') i hstart h ?_ ?_
  · intro s w j a s' w' _ _ hact
    exact Worker.drains_step (Worker.step_inv hact)
  · rintro s w e s' - ⟨⟨hclosed, hnone⟩, henv⟩
    cases e with
    | addInput row =>
      cases henv
      exact Store.drains_addInput hclosed
    | addPending b => exact absurd rfl (hnone b)

theorem draining_reachable (hreach : (closedService ι cfg).lts.Reachable s)
    (h : (drainingService ι cfg).lts.Run s as t) : (closedService ι cfg).lts.Reachable t := by
  refine h.invariant (I := (closedService ι cfg).lts.Reachable) hreach ?_
  rintro s a t hreach hstep
  refine hreach.step (a := a) ?_
  rcases a with ⟨i, a⟩ | e
  · obtain ⟨w, hact, ht⟩ := hstep
    exact ⟨w, ⟨trivial, hact⟩, ht⟩
  · obtain ⟨⟨⟨hclosed, -⟩, henv⟩, ht⟩ := hstep
    exact ⟨⟨hclosed, henv⟩, ht⟩

/-- A worker that meets no failure of its own never gets stuck, and after so many
of its steps every batch is complete, whatever the other workers do. -/
theorem one_worker_drains (hlimit : 0 < cfg.pendingBatchLimit) (hpy : cfg.executor.py.LoadsRaises)
    (hreach : (closedService ι cfg).lts.Reachable s) (i : ι)
    (hpoll : (s.2 i).pc = .polling) (hgo : (s.2 i).shouldStop = false)
    (hshallow : ∀ b, s.1.Pending b → Batch.ShallowRows cfg s.1 b)
    (h : (drainingService ι cfg).lts.Run s as t) (hown : ∀ a, .inl (i, a) ∈ as → Worker.Healthy a) :
    (∃ a s' w', Worker.Healthy a ∧ Worker.step cfg t.1 (t.2 i) a = some (s', w')) ∧
    (∑ b ∈ s.1.pending, Worker.batchSteps cfg s.1 b + 8 + (s.2 i).leftoverSteps cfg <
        ownSteps (as.map (Shared.seen i)) →
      ∀ b, s.1.HasStatus b .pending → t.1.HasStatus b .complete ∧ t.1.Covered b) := by
  have hrun := amid_restrict (draining_amid i hreach h) fun a ha => hown a (Shared.inl_mem_seen ha)
  let I (s' : Store) (w : Worker) : Prop :=
    w.OnDuty cfg s.1.Pending s' ∧ ∀ b, s.1.HasStatus b .pending → s'.HasStatus b .pending
  have hstart : I s.1 (s.2 i) := by
    refine ⟨⟨by simp [hpoll], hgo, fun _ hb => hb, fun _ hb => hb.1, hshallow, ?_, ?_, ?_⟩, fun _ hb => hb⟩
    · simp [Worker.waiting, hpoll]
    · simp [Worker.waiting, hpoll]
    · simp [hpoll]
  obtain ⟨⟨hduty, hkept⟩, hsteps⟩ := amid_cost_le_while (I := I) (W := fun s _ => ∃ b, s.Pending b)
    (r := Worker.drainSteps cfg) (c := fun _ => 1) hrun hstart
    (fun {s w a s' w'} ⟨hduty, hkept⟩ ⟨ha, hact⟩ => by
      have hstep := Worker.step_inv hact
      have hd := Worker.drains_step hstep
      refine ⟨⟨Worker.onDuty_step hduty hpy ha hstep, fun b hb => hd.status b _ (hkept b hb)⟩, ?_⟩
      rintro ⟨b, hb⟩
      exact ⟨⟨b, hd.pending hb⟩, Worker.drainSteps_step hduty hlimit ha hstep hb⟩)
    fun {s w s'} ⟨hduty, hkept⟩ hd =>
      ⟨⟨hduty.mono hd, fun b hb => hd.status b _ (hkept b hb)⟩, fun ⟨b, hb⟩ =>
        ⟨⟨b, hd.pending hb⟩, hduty.drainSteps_le hd⟩⟩
  refine ⟨?_, fun hmany b hb => ?_⟩
  · have hsane : (t.2 i).Sane cfg := fun batch rest hpc => (hduty.batch batch rest hpc).1.sane
    exact hsane.progress hduty.up.1
  · have hbound : Worker.drainSteps cfg s.1 (s.2 i) =
        ∑ b ∈ s.1.pending, Worker.batchSteps cfg s.1 b + 8 + (s.2 i).leftoverSteps cfg := by
      simp [Worker.drainSteps, Worker.ahead, Worker.turnSteps, hpoll]
    have hnone : ¬∃ b, t.1.Pending b := by
      intro hsome
      have hle := hsteps hsome
      rw [hbound] at hle
      exact absurd hmany (Nat.not_lt.mpr ((Nat.le_add_right _ _).trans hle))
    have hcomplete : t.1.HasStatus b .complete :=
      Classical.byContradiction fun hc => hnone ⟨b, hkept b hb, hc⟩
    have hledgers : (ledgers ι cfg True Closed).lts.Reachable (t.1, Worker.ledger ∘ t.2) :=
      (service_refines fun _ _ _ _ => trivial).reachable (draining_reachable hreach h)
    exact ⟨hcomplete, ((ledgers_sound (fun _ _ hclosed => hclosed.frozen b) hledgers).1 hcomplete).2⟩

end

-- One worker crashes in the middle of the batch; the other takes it up from the
-- start and then finds nothing to do.

def upToPolling : List (Bool × WorkerAction ⊕ EnvAction) :=
  submitted [plainRow 1 1] 1 ++ onWorker false [.start]

def idlePasses (n : Nat) : List WorkerAction := (List.replicate n [.next, .poll, .next]).flatten

def drained : List (Bool × WorkerAction ⊕ EnvAction) :=
  onWorker true [.start, .next, .poll, .next, .batch .fetch, .crash] ++
    onWorker false (oneBatch (served (plainRow 1 1)) ++ [.next] ++ idlePasses 100)

theorem one_worker_drains_crash : ∃ s t : Store × (Bool → Worker),
    (closedService Bool rowByRow).lts.Reachable s ∧ (drainingService Bool rowByRow).lts.Run s drained t ∧
      s.1.Pending 1 ∧ t.1.HasStatus 1 .complete ∧ t.1.Covered 1 := by
  let down : Store × (Bool → Worker) := (.empty, fun _ => .down)
  have hfirst : (LTS.exec (guardedNext rowByRow (fun _ _ => True) Closed) down upToPolling).map
      (fun s => decide (((s.2 false).pc = .polling ∧ (s.2 false).shouldStop = false) ∧ s.1.inputs = [plainRow 1 1] ∧
        s.1.Pending 1 ∧ ∑ b ∈ s.1.pending, Worker.batchSteps rowByRow s.1 b + 8 +
          (s.2 false).leftoverSteps rowByRow < ownSteps (drained.map (Shared.seen false)))) = some true := by
    decide +kernel
  have hboth : (LTS.exec (guardedNext rowByRow (fun _ _ => True) Closed) down (upToPolling ++ drained)).map
      (fun _ => true) = some true := by decide +kernel
  obtain ⟨s, hs, hstate⟩ := Option.map_eq_some_iff.mp hfirst
  obtain ⟨⟨hpoll, hgo⟩, hinputs, hpending, hmany⟩ := of_decide_eq_true hstate
  rw [LTS.exec_append, hs, Option.bind_some] at hboth
  obtain ⟨t, ht, -⟩ := Option.map_eq_some_iff.mp hboth
  have hreach : (closedService Bool rowByRow).lts.Reachable s :=
    ⟨down, _, ⟨rfl, fun _ => rfl⟩, Shared.run_of_exec (fun _ => trivial) of_decide_eq_true hs⟩
  have hclosed : (closedService Bool rowByRow).lts.Run s drained t :=
    Shared.run_of_exec (fun _ => trivial) of_decide_eq_true ht
  have hrun : (drainingService Bool rowByRow).lts.Run s drained t := by
    have hleft : ∀ a ∈ drained, a.isLeft = true := by decide +kernel
    refine (hclosed.restrict hleft).mono ?_
    rintro s a t ⟨hleft, hstep⟩
    rcases a with ⟨i, a⟩ | e
    · obtain ⟨w, ⟨-, hact⟩, ht⟩ := hstep
      exact ⟨w, hact, ht⟩
    · cases hleft
  have hshallow (b : UUID) (_ : s.1.Pending b) : Batch.ShallowRows rowByRow s.1 b := by
    rintro row ⟨hrow, -⟩
    obtain rfl : row = plainRow 1 1 := by simpa [hinputs] using hrow
    exact plainRow_shallow 1 1
  have hown (a : WorkerAction) (ha : .inl (false, a) ∈ drained) : Worker.Healthy a := by
    have hall : (drained.map (Shared.seen false)).all
        (Sum.elim (fun a => decide (Worker.Healthy a)) fun _ => true) = true := by decide +kernel
    have hmem : .inl a ∈ drained.map (Shared.seen false) := List.mem_map.mpr ⟨_, ha, by simp [Shared.seen]⟩
    simpa using List.all_eq_true.mp hall _ hmem
  obtain ⟨-, hdrained⟩ :=
    one_worker_drains (by decide) sampleStdlib_loadsRaises hreach false hpoll hgo hshallow hrun hown
  obtain ⟨hcomplete, hcovered⟩ := hdrained hmany 1 hpending.1
  exact ⟨s, t, hreach, hrun, hpending, hcomplete, hcovered⟩

end LlmWorker
