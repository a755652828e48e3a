import LlmWorker.Service.Worker

/-!
# Aborting a batch

The abort event belongs to one call of `process_batch_iter`, that is to one
page. A row that starts on the page after the event was set is recorded as
aborted without a call; a later page starts with a new event.
-/

namespace LlmWorker

open Python Transition

-- ---------------------------------------------------------------------------
-- On one page
-- ---------------------------------------------------------------------------

namespace Pool

/-- Thread `j` has started on `row` after the abort event was set. -/
def Late (j : Nat) (row : LLMInput) (p : Pool) : Prop :=
  p.abortEvent = true ∧ ∃ st, p.futures[j]? = some ⟨row, st⟩ ∧
    (st = .running .entered ∨ st = .running (.returning (abortedResult row)) ∨
      st = .finished (abortedResult row))

theorem late_start (hset : p.abortEvent = true) (hf : p.futures[j]? = some f)
    (h : threadStep x p j .start = some p') : Late j f.row p' := by
  obtain ⟨g, st, hg, -, hst, rfl⟩ := threadStep_inv h
  obtain rfl : g = f := by simpa [hf] using hg.symm
  have hlt := (List.getElem?_eq_some_iff.mp hg).1
  cases hs : g.state <;> simp [hs, BatchExecutor.threadStep] at hst
  case pending =>
    subst hst
    exact ⟨by simp [hset], _, by simp [hlt], .inl rfl⟩
  case running phase => cases phase <;> simp [BatchExecutor.phaseStep] at hst

theorem late_thread (hl : Late j row p) (h : threadStep x p i a = some p') :
    Late j row p' ∧ ¬(i = j ∧ a = .call) := by
  obtain ⟨hset, st, hget, hst⟩ := hl
  have hset' : p'.abortEvent = true := by simp [abortEvent_thread h, hset]
  obtain ⟨f, st', hf, hsees, hstep, rfl⟩ := threadStep_inv h
  by_cases hij : i = j
  · subst hij
    obtain rfl : f = ⟨row, st⟩ := by simpa [hget] using hf.symm
    have hlt := (List.getElem?_eq_some_iff.mp hf).1
    have hget' : (p.futures.set i ⟨row, st'⟩)[i]? = some ⟨row, st'⟩ := by simp [hlt]
    rcases hst with rfl | rfl | rfl
    · cases a <;> simp [BatchExecutor.threadStep, BatchExecutor.phaseStep] at hstep
      case check isSet =>
        obtain rfl : isSet = true := by simpa [sees, hset] using hsees
        exact ⟨⟨hset', st', hget', .inr (.inl (by simpa using hstep.symm))⟩, by simp⟩
    · cases a <;> simp [BatchExecutor.threadStep, BatchExecutor.phaseStep] at hstep
      case ret result =>
        obtain ⟨rfl, rfl⟩ := hstep
        exact ⟨⟨hset', _, hget', .inr (.inr rfl)⟩, by simp⟩
    · simp [BatchExecutor.threadStep] at hstep
  · exact ⟨⟨hset', st, by simpa [hij] using hget, hst⟩, fun h => hij h.1⟩

theorem late_main (hl : Late j row p) (h : MainStep x p p' out) : Late j row p' := by
  obtain ⟨hset, st, hget, hst⟩ := hl
  refine ⟨(abortEvent_main h).trans hset, st, ?_, hst⟩
  rcases futures_main h with heq | ⟨last, heq⟩ | ⟨i, heq⟩
  · rwa [heq]
  · rw [heq, List.getElem?_append_left (List.getElem?_eq_some_iff.mp hget).1]
    exact hget
  · have hcancel : st.cancel = st := by rcases hst with rfl | rfl | rfl <;> rfl
    rw [heq, getElem?_cancel, hget, Option.map_some]
    split <;> simp [hcancel]

theorem late_outcome (hw : Wf x inputs p) (hpc : p.pc = .exhausted) (hl : Late j row p) :
    (row, abortedResult row) ∈ p.outcomes inputs := by
  obtain ⟨-, st, hget, hst⟩ := hl
  have hsettled : st.Settled := hw.settled hpc hget
  have hvalue : Future.promise ⟨row, st⟩ = (row, abortedResult row) := by
    rcases hst with rfl | rfl | rfl
    · exact absurd hsettled not_false
    · exact absurd hsettled not_false
    · rfl
  rw [← hvalue]
  exact List.mem_of_getElem? (outcomes_of_future hget)

end Pool

-- ---------------------------------------------------------------------------
-- What a page leaves in the table
-- ---------------------------------------------------------------------------

namespace Batch

/-- The results of the last page are all written. -/
def Resting (batch : Batch) : Prop :=
  match batch.pc with
  | .fetching | .counting | .reporting .. | .returned => True
  | _ => False

/-- Each result of the page is in the table or in the chunk at hand. -/
structure Recorded (cfg : ServiceConfig) (inputs : List LLMInput) (s : Store) (batch : Batch) : Prop where
  wf : Pool.Wf cfg.executor inputs batch.pool
  paid : batch.pool.Broken ∨ ∃ paid, Pool.Accounts inputs batch.pool paid ∧
    ∀ e ∈ paid, e.2 ∈ s.results ∨ e.2 ∈ batch.pending
  rest : batch.Resting → batch.pool.pc = .exhausted ∧ batch.pending = []

theorem recorded_pool (hr : Recorded cfg inputs s batch)
    (h : batch.pool.step cfg.executor a = some (p, out)) :
    Pool.Wf cfg.executor inputs p ∧ (p.Broken ∨ ∃ paid, Pool.Accounts inputs p paid ∧
      ∀ e ∈ paid, e.2 ∈ s.results ∨ e.2 ∈ batch.pending ++ out.toList) := by
  refine ⟨Pool.wf_step hr.wf h, ?_⟩
  by_cases hb : p.Broken
  · exact .inl hb
  · rcases hr.paid with hbroken | ⟨paid, hacc, hpaid⟩
    · exact absurd (Pool.broken_step h hbroken) hb
    · obtain ⟨more, hmore, hacc'⟩ := Pool.accounts_step hr.wf h hb hacc
      refine .inr ⟨paid ++ more, hacc', fun e he => ?_⟩
      rcases List.mem_append.mp he with hold | hnew
      · exact (hpaid e hold).imp_right (List.mem_append_left _)
      · exact .inr (List.mem_append_right _ (hmore ▸ List.mem_map_of_mem hnew))

theorem recorded_start (cfg : ServiceConfig) (s : Store) (b : UUID) : Recorded cfg [] s (start b) where
  wf := Pool.wf_exhausted cfg.executor
  paid := .inr ⟨[], by simp [Pool.Accounts, Pool.due, Pool.outcomes, start, Pool.start, Pool.owing, Pool.held], by simp⟩
  rest _ := ⟨rfl, rfl⟩

theorem recorded_page (cfg : ServiceConfig) (s : Store) (b : UUID) (rows : List LLMInput) :
    Recorded cfg rows s ⟨b, .consuming, Pool.start rows, []⟩ where
  wf := Pool.wf_start _ _
  paid := .inr ⟨[], Pool.accounts_start rows, by simp⟩
  rest h := absurd h not_false

theorem recorded_goto (hr : Recorded cfg inputs s batch) (pc : BatchPc)
    (hrest : ({ batch with pc := pc } : Batch).Resting → batch.pool.pc = .exhausted ∧ batch.pending = []) :
    Recorded cfg inputs s { batch with pc := pc } := ⟨hr.wf, hr.paid, hrest⟩

theorem recorded_write (hr : Recorded cfg inputs s batch) :
    Recorded cfg inputs (s.writeResults batch.pending) { batch with pc := .consuming, pending := [] } := by
  refine ⟨hr.wf, hr.paid.imp_right ?_, fun h => absurd h not_false⟩
  rintro ⟨paid, hacc, hpaid⟩
  refine ⟨paid, hacc, fun e he => .inl ?_⟩
  rcases hpaid e he with h | h
  · exact List.mem_append_left _ h
  · exact List.mem_append_right _ h

theorem Recorded.mono (hr : Recorded cfg inputs s batch) (hgrow : ∀ r ∈ s.results, r ∈ s'.results) :
    Recorded cfg inputs s' batch :=
  ⟨hr.wf, hr.paid.imp_right fun ⟨paid, hacc, hpaid⟩ =>
    ⟨paid, hacc, fun e he => (hpaid e he).imp_left (hgrow e.2)⟩, hr.rest⟩

theorem recorded_step (hr : Recorded cfg inputs s batch) (h : Step cfg s batch a s' batch') :
    ∃ inputs', Recorded cfg inputs' s' batch' := by
  cases h with
  | @thread i a p hp =>
    have hstep : batch.pool.step cfg.executor (.thread i a) = some (p, none) := by simp [Pool.step, hp]
    obtain ⟨hw, hpaid⟩ := recorded_pool hr hstep
    have hpc : p.pc = batch.pool.pc := by
      obtain ⟨f, st, -, -, -, rfl⟩ := Pool.threadStep_inv hp
      rfl
    exact ⟨inputs, hw, by simpa using hpaid, fun hrest => hpc ▸ hr.rest hrest⟩
  | @silent a p hpc hp =>
    obtain ⟨hw, hpaid⟩ := recorded_pool (a := .main a) hr hp
    exact ⟨inputs, hw, by simpa using hpaid, by simp [Resting, hpc]⟩
  | @receive a p result hpc hp =>
    obtain ⟨hw, hpaid⟩ := recorded_pool (a := .main a) hr hp
    refine ⟨inputs, hw, hpaid, ?_⟩
    by_cases hfull : resultWriteBatchSize ≤ batch.pending.length + 1 <;>
      simp [Resting, Batch.receive, hfull]
  | page => exact ⟨_, recorded_page cfg s batch.id _⟩
  | empty hpc | count hpc =>
    exact ⟨inputs, recorded_goto hr _ fun _ => hr.rest (by simp [Resting, hpc])⟩
  | turn _ hpool hnil => exact ⟨inputs, recorded_goto hr _ fun _ => ⟨hpool, hnil⟩⟩
  | flush | raised | readError => exact ⟨inputs, recorded_goto hr _ fun h => absurd h not_false⟩
  | @write attempt outcome hpc =>
    have hgrow : ∀ r ∈ s.results, r ∈ (if outcome.accepted then s.writeResults batch.pending else s).results := by
      intro r hmem
      split
      · exact List.mem_append_left _ hmem
      · exact hmem
    rcases afterWrite_cases batch outcome attempt with ⟨rfl, heq⟩ | ⟨-, ⟨heq, -⟩ | ⟨heq, -⟩⟩ <;> rw [heq]
    · exact ⟨inputs, recorded_write hr⟩
    · exact ⟨inputs, (recorded_goto hr (.writing _) fun h => absurd h not_false).mono hgrow⟩
    · exact ⟨inputs, (recorded_goto hr (.failed _) fun h => absurd h not_false).mono hgrow⟩
  | @report counts attempt outcome hpc =>
    have hgrow : ∀ r ∈ s.results,
        r ∈ (if outcome.accepted then s.writeBatchStatus batch.id .complete counts else s).results := by
      intro r hmem
      split <;> exact hmem
    have hrest := hr.rest (by simp [Resting, hpc])
    rcases afterReport_cases batch outcome counts attempt with
      ⟨-, heq⟩ | ⟨-, ⟨heq, -⟩ | ⟨heq, -⟩⟩ <;> rw [heq] <;>
        exact ⟨inputs, (recorded_goto hr _ fun _ => hrest).mono hgrow⟩

theorem late_recorded (hr : Recorded cfg inputs s batch) (hrest : batch.Resting)
    (hl : batch.pool.Late j row) : abortedResult row ∈ s.results := by
  obtain ⟨hpc, hnil⟩ := hr.rest hrest
  have hmem := Pool.late_outcome hr.wf hpc hl
  rcases hr.paid with hb | ⟨paid, hacc, hpaid⟩
  · simp [Pool.Broken, hpc] at hb
  · simpa [hnil] using hpaid _ ((hacc.perm hpc).mem_iff.mpr hmem)

-- ---------------------------------------------------------------------------
-- Over a whole run
-- ---------------------------------------------------------------------------

/-- A page on which a row has aborted the batch is the last one with rows. -/
def LastIfAborted (cfg : ServiceConfig) (s : Store × Batch) (a : BatchAction) : Prop :=
  a = .fetch → s.2.pool.abortEvent = true → s.1.getBatchRows cfg.batchPageSize s.2.id = []

instance (cfg : ServiceConfig) (s : Store × Batch) (a : BatchAction) : Decidable (LastIfAborted cfg s a) := by
  unfold LastIfAborted
  infer_instance

theorem abortEvent_step (hset : batch.pool.abortEvent = true) (hok : LastIfAborted cfg (s, batch) a)
    (h : Step cfg s batch a s' batch') : batch'.pool.abortEvent = true := by
  cases h with
  | thread hp => simp [Pool.abortEvent_thread hp, hset]
  | silent _ hp | receive _ hp => exact (Pool.abortEvent_main (Pool.mainStep_inv hp)).trans hset
  | page _ hne => exact absurd (hok rfl hset) hne
  | write => rw [pool_afterWrite]; exact hset
  | report => rw [pool_afterReport]; exact hset
  | _ => exact hset

end Batch

/-- A run that fetches no page with rows after one that was aborted. -/
def abortable (cfg : ServiceConfig) (b : UUID) (s₀ : Store) : LTS (Store × Batch) BatchAction :=
  (Batch.processSingleBatch cfg b s₀).restrict (Batch.LastIfAborted cfg)

variable {cfg : ServiceConfig} {b : UUID} {s₀ : Store}

theorem processSingleBatch_recorded (h : (Batch.processSingleBatch cfg b s₀).Run (s₀, .start b) as s) :
    ∃ inputs, Batch.Recorded cfg inputs s.1 s.2 := by
  refine h.invariant (I := fun s => ∃ inputs, Batch.Recorded cfg inputs s.1 s.2)
    ⟨[], Batch.recorded_start cfg s₀ b⟩ ?_
  rintro ⟨s, batch⟩ a ⟨s', batch'⟩ ⟨inputs, hr⟩ hst
  exact Batch.recorded_step hr (Batch.step_inv hst)

theorem abortable_abortEvent (h : (abortable cfg b s₀).Run s as t) (hset : s.2.pool.abortEvent = true) :
    t.2.pool.abortEvent = true := by
  refine h.invariant (I := fun s => s.2.pool.abortEvent = true) hset ?_
  rintro ⟨s, batch⟩ a ⟨s', batch'⟩ hset ⟨hok, hst⟩
  exact Batch.abortEvent_step hset hok (Batch.step_inv hst)

theorem abortable_late (h : (abortable cfg b s₀).Run s as t) (hl : s.2.pool.Late j row) :
    t.2.pool.Late j row ∧ ∀ a ∈ as, a ≠ .pool (.thread j .call) := by
  refine h.excludes (I := fun s => s.2.pool.Late j row) (B := fun a => a = .pool (.thread j .call)) hl ?_
  rintro ⟨s, batch⟩ a ⟨s', batch'⟩ hl ⟨hok, hst⟩
  have hl : batch.pool.Late j row := hl
  show batch'.pool.Late j row ∧ _
  cases Batch.step_inv hst with
  | thread hp =>
    obtain ⟨hl', hcall⟩ := Pool.late_thread hl hp
    refine ⟨hl', fun h => hcall ?_⟩
    simpa using h
  | silent _ hp | receive _ hp => exact ⟨Pool.late_main hl (Pool.mainStep_inv hp), by simp⟩
  | page _ hne => exact absurd (hok rfl hl.1) hne
  | write => exact ⟨by rwa [Batch.pool_afterWrite], by simp⟩
  | report => exact ⟨by rwa [Batch.pool_afterReport], by simp⟩
  | _ => exact ⟨hl, by simp⟩

theorem pool_of_thread (h : Batch.Step cfg s batch (.pool (.thread i a)) s' batch') :
    ∃ p, batch.pool.threadStep cfg.executor i a = some p ∧ batch'.pool = p := by
  cases h with
  | thread hp => exact ⟨_, hp, rfl⟩

/-- When an aborted page is the last one with rows: a row that starts after a
row of the batch has set the abort event calls nobody, and once its page is
over it is recorded as aborted. -/
theorem abort_stops_batch
    (hset : (abortable cfg b s₀).Run (s₀, .start b) (before ++ [.pool (.thread i .set)]) t)
    (hmid : (abortable cfg b s₀).Run t mid u) (hf : u.2.pool.futures[j]? = some f)
    (hlate : (abortable cfg b s₀).Run u (.pool (.thread j .start) :: after) v) :
    .pool (.thread j .call) ∉ after ∧ (v.2.Resting → abortedResult f.row ∈ v.1.results) := by
  have hevent : t.2.pool.abortEvent = true := by
    obtain ⟨m, -, -, hst⟩ := hset.snoc_inv
    obtain ⟨p, hp, hpool⟩ := pool_of_thread (Batch.step_inv hst)
    simp [hpool, Pool.abortEvent_thread hp]
  have hevent := abortable_abortEvent hmid hevent
  obtain ⟨w, ⟨-, hst⟩, hafter⟩ := hlate.cons_inv
  have hstart : w.2.pool.Late j f.row := by
    obtain ⟨p, hp, hpool⟩ := pool_of_thread (Batch.step_inv hst)
    rw [hpool]
    exact Pool.late_start hevent hf hp
  obtain ⟨hl, hcalls⟩ := abortable_late hafter hstart
  refine ⟨fun hcall => hcalls _ hcall rfl, fun hrest => ?_⟩
  obtain ⟨inputs, hr⟩ := processSingleBatch_recorded (LTS.restrict_run ((hset.append hmid).append hlate))
  exact Batch.late_recorded hr hrest hl

-- ---------------------------------------------------------------------------
-- One page, and two pages
-- ---------------------------------------------------------------------------

def twoRows : Store := ⟨[plainRow 1 1, plainRow 1 2], [], [⟨1, .pending, ⟨0, 0, 0⟩⟩]⟩

def untilDenied (n : Nat) : List BatchAction :=
  [.fetch] ++ inPool (resumes (n + 2) ++
    onThread 0 [.start, .check false, .call, .answer (.error accessDenied)])

/-- The rest of a page of one row, and the fetch of the next page. -/
def untilNextPage : List BatchAction :=
  inPool (onThread 0 [.ret ((plainRow 1 1).failed "denied")] ++ [.main (.wait [0])] ++ resumes 7) ++
    [.next, .insert .ok, .next, .fetch] ++ inPool (resumes 2)

/-- Pages of one row: the row of the next page is sent to the provider. -/
theorem next_page_calls_provider :
    ∃ t u v, (Batch.processSingleBatch rowByRow 1 twoRows).Run (twoRows, .start 1)
        (untilDenied 0 ++ [.pool (.thread 0 .set)]) t ∧
      (Batch.processSingleBatch rowByRow 1 twoRows).Run t untilNextPage u ∧
      (Batch.processSingleBatch rowByRow 1 twoRows).Run u
        (.pool (.thread 0 .start) :: inPool (onThread 0 [.check false, .call])) v := by
  have hexec : (LTS.exec (fun s a => Batch.step rowByRow s.1 s.2 a) (twoRows, .start 1)
      ((untilDenied 0 ++ [.pool (.thread 0 .set)]) ++ (untilNextPage ++
        .pool (.thread 0 .start) :: inPool (onThread 0 [.check false, .call])))).map
          (fun _ => true) = some true := by decide +kernel
  obtain ⟨v, hv, -⟩ := Option.map_eq_some_iff.mp hexec
  have hrun : (Batch.processSingleBatch rowByRow 1 twoRows).Run (twoRows, .start 1) _ v :=
    LTS.run_of_exec hv
  obtain ⟨t, hset, hrest⟩ := hrun.append_inv
  obtain ⟨u, hmid, hlate⟩ := hrest.append_inv
  exact ⟨t, u, v, hset, hmid, hlate⟩

def onePageOf2 : ServiceConfig := sampleConfig (bedrockExecutor 2 Nat.two_pos) 2 Nat.two_pos

def lateOnPage : List BatchAction :=
  inPool (onThread 1 [.check true, .ret (abortedResult (plainRow 1 2))] ++
    onThread 0 [.ret ((plainRow 1 1).failed "denied")] ++ [.main (.wait [0, 1])] ++ resumes 8) ++
    [.next, .insert .ok, .next]

theorem late_row_aborted :
    ∃ t v, (abortable onePageOf2 1 twoRows).Run (twoRows, .start 1)
        (untilDenied 1 ++ [.pool (.thread 0 .set)]) t ∧
      (abortable onePageOf2 1 twoRows).Run t (.pool (.thread 1 .start) :: lateOnPage) v ∧
      abortedResult (plainRow 1 2) ∈ v.1.results := by
  let next (s : Store × Batch) (a : BatchAction) : Option (Store × Batch) :=
    if Batch.LastIfAborted onePageOf2 s a then Batch.step onePageOf2 s.1 s.2 a else none
  have hfirst : (LTS.exec next (twoRows, .start 1) (untilDenied 1 ++ [.pool (.thread 0 .set)])).map
      (fun t => decide (t.2.pool.futures[1]? = some ⟨plainRow 1 2, .pending⟩)) = some true := by
    decide +kernel
  have hboth : (LTS.exec next (twoRows, .start 1) ((untilDenied 1 ++ [.pool (.thread 0 .set)]) ++
      .pool (.thread 1 .start) :: lateOnPage)).map (fun v => decide (v.2.pc = .fetching)) =
        some true := by decide +kernel
  obtain ⟨t, ht, hf⟩ := Option.map_eq_some_iff.mp hfirst
  rw [LTS.exec_append, ht, Option.bind_some] at hboth
  obtain ⟨v, hv, hpc⟩ := Option.map_eq_some_iff.mp hboth
  have hpc : v.2.pc = .fetching := of_decide_eq_true hpc
  have hset : (abortable onePageOf2 1 twoRows).Run (twoRows, .start 1) _ t := LTS.restrict_run_of_exec ht
  have hlate : (abortable onePageOf2 1 twoRows).Run t _ v := LTS.restrict_run_of_exec hv
  obtain ⟨-, hrecorded⟩ := abort_stops_batch hset .nil (of_decide_eq_true hf) hlate
  exact ⟨t, v, hset, hlate, hrecorded (by simp [Batch.Resting, hpc])⟩

end LlmWorker
