import LlmWorker.Service.Coverage

/-!
# What each worker writes once

A worker that writes every chunk at most once never writes the result of a row
twice, however often it crashes: a page holds only rows without a result, and
what the job of a page still holds or owes is not yet in the table. Workers
that overlap know nothing of each other, so together they may write a row as
often as there are workers.
-/

namespace LlmWorker

open Transition

namespace Ledger

/-- The keys whose results a job holds or is still to get. -/
def Job.keys : Job → Multiset Key
  | .holding chunk owed => ↑(chunk.map LLMResult.key) + owed
  | _ => 0

theorem Job.mem_keys {chunk : List LLMResult} (hr : r ∈ chunk) (owed : Multiset Key) :
    r.key ∈ (Job.holding chunk owed).keys := by
  simp only [Job.keys, Multiset.mem_add, Multiset.mem_coe]
  exact .inl (List.mem_map_of_mem hr)

/-- A job for `b` works on input rows of `b`, each once and none of them `written`. -/
structure Holds (b : UUID) (s : Store) (written : List Key) (job : Job) : Prop where
  nodup : job.keys.Nodup
  fresh : ∀ key ∈ job.keys, key.1 = b ∧ key ∈ s.inputKeys ∧ key ∉ written

/-- Row ids differ, and each result belongs to a row. -/
structure Consistent (s : Store) : Prop where
  inputs : s.inputKeys.Nodup
  results : ∀ key ∈ s.resultKeys, key ∈ s.inputKeys

structure Once (s : Store) (w : Worker) : Prop where
  nodup : w.accepted.Nodup
  stored : ∀ key ∈ w.accepted, key ∈ s.resultKeys
  holds : ∀ b job, w.job = some (b, job) → Holds b s w.accepted job

def Extends (s s' : Store) : Prop :=
  (∀ key ∈ s.inputKeys, key ∈ s'.inputKeys) ∧ ∀ key ∈ s.resultKeys, key ∈ s'.resultKeys

variable {b : UUID}

theorem Extends.refl (s : Store) : Extends s s := ⟨fun _ h => h, fun _ h => h⟩

theorem holds_of_keys {job : Job} (h : job.keys = 0) : Holds b s written job := by
  constructor <;> simp [h]

theorem Holds.stable (h : Holds b s written job) (hx : Extends s s') : Holds b s' written job :=
  ⟨h.nodup, fun key hkey =>
    ⟨(h.fresh key hkey).1, hx.1 key (h.fresh key hkey).2.1, (h.fresh key hkey).2.2⟩⟩

theorem Once.stable (h : Once s w) (hx : Extends s s') : Once s' w :=
  ⟨h.nodup, fun key hkey => hx.2 key (h.stored key hkey), fun b job hj => (h.holds b job hj).stable hx⟩

theorem Consistent.rows (h : Consistent s) (b : UUID) : s.DistinctRows b :=
  h.inputs.sublist (List.Sublist.map _ List.filter_sublist)

theorem added_writeResults (s : Store) (chunk : List LLMResult) :
    Worker.added s (s.writeResults chunk) = chunk.map LLMResult.key := by
  simp [Worker.added, Store.writeResults]

theorem added_writeBatchStatus (s : Store) (b : UUID) (status : BatchStatus) (counts : Counts) :
    Worker.added s (s.writeBatchStatus b status counts) = [] := by
  simp [Worker.added, Store.writeBatchStatus]

-- ---------------------------------------------------------------------------
-- One step of a job
-- ---------------------------------------------------------------------------

theorem tables_step (h : JobStep page repeats b s job s' job') :
    s'.inputs = s.inputs ∧ s'.resultKeys = s.resultKeys ++ Worker.added s s' := by
  rcases h.store with rfl | ⟨chunk, owed, -, rfl⟩ | ⟨counts, -, rfl⟩
  · simp
  · exact ⟨rfl, by rw [added_writeResults, Store.resultKeys_writeResults]⟩
  · exact ⟨rfl, by rw [added_writeBatchStatus, List.append_nil, Store.resultKeys_writeBatchStatus]⟩

theorem added_step (h : JobStep page repeats b s job s' job') :
    Worker.added s s' = [] ∨ (↑(Worker.added s s') : Multiset Key) ≤ job.keys := by
  rcases h.store with rfl | ⟨chunk, owed, rfl, rfl⟩ | ⟨counts, -, rfl⟩
  · exact .inl (Worker.added_self _)
  · right
    rw [added_writeResults]
    exact Multiset.le_add_right _ _
  · exact .inl (added_writeBatchStatus ..)

theorem added_fresh (hh : Holds b s written job) (h : JobStep page repeats b s job s' job') :
    (Worker.added s s').Nodup ∧ ∀ key ∈ Worker.added s s', key ∈ s.inputKeys ∧ key ∉ written := by
  rcases added_step h with hnil | hle
  · simp [hnil]
  · refine ⟨Multiset.coe_nodup.mp (Multiset.nodup_of_le hle hh.nodup), fun key hkey => ?_⟩
    exact (hh.fresh key (Multiset.mem_of_le hle hkey)).2

theorem extends_step (h : JobStep page repeats b s job s' job') : Extends s s' := by
  obtain ⟨hin, hres⟩ := tables_step h
  refine ⟨fun key hkey => ?_, fun key hkey => ?_⟩
  · rwa [Store.inputKeys, hin]
  · rw [hres]
    exact List.mem_append_left _ hkey

theorem keys_produce (chunk : List LLMResult) (result : LLMResult) (owed : Multiset Key) :
    (Job.holding (chunk ++ [result]) owed).keys = (Job.holding chunk (result.key ::ₘ owed)).keys := by
  simp only [Job.keys, List.map_append, ← Multiset.coe_add, add_assoc]
  exact congrArg _ (Multiset.singleton_add _ _)

theorem holds_page (hd : s.DistinctRows b) (hstored : ∀ key ∈ written, key ∈ s.resultKeys) :
    Holds b s written (.holding [] ↑((s.getBatchRows page b).map LLMInput.key)) := by
  constructor
  · simpa [Job.keys] using Store.nodup_getBatchRows hd
  · intro key hkey
    obtain ⟨row, hrow, rfl⟩ : ∃ row ∈ s.getBatchRows page b, row.key = key := by
      simpa [Job.keys] using hkey
    obtain ⟨hin, hb, hnew⟩ := Store.mem_getBatchRows hrow
    exact ⟨hb, List.mem_map_of_mem hin, fun hw => hnew (hstored _ hw)⟩

theorem holds_insert (h : Holds b s written (.holding chunk owed)) :
    Holds b (s.writeResults chunk) (written ++ chunk.map LLMResult.key) (.holding [] owed) := by
  have hnodup := h.nodup
  simp only [Job.keys] at hnodup
  obtain ⟨-, howed, hdisjoint⟩ := Multiset.nodup_add.mp hnodup
  constructor
  · simpa [Job.keys] using howed
  · intro key hkey
    have hkey : key ∈ owed := by simpa [Job.keys] using hkey
    obtain ⟨hb, hin, hnew⟩ := h.fresh key (by simp [Job.keys, hkey])
    refine ⟨hb, hin, fun hw => ?_⟩
    rcases List.mem_append.mp hw with hold | hchunk
    · exact hnew hold
    · exact Multiset.disjoint_left.mp hdisjoint hchunk hkey

theorem holds_step (hd : s.DistinctRows b) (hstored : ∀ key ∈ written, key ∈ s.resultKeys)
    (hh : Holds b s written job) (h : JobStep page repeats b s job s' job') :
    Holds b s' (written ++ Worker.added s s') job' ∨ repeats ∧ Holds b s' written job' := by
  cases h with
  | page hne =>
    rw [Worker.added_self, List.append_nil]
    exact .inl (holds_page hd hstored)
  | produce howed =>
    rw [Worker.added_self, List.append_nil]
    subst howed
    exact .inl ⟨keys_produce _ _ _ ▸ hh.nodup,
      fun key hkey => hh.fresh key (keys_produce _ _ _ ▸ hkey)⟩
  | insert =>
    rw [added_writeResults]
    exact .inl (holds_insert hh)
  | insertRaised hr hj =>
    refine .inr ⟨hr, ?_⟩
    rcases hj with rfl | rfl
    · exact ⟨hh.nodup, hh.fresh⟩
    · exact holds_of_keys rfl
  | reportRaised hr hj => exact .inr ⟨hr, by rcases hj with rfl | rfl <;> exact holds_of_keys rfl⟩
  | _ => exact .inl (holds_of_keys rfl)

theorem once_job (hrep : ¬repeats) (hs : Consistent s) (hw : Once s w) (hjob : w.job = some (b, job))
    (h : JobStep page repeats b s job s' job') :
    Consistent s' ∧ Once s' { w with
      job := some (b, job')
      accepted := w.accepted ++ Worker.added s s' } := by
  have hh := hw.holds b job hjob
  obtain ⟨hin, hres⟩ := tables_step h
  have hkeys : s'.inputKeys = s.inputKeys := by simp [Store.inputKeys, hin]
  have hadded := added_fresh hh h
  refine ⟨⟨hkeys ▸ hs.inputs, fun key hkey => ?_⟩, ⟨?_, fun key hkey => ?_, ?_⟩⟩
  · rw [hkeys]
    rw [hres] at hkey
    rcases List.mem_append.mp hkey with hold | hnew
    · exact hs.results key hold
    · exact (hadded.2 key hnew).1
  · refine List.nodup_append.mpr ⟨hw.nodup, hadded.1, ?_⟩
    rintro key hold _ hnew rfl
    exact (hadded.2 key hnew).2 hold
  · rw [hres]
    rcases List.mem_append.mp hkey with hold | hnew
    · exact List.mem_append_left _ (hw.stored key hold)
    · exact List.mem_append_right _ hnew
  · rintro _ _ ⟨⟩
    rcases holds_step (hs.rows b) hw.stored hh h with hh' | ⟨hr, -⟩
    · exact hh'
    · exact absurd hr hrep

theorem once_act (hrep : ¬repeats) (hs : Consistent s) (hw : Once s w) (h : Act cfg repeats s w s' w') :
    Consistent s' ∧ Once s' w' ∧ Extends s s' := by
  cases h with
  | poll hjob => exact ⟨hs, ⟨hw.nodup, hw.stored, hw.holds⟩, .refl s⟩
  | take hjob hq =>
    refine ⟨hs, ⟨hw.nodup, hw.stored, ?_⟩, .refl s⟩
    rintro _ _ ⟨⟩
    exact holds_of_keys rfl
  | work hjob hstep =>
    obtain ⟨hs', hw'⟩ := once_job hrep hs hw hjob hstep
    exact ⟨hs', hw', extends_step hstep⟩
  | finish hjob => exact ⟨hs, ⟨hw.nodup, hw.stored, by simp⟩, .refl s⟩
  | drop => exact ⟨hs, ⟨hw.nodup, hw.stored, by simp⟩, .refl s⟩

theorem consistent_env (hs : Consistent s) (hok : LlmWorker.Distinct s e) (h : s.env e = some s') :
    Consistent s' ∧ Extends s s' := by
  cases e with
  | addInput row =>
    cases h
    obtain ⟨-, hnew⟩ := hok row rfl
    have hkeys : ({ s with inputs := s.inputs ++ [row] } : Store).inputKeys = s.inputKeys ++ [row.key] := by
      simp [Store.inputKeys]
    refine ⟨⟨?_, fun key hkey => ?_⟩, fun key hkey => ?_, fun _ hkey => hkey⟩
    · rw [hkeys]
      exact List.nodup_append.mpr ⟨hs.inputs, by simp, by
        rintro key hold _ hrow rfl
        obtain rfl : key = row.key := by simpa using hrow
        exact hnew hold⟩
    · rw [hkeys]
      exact List.mem_append_left _ (hs.results key hkey)
    · rw [hkeys]
      exact List.mem_append_left _ hkey
  | addPending b =>
    cases h
    exact ⟨⟨hs.inputs, hs.results⟩, .refl s⟩

end Ledger

-- ---------------------------------------------------------------------------
-- Any number of workers
-- ---------------------------------------------------------------------------

variable {ι : Type} [DecidableEq ι] {cfg : ServiceConfig}

theorem frozen_of_distinct (b : UUID) (s : Store) (e : EnvAction) (h : Distinct s e) : Frozen b s e := by
  rintro row he rfl
  exact (h row he).1

theorem ledgers_once (h : (ledgers ι cfg False Distinct).lts.Reachable s) :
    Ledger.Consistent s.1 ∧ ∀ i, Ledger.Once s.1 (s.2 i) := by
  refine Shared.always (G := Ledger.Consistent) (L := Ledger.Once) (R := Ledger.Extends) ?_ ?_ ?_ ?_ h
  · rintro s w ⟨rfl, hw⟩
    refine ⟨⟨by simp [Store.inputKeys, Store.empty], by simp [Store.resultKeys, Store.empty]⟩, fun i => ?_⟩
    rw [hw i]
    exact ⟨by simp, by simp, by simp⟩
  · intro s w i a s' w' _ hs hw hact
    exact Ledger.once_act not_false hs hw hact
  · rintro s e s' hs ⟨hok, henv⟩
    exact Ledger.consistent_env hs hok henv
  · intro s s' w _ hx hw
    exact hw.stable hx

theorem Ledger.Act.added (h : Act cfg repeats s w s' w') :
    ∃ new, s'.resultKeys = s.resultKeys ++ new ∧ w'.accepted = w.accepted ++ new := by
  cases h with
  | work hjob hstep => exact ⟨_, (tables_step hstep).2, rfl⟩
  | _ => exact ⟨[], by simp, by simp⟩

theorem faithful_ledger
    (h : ((service cfg : Shared Store ι _ _ _).restrict Faithful Distinct).lts.Reachable s) :
    (ledgers ι cfg False Distinct).lts.Reachable (s.1, Worker.ledger ∘ s.2) :=
  (service_refines fun _ _ hok hnot => hnot hok).reachable h

section Counting

variable [Fintype ι]

theorem ledgers_count_eq (h : (ledgers ι cfg False Distinct).lts.Reachable s) (key : Key) :
    s.1.resultKeys.count key = ∑ i, (s.2 i).accepted.count key := by
  refine Shared.count_eq_sum Store.resultKeys Ledger.Worker.accepted ?_ ?_ ?_ h key
  · rintro s w ⟨rfl, hw⟩
    exact ⟨rfl, fun i => by simp [hw i]⟩
  · intro s w a s' w' hact
    exact hact.added
  · rintro s e s' ⟨-, henv⟩
    cases e <;> cases henv <;> rfl

theorem ledgers_count_le (h : (ledgers ι cfg False Distinct).lts.Reachable s) (key : Key) :
    s.1.resultKeys.count key ≤ Fintype.card ι := by
  rw [ledgers_count_eq h key]
  exact Shared.sum_count_le_card (fun i => ((ledgers_once h).2 i).nodup) key

/-- The counts of a covered batch, when no row has more than `n` results. -/
def Counts.Within (counts : Counts) (n : Nat) : Prop :=
  counts.totalRows ≤ counts.completedRows + counts.failedRows ∧
    counts.completedRows + counts.failedRows ≤ n * counts.totalRows

theorem within_of_counting (h : (ledgers ι cfg False Distinct).lts.Reachable s)
    (hjob : (s.2 i).job = some (b, .counting)) : (s.1.getBatchCounts b).Within (Fintype.card ι) := by
  obtain ⟨hs, -⟩ := ledgers_once h
  have hcov := ((ledgers_sound (frozen_of_distinct b) h).2 i).covered _ hjob trivial
  exact ⟨Store.total_le_of_covered hcov (hs.rows b),
    Store.le_total_of_count_le (fun key hkey _ => hs.results key hkey) fun key _ => ledgers_count_le h key⟩

theorem ledgers_within (h : (ledgers ι cfg False Distinct).lts.Reachable s) :
    (∀ row ∈ s.1.batches, row.status = .complete → row.counts.Within (Fintype.card ι)) ∧
      ∀ i b counts, (s.2 i).job = some (b, .reporting counts) → counts.Within (Fintype.card ι) := by
  refine Shared.always
    (G := fun s => ∀ row ∈ s.batches, row.status = .complete → row.counts.Within (Fintype.card ι))
    (L := fun _ w => ∀ b counts, w.job = some (b, .reporting counts) → counts.Within (Fintype.card ι))
    (R := fun _ _ => True) ?_ ?_ ?_ ?_ h
  · rintro s w ⟨rfl, hw⟩
    exact ⟨by simp [Store.empty], fun i => by simp [hw i]⟩
  · intro s w i a s' w' hr hG hL hact
    cases hact with
    | take hjob hq => exact ⟨hG, by rintro _ _ ⟨⟩, trivial⟩
    | @work c job _ job' hjob hstep =>
      refine ⟨?_, ?_, trivial⟩
      · rcases hstep.store with rfl | ⟨chunk, owed, -, rfl⟩ | ⟨counts, rfl, rfl⟩
        · exact hG
        · exact hG
        · intro row hrow hc
          rcases List.mem_append.mp hrow with hold | hnew
          · exact hG row hold hc
          · obtain rfl : row = _ := by simpa using hnew
            exact hL c counts hjob
      · rintro b counts ⟨⟩
        cases hstep with
        | count => exact within_of_counting hr hjob
        | insertRaised hr _ | reportRaised hr _ => exact absurd hr not_false
    | _ => simp_all
  · rintro s e s' hG ⟨-, henv⟩
    refine ⟨?_, trivial⟩
    cases e with
    | addInput row =>
      cases henv
      exact hG
    | addPending b =>
      cases henv
      intro row hrow hc
      rcases List.mem_append.mp hrow with hold | hnew
      · exact hG row hold hc
      · obtain rfl : row = _ := by simpa using hnew
        cases hc
  · intro s s' w _ _ hL
    exact hL

/-- However many workers overlap, each row has at most one result from each
of them, and a 'complete' row counts at most that many results. -/
theorem overlapping_workers_bounded
    (h : ((service cfg : Shared Store ι _ _ _).restrict Faithful Distinct).lts.Reachable s) :
    (∀ i, (s.2 i).accepted.Nodup) ∧
      (∀ key, s.1.resultKeys.count key = ∑ i, (s.2 i).accepted.count key) ∧
      (∀ key, s.1.resultKeys.count key ≤ Fintype.card ι) ∧
      ∀ row ∈ s.1.batches, row.status = .complete → row.counts.Within (Fintype.card ι) := by
  have hl := faithful_ledger h
  have haccepted (i : ι) : (s.2 i).ledger.accepted = (s.2 i).accepted := Worker.ledger_accepted _
  refine ⟨fun i => ?_, fun key => ?_, ledgers_count_le hl, (ledgers_within hl).1⟩
  · rw [← haccepted i]
    exact ((ledgers_once hl).2 i).nodup
  · simp only [← haccepted]
    exact ledgers_count_eq hl key

end Counting

def Calm (_w : Worker) : WorkerAction → Prop
  | .crash => False
  | .batch (.insert outcome) => outcome = .ok
  | _ => True

instance (w : Worker) (a : WorkerAction) : Decidable (Calm w a) := by
  unfold Calm
  split <;> infer_instance

/-- Both workers fetch the row before either writes its result. -/
def overlap : List (Fin 2 × WorkerAction ⊕ EnvAction) :=
  let page : List WorkerAction :=
    [.start, .next, .poll, .next] ++ inBatch (onePage (served (plainRow 1 1)))
  submitted [plainRow 1 1] 1 ++ onWorker 0 page ++ onWorker 1 page ++
    onWorker 0 (inBatch [.insert .ok]) ++
    onWorker 1 (inBatch [.insert .ok, .next, .fetch, .count, .insert .ok])

theorem overlap_duplicates :
    ∃ s, ((service rowByRow : Shared Store (Fin 2) _ _ _).restrict Calm Distinct).lts.Reachable s ∧
      s.1.resultKeys.count (1, 1) = 2 ∧ ∃ row ∈ s.1.batches, row.status = .complete ∧
        row.counts.totalRows < row.counts.completedRows + row.counts.failedRows := by
  have hexec : (LTS.exec (guardedNext rowByRow Calm Distinct) (.empty, fun _ : Fin 2 => .down)
      overlap).map (fun s => decide
        (s.1.resultKeys.count (1, 1) = 2 ∧ ∃ row ∈ s.1.batches, row.status = .complete ∧
          row.counts.totalRows < row.counts.completedRows + row.counts.failedRows)) = some true := by
    decide +kernel
  obtain ⟨s, hreach, hs⟩ := reachable_of_exec _ _ _ hexec
  exact ⟨s, hreach, of_decide_eq_true hs⟩

theorem overlap_bounded :
    ∃ s : Store × (Fin 2 → Worker), s.1.resultKeys.count (1, 1) = 2 ∧
      ∀ key, s.1.resultKeys.count key ≤ Fintype.card (Fin 2) := by
  have hexec : (LTS.exec (guardedNext rowByRow Faithful Distinct)
      (.empty, fun _ : Fin 2 => .down) overlap).map
        (fun s => decide (s.1.resultKeys.count (1, 1) = 2)) = some true := by decide +kernel
  obtain ⟨s, hreach, hs⟩ := reachable_of_exec _ _ _ hexec
  exact ⟨s, of_decide_eq_true hs, (overlapping_workers_bounded hreach).2.2.1⟩

end LlmWorker
