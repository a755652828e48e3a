import LlmWorker.Service.Once

/-!
# Retried result writes

A result write that raises is made again. When the server had accepted the
chunk all the same, the table has it twice from then on, and so the batch is
reported with more results than rows. Nothing is lost in either case.
-/

namespace LlmWorker

open Transition

/-- The results of a batch before a run: each belongs to a row, and none is there twice. -/
structure Store.Clean (s : Store) (b : UUID) : Prop where
  rows : s.DistinctRows b
  results : ∀ key ∈ s.resultKeys, key.1 = b → key ∈ s.inputKeys ∧ s.resultKeys.count key = 1

namespace Ledger

variable {b : UUID}

/-- The job is past its last page, or it has been given up. -/
def Job.Closed : Job → Prop
  | .reporting _ | .returned | .failed => True
  | _ => False

structure Kept (s₀ : Store) (b : UUID) (s : Store) (job : Job) : Prop where
  inputs : s.inputs = s₀.inputs
  holds : Holds b s [] job
  covered : job.SawEmptyPage → s.Covered b
  report : ∀ counts, job = .reporting counts → counts = s.getBatchCounts b
  rows : ∃ new, s.batches = s₀.batches ++ new ∧ (∀ row ∈ new, row = ⟨b, .complete, s.getBatchCounts b⟩) ∧
    (job = .returned → new ≠ []) ∧ (new ≠ [] → job.Closed)

theorem Holds.weaken (h : Holds b s written job) : Holds b s [] job :=
  ⟨h.nodup, fun key hkey => ⟨(h.fresh key hkey).1, (h.fresh key hkey).2.1, by simp⟩⟩

theorem kept_start (s : Store) (b : UUID) : Kept s b s .fetching :=
  ⟨rfl, holds_of_keys rfl, by simp [Job.SawEmptyPage], by simp, [], by simp⟩

theorem rows_report (hk : Kept s₀ b s (.reporting counts)) :
    ∃ new, (s.writeBatchStatus b .complete counts).batches = s₀.batches ++ new ∧
      (∀ row ∈ new, row = ⟨b, .complete, s.getBatchCounts b⟩) ∧ new ≠ [] := by
  obtain ⟨new, hnew, hrows, -⟩ := hk.rows
  refine ⟨new ++ [⟨b, .complete, counts⟩], ?_, fun row hrow => ?_, by simp⟩
  · simp [Store.writeBatchStatus, hnew]
  · rcases List.mem_append.mp hrow with hold | hlast
    · exact hrows row hold
    · rw [← hk.report counts rfl]
      simpa using hlast

theorem kept_rows (hk : Kept s₀ b s job) (h : JobStep page repeats b s job s' job') :
    ∃ new, s'.batches = s₀.batches ++ new ∧ (∀ row ∈ new, row = ⟨b, .complete, s'.getBatchCounts b⟩) ∧
      (job' = .returned → new ≠ []) ∧ (new ≠ [] → job'.Closed) := by
  have hopen (hj : ¬job.Closed) : s.batches = s₀.batches := by
    obtain ⟨new, hnew, -, -, hclosed⟩ := hk.rows
    have hnil : new = [] := Classical.byContradiction fun hne => hj (hclosed hne)
    simpa [hnil] using hnew
  cases h with
  | page | empty | produce | turn | count => exact ⟨[], by simp [hopen (by simp [Job.Closed])]⟩
  | insert => exact ⟨[], by simp [Store.writeResults, hopen (by simp [Job.Closed])]⟩
  | insertRaised hr hj =>
    refine ⟨[], ?_⟩
    rcases hj with rfl | rfl <;> simp [Store.writeResults, hopen (by simp [Job.Closed])]
  | report =>
    obtain ⟨new, hnew, hrows, hne⟩ := rows_report hk
    exact ⟨new, hnew, hrows, fun _ => hne, fun _ => trivial⟩
  | reportRaised hr hj =>
    obtain ⟨new, hnew, hrows, hne⟩ := rows_report hk
    refine ⟨new, hnew, hrows, fun _ => hne, fun _ => ?_⟩
    rcases hj with rfl | rfl <;> trivial
  | fail =>
    obtain ⟨new, hnew, hrows, -, -⟩ := hk.rows
    exact ⟨new, hnew, hrows, by simp, fun _ => trivial⟩

theorem kept_step (hd : s₀.DistinctRows b) (hpage : 0 < page) (hk : Kept s₀ b s job)
    (h : JobStep page repeats b s job s' job') : Kept s₀ b s' job' := by
  have hd : s.DistinctRows b := by simpa [Store.DistinctRows, hk.inputs] using hd
  refine ⟨(tables_step h).1.trans hk.inputs, ?_, covered_job hpage h hk.covered, ?_, kept_rows hk h⟩
  · rcases holds_step hd (by simp) hk.holds h with hh | ⟨-, hh⟩ <;> exact hh.weaken
  · rintro counts rfl
    cases h with
    | count => rfl
    | insertRaised hr hj => simp at hj
    | reportRaised hr hj =>
      obtain rfl : counts = _ := by simpa using hj
      exact hk.report _ rfl

-- ---------------------------------------------------------------------------
-- Without a lost acknowledgement
-- ---------------------------------------------------------------------------

theorem clean_step (hc : s.Clean b) (hh : Holds b s s.resultKeys job)
    (h : JobStep page repeats b s job s' job') : s'.Clean b := by
  obtain ⟨hin, hres⟩ := tables_step h
  have hkeys : s'.inputKeys = s.inputKeys := by simp [Store.inputKeys, hin]
  have hadded := added_fresh hh h
  refine ⟨by simpa [Store.DistinctRows, hin] using hc.rows, fun key hkey hb => ?_⟩
  rw [hres] at hkey ⊢
  rw [hkeys, List.count_append]
  by_cases hnew : key ∈ Worker.added s s'
  · obtain ⟨hmem, hnot⟩ := hadded.2 key hnew
    rw [List.count_eq_zero_of_not_mem hnot, List.count_eq_one_of_mem hadded.1 hnew]
    exact ⟨hmem, rfl⟩
  · have hold : key ∈ s.resultKeys := (List.mem_append.mp hkey).resolve_right hnew
    rw [List.count_eq_zero_of_not_mem hnew]
    exact hc.results key hold hb

-- ---------------------------------------------------------------------------
-- After a lost acknowledgement
-- ---------------------------------------------------------------------------

def Duplicated (b : UUID) (s : Store) : Prop :=
  ∃ key ∈ s.inputKeys, key.1 = b ∧ 2 ≤ s.resultKeys.count key

/-- The job still holds a result that the table has. -/
def Stale (s : Store) : Job → Prop
  | .holding chunk _ => ∃ r ∈ chunk, r.key ∈ s.resultKeys
  | _ => False

def Spoilt (b : UUID) (s : Store) (job : Job) : Prop := Duplicated b s ∨ Stale s job ∨ job = .failed

theorem duplicated_step (hdup : Duplicated b s) (h : JobStep page repeats b s job s' job') :
    Duplicated b s' := by
  obtain ⟨key, hkey, hb, hcount⟩ := hdup
  obtain ⟨hin, hres⟩ := tables_step h
  refine ⟨key, by simpa [Store.inputKeys, hin] using hkey, hb, ?_⟩
  rw [hres, List.count_append]
  omega

theorem duplicated_insert (hh : Holds b s [] (.holding chunk owed)) (hs : Stale s (.holding chunk owed)) :
    Duplicated b (s.writeResults chunk) := by
  obtain ⟨r, hr, hstored⟩ := hs
  obtain ⟨hb, hin, -⟩ := hh.fresh r.key (Job.mem_keys hr owed)
  refine ⟨r.key, hin, hb, ?_⟩
  have hold := List.count_pos_iff.mpr hstored
  have hnew : 0 < (chunk.map LLMResult.key).count r.key := List.count_pos_iff.mpr (List.mem_map_of_mem hr)
  rw [Store.resultKeys_writeResults, List.count_append]
  omega

theorem spoilt_step (hh : Holds b s [] job) (hs : Spoilt b s job)
    (h : JobStep page repeats b s job s' job') : Spoilt b s' job' := by
  rcases hs with hdup | hstale | rfl
  · exact .inl (duplicated_step hdup h)
  · cases h with
    | produce howed =>
      obtain ⟨r, hr, hstored⟩ := hstale
      exact .inr (.inl ⟨r, List.mem_append_left _ hr, hstored⟩)
    | insert | insertRaised => exact .inl (duplicated_insert hh hstale)
    | fail => exact .inr (.inr rfl)
    | turn => simp [Stale] at hstale
    | page | empty | count | report | reportRaised => exact absurd hstale not_false
  · cases h with
    | fail => exact .inr (.inr rfl)

end Ledger

-- ---------------------------------------------------------------------------
-- The inserts of a run
-- ---------------------------------------------------------------------------

/-- The outcomes of the result inserts; an insert after the counts query
writes the status. -/
def resultInserts : List BatchAction → List InsertOutcome
  | [] => []
  | .count :: _ => []
  | .insert outcome :: as => outcome :: resultInserts as
  | _ :: as => resultInserts as

theorem resultInserts_of_counted {as : List BatchAction} (h : .count ∈ as) (a : BatchAction) :
    resultInserts (as ++ [a]) = resultInserts as := by
  induction as with
  | nil => simp at h
  | cons c as ih => cases c <;> simp_all [resultInserts]

theorem resultInserts_snoc {as : List BatchAction} (h : .count ∉ as) (a : BatchAction) :
    resultInserts (as ++ [a]) = resultInserts as ++ resultInserts [a] := by
  induction as with
  | nil => rfl
  | cons c as ih => cases c <;> simp_all [resultInserts]

theorem lost_snoc {as : List BatchAction} (h : .count ∉ as) :
    .raisedAfter ∈ resultInserts (as ++ [a]) ↔
      .raisedAfter ∈ resultInserts as ∨ a = .insert .raisedAfter := by
  rw [resultInserts_snoc h, List.mem_append]
  cases a <;> simp [resultInserts, eq_comm]

namespace Batch

def Uncounted (batch : Batch) : Prop :=
  match batch.pc with
  | .fetching | .consuming | .writing _ | .counting => True
  | _ => False

theorem uncounted_step (h : Step cfg s batch a s' batch') (hu : batch'.Uncounted) :
    batch.Uncounted ∧ a ≠ .count := by
  cases h with
  | thread => exact ⟨hu, by simp⟩
  | silent hpc | receive hpc | empty hpc | page hpc | turn hpc | flush hpc => simp [Uncounted, hpc]
  | raised | count | readError => exact absurd hu not_false
  | write hpc => simp [Uncounted, hpc]
  | @report counts attempt outcome hpc =>
    rcases afterReport_cases batch outcome counts attempt with
      ⟨-, heq⟩ | ⟨-, ⟨heq, -⟩ | ⟨heq, -⟩⟩ <;> rw [heq] at hu <;> exact absurd hu not_false

theorem reporting_step (h : Step cfg s batch a s' batch') (hpc' : batch'.pc = .reporting counts' n) :
    a = .count ∨ ∃ counts n, batch.pc = .reporting counts n := by
  cases h with
  | thread => exact .inr ⟨_, _, hpc'⟩
  | silent hpc => simp [hpc] at hpc'
  | @receive a p result hpc =>
    by_cases hfull : resultWriteBatchSize ≤ batch.pending.length + 1 <;> simp [Batch.receive, hfull] at hpc'
  | @write attempt outcome hpc =>
    rcases afterWrite_cases batch outcome attempt with
      ⟨-, heq⟩ | ⟨-, ⟨heq, -⟩ | ⟨heq, -⟩⟩ <;> simp [heq] at hpc'
  | report hpc => exact .inr ⟨_, _, hpc⟩
  | count => exact .inl rfl
  | _ => simp at hpc'

theorem chunk_step (hc : ∀ attempt, batch.pc = .writing attempt → batch.pending ≠ [])
    (h : Step cfg s batch a s' batch') (hpc' : batch'.pc = .writing n) : batch'.pending ≠ [] := by
  cases h with
  | thread => exact hc _ hpc'
  | silent hpc => simp [hpc] at hpc'
  | receive => simp [Batch.receive]
  | flush _ _ hne => exact hne
  | @write attempt outcome hpc =>
    rcases afterWrite_cases batch outcome attempt with ⟨-, heq⟩ | ⟨-, ⟨heq, -⟩ | ⟨heq, -⟩⟩ <;> rw [heq] at hpc' ⊢
    · simp at hpc'
    · exact hc attempt hpc
    · simp at hpc'
  | @report counts attempt outcome hpc =>
    rcases afterReport_cases batch outcome counts attempt with
      ⟨-, heq⟩ | ⟨-, ⟨heq, -⟩ | ⟨heq, -⟩⟩ <;> simp [heq] at hpc'
  | _ => simp at hpc'

structure Tallied (cfg : ServiceConfig) (b : UUID) (s₀ : Store) (as : List BatchAction)
    (s : Store × Batch) : Prop where
  ok : s.2.Ok cfg
  id : s.2.id = b
  kept : Ledger.Kept s₀ b s.1 s.2.job
  chunk : ∀ attempt, s.2.pc = .writing attempt → s.2.pending ≠ []
  uncounted : s.2.Uncounted → .count ∉ as
  counted : ∀ counts n, s.2.pc = .reporting counts n → .count ∈ as
  clean : .raisedAfter ∉ resultInserts as → s.1.Clean b ∧ Ledger.Holds b s.1 s.1.resultKeys s.2.job
  spoilt : .raisedAfter ∈ resultInserts as → Ledger.Spoilt b s.1 s.2.job

theorem tallied_start (cfg : ServiceConfig) (hclean : s₀.Clean b) :
    Tallied cfg b s₀ [] (s₀, start b) where
  ok := ok_start cfg b
  id := rfl
  kept := Ledger.kept_start s₀ b
  chunk := by simp [start]
  uncounted := by simp
  counted := by simp [start]
  clean _ := ⟨hclean, Ledger.holds_of_keys rfl⟩
  spoilt h := by simp [resultInserts] at h

/-- A result write whose acknowledgement is lost leaves its chunk both in the
table and at hand. -/
theorem spoilt_write {batch : Batch} (s : Store) (attempt : Nat) (hne : batch.pending ≠ []) :
    Ledger.Spoilt b (s.writeResults batch.pending) (batch.afterWrite .raisedAfter attempt).job := by
  rcases afterWrite_cases batch .raisedAfter attempt with ⟨h, -⟩ | ⟨-, ⟨heq, -⟩ | ⟨heq, -⟩⟩
  · cases h
  · rw [heq]
    obtain ⟨r, hr⟩ := List.exists_mem_of_ne_nil _ hne
    refine .inr (.inl ⟨r, hr, ?_⟩)
    rw [Store.resultKeys_writeResults]
    exact List.mem_append_right _ (List.mem_map_of_mem hr)
  · rw [heq]
    exact .inr (.inr rfl)

theorem tallied_step (hclean : s₀.Clean b) (ht : Tallied cfg b s₀ as (s, batch))
    (h : Step cfg s batch a s' batch') : Tallied cfg b s₀ (as ++ [a]) (s', batch') := by
  obtain ⟨hok, rfl, hk, hchunk, huncounted, hcounted, hclean', hspoilt⟩ := ht
  have hjob : (s' = s ∧ batch'.job = batch.job) ∨
      Ledger.JobStep cfg.batchPageSize (a = .insert .raisedAfter) batch.id s batch.job s' batch'.job :=
    job_step hok (fun ha => ha) h
  -- an insert that raises after it was accepted is a result write, unless the counts are taken
  have hafter (ha : a = .insert .raisedAfter) : .count ∈ as ∧ s'.resultKeys = s.resultKeys ∨
      .count ∉ as ∧ Ledger.Spoilt batch.id s' batch'.job := by
    subst ha
    cases h with
    | write hpc =>
      exact .inr ⟨huncounted (by simp [Uncounted, hpc]), spoilt_write s _ (hchunk _ hpc)⟩
    | report hpc => exact .inl ⟨hcounted _ _ hpc, rfl⟩
  have hold (hlost : .raisedAfter ∈ resultInserts as) : .raisedAfter ∈ resultInserts (as ++ [a]) := by
    by_cases hcount : .count ∈ as
    · rwa [resultInserts_of_counted hcount]
    · exact (lost_snoc hcount).mpr (.inl hlost)
  refine ⟨ok_step hok h, id_step h, ?_, fun n hpc => chunk_step hchunk h hpc, ?_, ?_, ?_, ?_⟩
  · rcases hjob with ⟨rfl, heq⟩ | hjob
    · rwa [heq]
    · exact Ledger.kept_step hclean.rows cfg.batchPageSize_pos hk hjob
  · intro hu
    obtain ⟨hu, hne⟩ := uncounted_step h hu
    simpa [hne.symm] using huncounted hu
  · intro counts n hpc
    rcases reporting_step h hpc with rfl | ⟨counts, n, hpc⟩
    · simp
    · exact List.mem_append_left _ (hcounted counts n hpc)
  · intro hnot
    obtain ⟨hc, hh⟩ := hclean' fun hlost => hnot (hold hlost)
    rcases hjob with ⟨rfl, heq⟩ | hjob
    · exact ⟨hc, heq ▸ hh⟩
    · refine ⟨Ledger.clean_step hc hh hjob, ?_⟩
      rcases Ledger.holds_step hc.rows (fun _ hkey => hkey) hh hjob with hh' | ⟨ha, hh'⟩
      · rwa [(Ledger.tables_step hjob).2]
      · rcases hafter ha with ⟨-, hkeys⟩ | ⟨hcount, -⟩
        · rwa [hkeys]
        · exact absurd ((lost_snoc hcount).mpr (.inr ha)) hnot
  · intro hlost
    by_cases hlost' : .raisedAfter ∈ resultInserts as
    · rcases hjob with ⟨rfl, heq⟩ | hjob
      · exact heq ▸ hspoilt hlost'
      · exact Ledger.spoilt_step hk.holds (hspoilt hlost') hjob
    · by_cases hcount : .count ∈ as
      · rw [resultInserts_of_counted hcount] at hlost
        exact absurd hlost hlost'
      · rcases hafter (((lost_snoc hcount).mp hlost).resolve_left hlost') with ⟨hin, -⟩ | ⟨-, hs⟩
        · exact absurd hin hcount
        · exact hs

end Batch

-- ---------------------------------------------------------------------------
-- A run that succeeds
-- ---------------------------------------------------------------------------

variable {cfg : ServiceConfig} {b : UUID}

theorem processSingleBatch_tallied (hclean : s₀.Clean b)
    (h : (Batch.processSingleBatch cfg b s₀).Run (s₀, .start b) as s) : Batch.Tallied cfg b s₀ as s := by
  refine h.trace_invariant (J := Batch.Tallied cfg b s₀) (Batch.tallied_start cfg hclean) ?_
  rintro as ⟨s, batch⟩ a ⟨s', batch'⟩ ht hst
  exact Batch.tallied_step hclean ht (Batch.step_inv hst)

theorem Store.Clean.le_total {s : Store} (hc : s.Clean b) :
    (s.getBatchCounts b).completedRows + (s.getBatchCounts b).failedRows ≤
      (s.getBatchCounts b).totalRows := by
  have hone (key : Key) (hb : key.1 = b) : s.resultKeys.count key ≤ 1 := by
    by_cases hkey : key ∈ s.resultKeys
    · exact (hc.results key hkey hb).2.le
    · simp [List.count_eq_zero_of_not_mem hkey]
  have hbound := Store.le_total_of_count_le (fun key hkey hb => (hc.results key hkey hb).1) hone
  rwa [one_mul] at hbound

theorem Batch.Tallied.not_lost (ht : Tallied cfg b s₀ as (s, batch)) (hjob : batch.job = .returned)
    (hone : ∀ row ∈ s.inputs, row.batchId = b → s.resultKeys.count row.key = 1) :
    .raisedAfter ∉ resultInserts as := by
  intro hlost
  have hs : Ledger.Spoilt b s .returned := hjob ▸ ht.spoilt hlost
  rcases hs with ⟨key, hkey, hb, hcount⟩ | hstale | hfailed
  · obtain ⟨row, hrow, rfl⟩ := List.mem_map.mp hkey
    rw [hone row hrow hb] at hcount
    omega
  · exact hstale
  · cases hfailed

/-- A run that succeeds has stored a result for every row, whatever its
inserts did. It has stored just one, and reported as many results as rows,
exactly when no result insert raised after the server had accepted its chunk. -/
theorem retries_keep_every_row (hclean : s₀.Clean b)
    (h : (Batch.processSingleBatch cfg b s₀).Run (s₀, .start b) as (s, batch))
    (hret : batch.pc = .returned) :
    (∀ row ∈ s.inputs, row.batchId = b → 1 ≤ s.resultKeys.count row.key) ∧
      (∃ new, s.batches = s₀.batches ++ new ∧ new ≠ [] ∧
        ∀ row ∈ new, row = ⟨b, .complete, s.getBatchCounts b⟩) ∧
      (s.getBatchCounts b).totalRows ≤
        (s.getBatchCounts b).completedRows + (s.getBatchCounts b).failedRows ∧
      ((∀ row ∈ s.inputs, row.batchId = b → s.resultKeys.count row.key = 1) ↔
        .raisedAfter ∉ resultInserts as) ∧
      ((s.getBatchCounts b).completedRows + (s.getBatchCounts b).failedRows =
          (s.getBatchCounts b).totalRows ↔ .raisedAfter ∉ resultInserts as) := by
  have ht := processSingleBatch_tallied hclean h
  have hjob : batch.job = .returned := by simp [Batch.job, hret]
  have hk : Ledger.Kept s₀ b s batch.job := ht.kept
  have hcov : s.Covered b := hk.covered (by rw [hjob]; trivial)
  have hrows : s.DistinctRows b := by simpa [Store.DistinctRows, hk.inputs] using hclean.rows
  have hle := Store.total_le_of_covered hcov hrows
  have hclean' (hnot : .raisedAfter ∉ resultInserts as) : s.Clean b := (ht.clean hnot).1
  refine ⟨fun row hrow hb => List.count_pos_iff.mpr (hcov row hrow hb), ?_, hle, ?_, ?_⟩
  · obtain ⟨new, hnew, hrow, hne, -⟩ := hk.rows
    exact ⟨new, hnew, hne hjob, hrow⟩
  · refine ⟨ht.not_lost hjob, fun hnot row hrow hb => ?_⟩
    exact ((hclean' hnot).results row.key (hcov row hrow hb) hb).2
  · constructor
    · intro htotal
      apply ht.not_lost hjob
      intro row hrow hb
      exact Store.count_eq_one_of_total hcov hrows htotal.le hrow hb
    · intro hnot
      exact Nat.le_antisymm (hclean' hnot).le_total hle

-- One row, whose result is inserted twice: the first attempt raises.

def oneRow : Store := ⟨[plainRow 1 1], [], [⟨1, .pending, ⟨0, 0, 0⟩⟩]⟩

def insertedTwice (first : InsertOutcome) : List BatchAction :=
  onePage (served (plainRow 1 1)) ++ [.insert first, .insert .ok, .next, .fetch, .count, .insert .ok]

theorem oneRow_clean : oneRow.Clean 1 := ⟨by decide, by simp [oneRow, Store.resultKeys]⟩

theorem lost_acknowledgement_duplicates :
    ∃ s batch, (Batch.processSingleBatch rowByRow 1 oneRow).Run (oneRow, .start 1)
        (insertedTwice .raisedAfter) (s, batch) ∧
      batch.pc = .returned ∧ s.resultKeys.count (1, 1) = 2 ∧
        ∃ row ∈ s.batches, row.status = .complete ∧
          row.counts.completedRows + row.counts.failedRows = 2 ∧ row.counts.totalRows = 1 := by
  have hexec : (LTS.exec (fun s a => Batch.step rowByRow s.1 s.2 a) (oneRow, .start 1)
      (insertedTwice .raisedAfter)).map (fun s => decide (s.2.pc = .returned ∧
        s.1.resultKeys.count (1, 1) = 2 ∧ ∃ row ∈ s.1.batches, row.status = .complete ∧
          row.counts.completedRows + row.counts.failedRows = 2 ∧ row.counts.totalRows = 1)) =
        some true := by decide +kernel
  obtain ⟨⟨s, batch⟩, hrun, hs⟩ := LTS.exists_run hexec
  exact ⟨s, batch, hrun, of_decide_eq_true hs⟩

theorem rejected_insert_harmless :
    ∃ s batch, (Batch.processSingleBatch rowByRow 1 oneRow).Run (oneRow, .start 1)
        (insertedTwice .raisedBefore) (s, batch) ∧
      (s.getBatchCounts 1).completedRows + (s.getBatchCounts 1).failedRows =
        (s.getBatchCounts 1).totalRows := by
  have hexec : (LTS.exec (fun s a => Batch.step rowByRow s.1 s.2 a) (oneRow, .start 1)
      (insertedTwice .raisedBefore)).map (fun s => decide (s.2.pc = .returned)) = some true := by
    decide +kernel
  obtain ⟨⟨s, batch⟩, hrun, hs⟩ : ∃ s, (Batch.processSingleBatch rowByRow 1 oneRow).Run
      (oneRow, .start 1) (insertedTwice .raisedBefore) s ∧ decide (s.2.pc = .returned) = true :=
    LTS.exists_run hexec
  obtain ⟨-, -, -, -, htotal⟩ := retries_keep_every_row oneRow_clean hrun (of_decide_eq_true hs)
  exact ⟨s, batch, hrun, htotal.mpr (by decide)⟩

end LlmWorker
