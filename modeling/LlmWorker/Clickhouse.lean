import Mathlib.Algebra.BigOperators.Group.Finset.Basic
import Mathlib.Algebra.Order.BigOperators.Group.Finset
import Mathlib.Data.List.Dedup
import Mathlib.Data.List.Perm.Basic
import Mathlib.Data.List.Sort

/-!
# The tables and their queries

`clickhouse.py`: `llm_inputs`, `llm_results` and `llm_batches` as append-only
lists, the three queries the worker runs on them and the two inserts.
-/

namespace LlmWorker

abbrev UUID := Nat

/-- A row of `llm_inputs`. -/
structure LLMInput where
  batchId : UUID
  rowId : UUID
  modelId : String
  prompt : String
  params : String
  toolConfig : String
  deriving DecidableEq

inductive Status
  | complete
  | failed
  deriving DecidableEq

/-- A row of `llm_results`. -/
structure LLMResult where
  batchId : UUID
  rowId : UUID
  response : String
  status : Status
  error : String
  deriving DecidableEq

inductive BatchStatus
  | pending
  | complete
  deriving DecidableEq

structure Counts where
  totalRows : Nat
  completedRows : Nat
  failedRows : Nat
  deriving DecidableEq

/-- A row of `llm_batches`. -/
structure BatchRow where
  batchId : UUID
  status : BatchStatus
  counts : Counts
  deriving DecidableEq

structure Store where
  inputs : List LLMInput
  results : List LLMResult
  batches : List BatchRow
  deriving DecidableEq

abbrev Key := UUID × UUID

instance : LawfulBEq Key := inferInstance

def LLMInput.key (row : LLMInput) : Key := (row.batchId, row.rowId)
def LLMResult.key (result : LLMResult) : Key := (result.batchId, result.rowId)

namespace Store

def empty : Store := ⟨[], [], []⟩

def HasStatus (s : Store) (b : UUID) (status : BatchStatus) : Prop :=
  ∃ row ∈ s.batches, row.batchId = b ∧ row.status = status

instance (s : Store) (b : UUID) (status : BatchStatus) : Decidable (s.HasStatus b status) := by
  unfold HasStatus
  infer_instance

/-- `countIf(status = 'pending') > 0 AND countIf(status = 'complete') = 0` -/
def Pending (s : Store) (b : UUID) : Prop :=
  s.HasStatus b .pending ∧ ¬s.HasStatus b .complete

instance (s : Store) (b : UUID) : Decidable (s.Pending b) := by
  unfold Pending
  infer_instance

def getPendingBatches (pendingBatchLimit : Nat) (s : Store) : List UUID :=
  (((s.batches.map (·.batchId)).dedup.filter fun b => s.Pending b).insertionSort (· ≤ ·)).take
    pendingBatchLimit

/-- `SELECT row_id FROM llm_results WHERE batch_id = b` -/
def resultRowIds (s : Store) (b : UUID) : List UUID :=
  (s.results.filter fun r => r.batchId = b).map (·.rowId)

def unprocessed (s : Store) (b : UUID) : List LLMInput :=
  s.inputs.filter fun row => row.batchId = b ∧ row.rowId ∉ s.resultRowIds b

/-- Rows that share a row id come in the order of the table. -/
def getBatchRows (batchPageSize : Nat) (s : Store) (b : UUID) : List LLMInput :=
  ((s.unprocessed b).insertionSort fun x y => x.rowId ≤ y.rowId).take batchPageSize

def getBatchCounts (s : Store) (b : UUID) : Counts where
  totalRows := s.inputs.countP fun row => row.batchId = b
  completedRows := s.results.countP fun r => r.batchId = b ∧ r.status = .complete
  failedRows := s.results.countP fun r => r.batchId = b ∧ r.status = .failed

def writeResults (s : Store) (results : List LLMResult) : Store :=
  { s with results := s.results ++ results }

def writeBatchStatus (s : Store) (b : UUID) (status : BatchStatus) (counts : Counts) : Store :=
  { s with batches := s.batches ++ [⟨b, status, counts⟩] }

-- ---------------------------------------------------------------------------
-- Keys
-- ---------------------------------------------------------------------------

def inputKeys (s : Store) : List Key := s.inputs.map LLMInput.key
def resultKeys (s : Store) : List Key := s.results.map LLMResult.key

/-- Every input row of the batch has a result. -/
def Covered (s : Store) (b : UUID) : Prop :=
  ∀ row ∈ s.inputs, row.batchId = b → row.key ∈ s.resultKeys

instance (s : Store) (b : UUID) : Decidable (s.Covered b) := by
  unfold Covered
  infer_instance

@[simp] theorem resultKeys_writeResults (s : Store) (results : List LLMResult) :
    (s.writeResults results).resultKeys = s.resultKeys ++ results.map LLMResult.key := by
  simp [resultKeys, writeResults]

@[simp] theorem resultKeys_writeBatchStatus (s : Store) (b : UUID) (status : BatchStatus)
    (counts : Counts) : (s.writeBatchStatus b status counts).resultKeys = s.resultKeys := rfl

theorem hasStatus_writeBatchStatus {s : Store} :
    (s.writeBatchStatus c status' counts).HasStatus b status ↔
      s.HasStatus b status ∨ c = b ∧ status' = status := by
  simp [HasStatus, writeBatchStatus, or_and_right, exists_or]

theorem Covered.writeResults {s : Store} (h : s.Covered b) : (s.writeResults rs).Covered b := by
  intro row hrow hb
  rw [resultKeys_writeResults]
  exact List.mem_append_left _ (h row hrow hb)

theorem mem_resultRowIds {s : Store} : rowId ∈ s.resultRowIds b ↔ (b, rowId) ∈ s.resultKeys := by
  simp only [resultRowIds, resultKeys, List.mem_map, List.mem_filter, decide_eq_true_eq,
    LLMResult.key, Prod.mk.injEq]
  constructor
  · rintro ⟨r, ⟨hr, hb⟩, hid⟩
    exact ⟨r, hr, hb, hid⟩
  · rintro ⟨r, hr, hb, hid⟩
    exact ⟨r, ⟨hr, hb⟩, hid⟩

-- ---------------------------------------------------------------------------
-- The pending batches
-- ---------------------------------------------------------------------------

theorem mem_getPendingBatches {s : Store} (h : b ∈ s.getPendingBatches limit) : s.Pending b := by
  have hmem := (List.perm_insertionSort _ _).mem_iff.mp (List.mem_of_mem_take h)
  simpa using (List.mem_filter.mp hmem).2

theorem nodup_getPendingBatches (s : Store) (limit : Nat) : (s.getPendingBatches limit).Nodup := by
  have hfilter := (List.nodup_dedup (s.batches.map (·.batchId))).filter fun b => s.Pending b
  exact ((List.perm_insertionSort _ _).nodup_iff.mpr hfilter).sublist (List.take_sublist _ _)

theorem sorted_getPendingBatches (s : Store) (limit : Nat) :
    (s.getPendingBatches limit).Pairwise (· ≤ ·) :=
  (List.pairwise_insertionSort _ _).sublist (List.take_sublist _ _)

theorem mem_first_of_lt {first later : List UUID} (hsorted : (first ++ later).Pairwise (· ≤ ·))
    (hb : b ∈ first ++ later) (hc : c ∈ first) (hlt : b < c) : b ∈ first := by
  rcases List.mem_append.mp hb with hfirst | hlater
  · exact hfirst
  · have hle : c ≤ b := (List.pairwise_append.mp hsorted).2.2 c hc b hlater
    exact absurd hlt (Nat.not_lt.mpr hle)

theorem mem_getPendingBatches_of_lt {s : Store} (hc : c ∈ s.getPendingBatches limit)
    (hb : s.Pending b) (hlt : b < c) : b ∈ s.getPendingBatches limit := by
  unfold getPendingBatches at hc ⊢
  generalize hall : ((s.batches.map (·.batchId)).dedup.filter fun b => s.Pending b).insertionSort
    (· ≤ ·) = all at hc ⊢
  have hsorted : all.Pairwise (· ≤ ·) := hall ▸ List.pairwise_insertionSort _ _
  have hmem : b ∈ all := by
    rw [← hall, (List.perm_insertionSort _ _).mem_iff, List.mem_filter, List.mem_dedup]
    obtain ⟨row, hrow, hid, -⟩ := hb.1
    exact ⟨List.mem_map.mpr ⟨row, hrow, hid⟩, decide_eq_true hb⟩
  rw [← List.take_append_drop limit all] at hmem hsorted
  exact mem_first_of_lt hsorted hmem hc hlt

-- ---------------------------------------------------------------------------
-- The unprocessed rows
-- ---------------------------------------------------------------------------

theorem mem_unprocessed {s : Store} :
    row ∈ s.unprocessed b ↔ row ∈ s.inputs ∧ row.batchId = b ∧ row.key ∉ s.resultKeys := by
  simp only [unprocessed, List.mem_filter, decide_eq_true_eq, mem_resultRowIds]
  constructor
  · rintro ⟨hrow, rfl, hkey⟩
    exact ⟨hrow, rfl, hkey⟩
  · rintro ⟨hrow, rfl, hkey⟩
    exact ⟨hrow, rfl, hkey⟩

theorem unprocessed_eq_nil {s : Store} : s.unprocessed b = [] ↔ s.Covered b := by
  rw [List.eq_nil_iff_forall_not_mem]
  constructor
  · intro h row hrow hb
    exact Classical.byContradiction fun hkey => h row (mem_unprocessed.mpr ⟨hrow, hb, hkey⟩)
  · intro h row hrow
    obtain ⟨hin, hb, hkey⟩ := mem_unprocessed.mp hrow
    exact hkey (h row hin hb)

theorem mem_getBatchRows {s : Store} (h : row ∈ s.getBatchRows page b) :
    row ∈ s.inputs ∧ row.batchId = b ∧ row.key ∉ s.resultKeys :=
  mem_unprocessed.mp ((List.perm_insertionSort _ _).mem_iff.mp (List.mem_of_mem_take h))

theorem getBatchRows_eq_nil {s : Store} (hpage : 0 < page) :
    s.getBatchRows page b = [] ↔ s.Covered b := by
  rw [← unprocessed_eq_nil, getBatchRows, List.take_eq_nil_iff]
  have hlength := (List.perm_insertionSort (fun x y : LLMInput => x.rowId ≤ y.rowId)
    (s.unprocessed b)).length_eq
  have hsort : (s.unprocessed b).insertionSort (fun x y => x.rowId ≤ y.rowId) = [] ↔
      s.unprocessed b = [] := by
    rw [← List.length_eq_zero_iff, hlength, List.length_eq_zero_iff]
  constructor
  · rintro (h | h)
    · omega
    · exact hsort.mp h
  · intro h
    exact .inr (hsort.mpr h)

def DistinctRows (s : Store) (b : UUID) : Prop :=
  ((s.inputs.filter fun row => row.batchId = b).map LLMInput.key).Nodup

instance (s : Store) (b : UUID) : Decidable (s.DistinctRows b) := by
  unfold DistinctRows
  infer_instance

theorem nodup_getBatchRows {s : Store} (h : s.DistinctRows b) :
    ((s.getBatchRows page b).map LLMInput.key).Nodup := by
  have hsub : ((s.unprocessed b).map LLMInput.key).Nodup := by
    refine List.Nodup.sublist (List.Sublist.map _ ?_) h
    have hfilter : s.unprocessed b = (s.inputs.filter fun row => row.batchId = b).filter
        fun row => row.rowId ∉ s.resultRowIds b := by
      simp [unprocessed, List.filter_filter, Bool.and_comm]
    rw [hfilter]
    exact List.filter_sublist
  have hperm := ((List.perm_insertionSort (fun x y : LLMInput => x.rowId ≤ y.rowId)
    (s.unprocessed b)).map LLMInput.key).nodup_iff.mpr hsub
  exact hperm.sublist ((List.take_sublist _ _).map _)

-- ---------------------------------------------------------------------------
-- The counts
-- ---------------------------------------------------------------------------

/-- Every result row has one of the two statuses, so the counts add up to the
rows of the batch, not to its distinct row ids. -/
theorem counts_add (s : Store) (b : UUID) :
    (s.getBatchCounts b).completedRows + (s.getBatchCounts b).failedRows =
      s.results.countP fun r => r.batchId = b := by
  simp only [getBatchCounts]
  induction s.results with
  | nil => simp
  | cons r rest ih =>
    simp only [List.countP_cons, ← ih]
    cases r.status <;> by_cases hb : r.batchId = b <;> simp [hb] <;> omega

theorem countP_inputs (s : Store) (b : UUID) : s.inputs.countP (fun row => row.batchId = b) =
    ((s.inputs.filter fun row => row.batchId = b).map LLMInput.key).length := by
  rw [List.length_map, List.countP_eq_length_filter]

theorem countP_results (s : Store) (b : UUID) : s.results.countP (fun r => r.batchId = b) =
    ((s.results.filter fun r => r.batchId = b).map LLMResult.key).length := by
  rw [List.length_map, List.countP_eq_length_filter]

theorem subperm_of_covered {s : Store} (hcov : s.Covered b) (hdistinct : s.DistinctRows b) :
    ((s.inputs.filter fun row => row.batchId = b).map LLMInput.key).Subperm
      ((s.results.filter fun r => r.batchId = b).map LLMResult.key) := by
  refine List.subperm_of_subset hdistinct fun key hkey => ?_
  obtain ⟨row, hrow, rfl⟩ := List.mem_map.mp hkey
  obtain ⟨hin, hb⟩ := List.mem_filter.mp hrow
  have hb : row.batchId = b := of_decide_eq_true hb
  obtain ⟨r, hr, hrkey⟩ := List.mem_map.mp (hcov row hin hb)
  refine List.mem_map.mpr ⟨r, List.mem_filter.mpr ⟨hr, decide_eq_true ?_⟩, hrkey⟩
  exact (congrArg Prod.fst hrkey).trans hb

theorem total_le_of_covered {s : Store} (hcov : s.Covered b) (hdistinct : s.DistinctRows b) :
    (s.getBatchCounts b).totalRows ≤
      (s.getBatchCounts b).completedRows + (s.getBatchCounts b).failedRows := by
  rw [counts_add, countP_results]
  simp only [getBatchCounts]
  rw [countP_inputs]
  exact (subperm_of_covered hcov hdistinct).length_le

theorem count_resultKeys (s : Store) (key : Key) : s.resultKeys.count key =
    ((s.results.filter fun r => r.batchId = key.1).map LLMResult.key).count key := by
  simp only [resultKeys, List.count, List.countP_map, List.countP_filter]
  refine List.countP_congr fun r _ => ?_
  simp only [Function.comp_apply, beq_iff_eq, Bool.and_eq_true, decide_eq_true_eq]
  exact ⟨fun h => ⟨h, congrArg Prod.fst h⟩, And.left⟩

theorem le_total_of_count_le {s : Store} (hin : ∀ key ∈ s.resultKeys, key.1 = b → key ∈ s.inputKeys)
    (hcount : ∀ key, key.1 = b → s.resultKeys.count key ≤ n) :
    (s.getBatchCounts b).completedRows + (s.getBatchCounts b).failedRows ≤
      n * (s.getBatchCounts b).totalRows := by
  rw [counts_add, countP_results]
  simp only [getBatchCounts]
  rw [countP_inputs]
  generalize hrows : (s.inputs.filter fun row => row.batchId = b).map LLMInput.key = rows
  generalize hkeys : (s.results.filter fun r => r.batchId = b).map LLMResult.key = keys
  have hsub : keys.toFinset ⊆ rows.toFinset := by
    intro key hkey
    rw [List.mem_toFinset] at hkey ⊢
    subst hrows hkeys
    obtain ⟨r, hr, rfl⟩ := List.mem_map.mp hkey
    obtain ⟨hmem, hb⟩ := List.mem_filter.mp hr
    have hb : r.key.1 = b := of_decide_eq_true hb
    obtain ⟨row, hrow, heq⟩ := List.mem_map.mp (hin r.key (List.mem_map_of_mem hmem) hb)
    refine List.mem_map.mpr ⟨row, List.mem_filter.mpr ⟨hrow, decide_eq_true ?_⟩, heq⟩
    exact (congrArg Prod.fst heq).trans hb
  have hle (key : Key) (hkey : key ∈ keys) : keys.count key ≤ n := by
    subst hkeys
    obtain ⟨r, hr, rfl⟩ := List.mem_map.mp hkey
    have hb : r.key.1 = b := of_decide_eq_true (List.mem_filter.mp hr).2
    rw [← hb, ← count_resultKeys]
    exact hcount r.key hb
  calc keys.length = ∑ key ∈ keys.toFinset, keys.count key := by
        rw [← List.sum_toFinset_count_eq_length keys]
        exact Finset.sum_congr rfl fun key _ => by congr!
    _ ≤ ∑ _key ∈ keys.toFinset, n := Finset.sum_le_sum fun key hkey => hle key (List.mem_toFinset.mp hkey)
    _ = n * keys.toFinset.card := by rw [Finset.sum_const, Nat.nsmul_eq_mul, Nat.mul_comm]
    _ ≤ n * rows.length :=
      Nat.mul_le_mul_left n ((Finset.card_le_card hsub).trans (List.toFinset_card_le rows))

theorem count_eq_one_of_total {s : Store} (hcov : s.Covered b) (hdistinct : s.DistinctRows b)
    (htotal : (s.getBatchCounts b).completedRows + (s.getBatchCounts b).failedRows ≤
      (s.getBatchCounts b).totalRows) (hrow : row ∈ s.inputs) (hb : row.batchId = b) :
    s.resultKeys.count row.key = 1 := by
  rw [counts_add, countP_results] at htotal
  simp only [getBatchCounts] at htotal
  rw [countP_inputs] at htotal
  have hperm := (subperm_of_covered hcov hdistinct).perm_of_length_le htotal
  obtain rfl : row.key.1 = b := hb
  rw [count_resultKeys]
  refine List.count_eq_one_of_mem (hperm.nodup_iff.mp hdistinct) (hperm.mem_iff.mp ?_)
  exact List.mem_map_of_mem (List.mem_filter.mpr ⟨hrow, decide_eq_true rfl⟩)

end Store

end LlmWorker
