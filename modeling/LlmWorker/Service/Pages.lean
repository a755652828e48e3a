import LlmWorker.Clickhouse

/-!
# The pages of a batch

Which pages `process_single_batch` fetches does not depend on its threads:
when every row of a page has its result before the next fetch, `fetches` gives
the first of them from the rows alone.
-/

namespace LlmWorker

/-- A call of `get_batch_rows`: the number of rows without a result, and the page. -/
structure Fetch where
  unprocessed : Nat
  page : List LLMInput
  deriving DecidableEq

namespace Paging

/-- `ORDER BY row_id` -/
def byRowId (rows : List LLMInput) : List LLMInput := rows.insertionSort fun x y => x.rowId ≤ y.rowId

def fetchedKeys (history : List Fetch) : List Key := (history.flatMap (·.page)).map LLMInput.key

/-- The rows that have been on no page. -/
def left (rows : List LLMInput) (history : List Fetch) : List LLMInput :=
  rows.filter fun row => row.key ∉ fetchedKeys history

def nextFetch (page : Nat) (rows : List LLMInput) (history : List Fetch) : Fetch :=
  ⟨(left rows history).length, (byRowId (left rows history)).take page⟩

/-- The first fetches, when every row of a page gets its result before the next one. -/
def fetches (page : Nat) (rows : List LLMInput) : Nat → List Fetch
  | 0 => []
  | n + 1 => fetches page rows n ++ [nextFetch page rows (fetches page rows n)]

variable {page : Nat} {rows : List LLMInput} {history : List Fetch}

theorem mem_byRowId : row ∈ byRowId rows ↔ row ∈ rows := (List.perm_insertionSort _ _).mem_iff

@[simp] theorem length_byRowId (rows : List LLMInput) : (byRowId rows).length = rows.length :=
  (List.perm_insertionSort _ _).length_eq

theorem left_nil (rows : List LLMInput) : left rows [] = rows := by simp [left, fetchedKeys]

theorem fetchedKeys_snoc (history : List Fetch) (f : Fetch) :
    fetchedKeys (history ++ [f]) = fetchedKeys history ++ f.page.map LLMInput.key := by
  simp [fetchedKeys]

theorem left_snoc (rows : List LLMInput) (history : List Fetch) (f : Fetch) :
    left rows (history ++ [f]) = (left rows history).filter fun row => row.key ∉ f.page.map LLMInput.key := by
  rw [left, left, List.filter_filter, fetchedKeys_snoc]
  refine List.filter_congr fun row _ => ?_
  simp only [List.mem_append, not_or, Bool.decide_and, Bool.and_comm]

theorem nextFetch_page_eq_nil (hpage : 0 < page) :
    (nextFetch page rows history).page = [] ↔ left rows history = [] := by
  rw [nextFetch, List.take_eq_nil_iff, ← List.length_eq_zero_iff, length_byRowId, List.length_eq_zero_iff]
  constructor
  · rintro (h | h)
    · omega
    · exact h
  · exact .inr

theorem left_next_lt (h : (nextFetch page rows history).page ≠ []) :
    (left rows (history ++ [nextFetch page rows history])).length < (left rows history).length := by
  obtain ⟨row, hrow⟩ := List.exists_mem_of_ne_nil _ h
  rw [left_snoc]
  refine List.length_filter_lt_length_iff_exists.mpr ⟨row, mem_byRowId.mp (List.mem_of_mem_take hrow), ?_⟩
  simpa using ⟨row, hrow, rfl⟩

@[simp] theorem length_fetches (n : Nat) : (fetches page rows n).length = n := by
  induction n with
  | zero => rfl
  | succ n ih => simp [fetches, ih]

theorem fetches_decreasing (h : ∀ f ∈ fetches page rows n, f.page ≠ []) :
    ((fetches page rows n).map (·.unprocessed)).Pairwise (· > ·) ∧
      ∀ f ∈ fetches page rows n, (left rows (fetches page rows n)).length < f.unprocessed := by
  induction n with
  | zero => simp [fetches]
  | succ n ih =>
    obtain ⟨hpairwise, hlast⟩ := ih fun f hf => h f (List.mem_append_left _ hf)
    have hlt := left_next_lt (h _ (List.mem_append_right _ (List.mem_singleton_self _)))
    rw [fetches, List.map_append, List.pairwise_append]
    refine ⟨⟨hpairwise, by simp, ?_⟩, fun f hf => ?_⟩
    · rintro u hu v hv
      obtain ⟨f, hf, rfl⟩ := List.mem_map.mp hu
      obtain rfl : v = _ := by simpa using hv
      exact hlast f hf
    · rcases List.mem_append.mp hf with hold | hnew
      · exact hlt.trans (hlast f hold)
      · obtain rfl : f = _ := by simpa using hnew
        exact hlt

/-- The fetches of a loop that stops at the first empty page. -/
theorem fetches_pairwise (h : ∀ f ∈ fetches page rows n, f.page ≠ []) :
    ((fetches page rows (n + 1)).map (·.unprocessed)).Pairwise (· > ·) := by
  obtain ⟨hpairwise, hlast⟩ := fetches_decreasing h
  rw [fetches, List.map_append, List.pairwise_append]
  refine ⟨hpairwise, by simp, ?_⟩
  rintro u hu v hv
  obtain ⟨f, hf, rfl⟩ := List.mem_map.mp hu
  obtain rfl : v = _ := by simpa using hv
  exact hlast f hf

-- ---------------------------------------------------------------------------
-- Distinct rows
-- ---------------------------------------------------------------------------

theorem filter_drop (hnodup : (rows.map (·.rowId)).Nodup) (n : Nat) :
    (rows.filter fun row => row.key ∉ (rows.take n).map LLMInput.key) = rows.drop n := by
  have hsplit := List.take_append_drop n rows
  have hdisjoint : ∀ row ∈ rows.drop n, row.key ∉ (rows.take n).map LLMInput.key := by
    intro row hrow hkey
    obtain ⟨row', hrow', heq⟩ := List.mem_map.mp hkey
    rw [← hsplit, List.map_append] at hnodup
    refine (List.nodup_append.mp hnodup).2.2 row'.rowId (List.mem_map_of_mem hrow') row.rowId
      (List.mem_map_of_mem hrow) (congrArg Prod.snd heq)
  calc rows.filter (fun row => row.key ∉ (rows.take n).map LLMInput.key)
      = (rows.take n ++ rows.drop n).filter fun row => row.key ∉ (rows.take n).map LLMInput.key := by rw [hsplit]
    _ = [] ++ rows.drop n := by
        rw [List.filter_append]
        congr 1
        · refine List.filter_eq_nil_iff.mpr fun row hrow => ?_
          have hkey : row.key ∈ (rows.take n).map LLMInput.key := List.mem_map_of_mem hrow
          simp only [hkey, not_true, decide_false, Bool.false_eq_true, not_false_eq_true]
        · exact List.filter_eq_self.mpr fun row hrow => by simpa using hdisjoint row hrow
    _ = rows.drop n := List.nil_append _

theorem byRowId_filter (hnodup : (rows.map (·.rowId)).Nodup) (q : LLMInput → Bool) :
    byRowId (rows.filter q) = (byRowId rows).filter q := by
  refine List.Perm.eq_of_pairwise ?_ (List.pairwise_insertionSort _ _)
    ((List.pairwise_insertionSort _ _).sublist List.filter_sublist)
    ((List.perm_insertionSort _ _).trans ((List.perm_insertionSort _ rows).symm.filter q))
  intro x y hx hy hxy hyx
  have hx : x ∈ rows := (List.mem_filter.mp (mem_byRowId.mp hx)).1
  have hy : y ∈ rows := mem_byRowId.mp (List.mem_filter.mp hy).1
  exact List.inj_on_of_nodup_map hnodup hx hy (Nat.le_antisymm (by simpa using hxy) (by simpa using hyx))

theorem byRowId_left (hnodup : (rows.map (·.rowId)).Nodup) (n : Nat) :
    byRowId (left rows (fetches page rows n)) = (byRowId rows).drop (n * page) := by
  induction n with
  | zero => simp [fetches, left_nil]
  | succ n ih =>
    have hleft : ((left rows (fetches page rows n)).map (·.rowId)).Nodup :=
      hnodup.sublist (List.filter_sublist.map _)
    have hsorted : ((byRowId (left rows (fetches page rows n))).map (·.rowId)).Nodup :=
      ((List.perm_insertionSort _ _).map _).nodup_iff.mpr hleft
    rw [fetches, left_snoc, byRowId_filter hleft, nextFetch, filter_drop hsorted, ih, List.drop_drop, Nat.add_one_mul]

theorem pages_fetches (hnodup : (rows.map (·.rowId)).Nodup) (n : Nat) :
    (fetches page rows n).map (·.page) =
      (List.range n).map fun i => ((byRowId rows).drop (i * page)).take page := by
  induction n with
  | zero => rfl
  | succ n ih =>
    rw [fetches, List.map_append, ih, List.range_succ, List.map_append, List.map_singleton, List.map_singleton,
      nextFetch, byRowId_left hnodup]

theorem flatten_pages (hnodup : (rows.map (·.rowId)).Nodup) (n : Nat) :
    (fetches page rows n).flatMap (·.page) = (byRowId rows).take (n * page) := by
  induction n with
  | zero => simp [fetches]
  | succ n ih =>
    rw [fetches, List.flatMap_append, ih, Nat.add_one_mul, List.take_add, List.flatMap_singleton, nextFetch,
      byRowId_left hnodup]

/-- With distinct rows, the first empty page comes after one page for each
`page` of them, the last one possibly smaller. -/
theorem count_fetches (hpage : 0 < page) (hnodup : (rows.map (·.rowId)).Nodup)
    (hfull : ∀ f ∈ fetches page rows n, f.page ≠ []) (hover : left rows (fetches page rows n) = []) :
    n = (rows.length + page - 1) / page := by
  have hle : rows.length ≤ n * page := by
    have hnil : byRowId (left rows (fetches page rows n)) = _ := byRowId_left hnodup n
    rw [hover] at hnil
    simpa using List.drop_eq_nil_iff.mp hnil.symm
  refine (Nat.div_eq_of_lt_le ?_ ?_).symm
  · cases n with
    | zero => simp
    | succ n =>
      have hlast := hfull _ (List.mem_append_right _ (List.mem_singleton_self _))
      rw [nextFetch, byRowId_left hnodup] at hlast
      have hlt : n * page < rows.length := by
        refine Nat.lt_of_not_le fun hle => hlast ?_
        rw [List.drop_eq_nil_iff.mpr (by simpa using hle), List.take_nil]
      rw [Nat.add_one_mul]
      omega
  · rw [Nat.add_one_mul]
    omega

end Paging

end LlmWorker
