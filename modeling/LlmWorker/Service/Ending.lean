import LlmWorker.Lib.Amid
import LlmWorker.Service.Paging

/-!
# Every run ends

`process_single_batch` next to anything: reads and inserts that fail in any
pattern, rows that make the iteration raise, other workers that add results.
What bounds it is that a row is fetched at most once in a run, since its result
is stored before the next fetch or there is no next fetch.
-/

namespace LlmWorker

open Python Transition

-- ---------------------------------------------------------------------------
-- The calls of a page
-- ---------------------------------------------------------------------------

def BatchExecutor.callsPerRow (x : BatchExecutor) : Nat := x.retryMaxAttempts - 1 + 1

namespace FutureState

def calls (x : BatchExecutor) : FutureState → Nat
  | .pending | .running .entered => x.callsPerRow
  | .running (.attempting _ left) => left + 1
  | .running (.calling _ left) => left
  | _ => 0

def callCost : ThreadAction → Nat
  | .call => 1
  | _ => 0

theorem calls_enter (x : BatchExecutor) (row : LLMInput) : calls x (.running (x.enter row)) ≤ x.callsPerRow := by
  unfold BatchExecutor.enter
  split
  · exact Nat.le_refl _
  · split <;> exact Nat.zero_le _

theorem calls_react (x : BatchExecutor) (row : LLMInput) (request : ContractRequest) (left : Nat)
    (outcome : Result LLMResponse) : calls x (.running (x.react row request left outcome)) ≤ left := by
  unfold BatchExecutor.react
  split
  · rename_i h
    simp only [calls]
    omega
  · cases x.conclude row outcome with
    | mk result aborts => cases aborts <;> simp [calls]

theorem calls_step (h : x.threadStep row st a = some st') : callCost a + calls x st' ≤ calls x st := by
  cases st with
  | pending =>
    cases a <;> simp [BatchExecutor.threadStep] at h
    subst h
    simp [calls, callCost]
  | running phase =>
    cases phase <;> cases a <;> simp [BatchExecutor.threadStep, BatchExecutor.phaseStep] at h
    case entered.check isSet =>
      subst h
      cases isSet with
      | true => simp [calls, callCost]
      | false => simpa [callCost, calls] using calls_enter x row
    case attempting.call =>
      subst h
      simp [calls, callCost, Nat.add_comm]
    case calling.answer request left outcome =>
      subst h
      show 0 + _ ≤ left
      rw [Nat.zero_add]
      exact calls_react x row request left outcome
    case aborting.set => subst h; simp [calls, callCost]
    case returning.ret => obtain ⟨-, rfl⟩ := h; simp [calls, callCost]
    case raising.raise => obtain ⟨-, rfl⟩ := h; simp [calls, callCost]
  | _ => simp [BatchExecutor.threadStep] at h

theorem calls_cancel (x : BatchExecutor) (st : FutureState) : calls x st.cancel ≤ calls x st := by
  cases st <;> simp [cancel, calls]

end FutureState

namespace Pool

def futuresCalls (x : BatchExecutor) (p : Pool) : Nat := (p.futures.map fun f => f.state.calls x).sum

def calls (x : BatchExecutor) (p : Pool) : Nat := p.futuresCalls x + x.callsPerRow * p.pendingInputs.length

theorem calls_start (x : BatchExecutor) (inputs : List LLMInput) :
    (start inputs).calls x = x.callsPerRow * inputs.length := by
  simp [calls, futuresCalls, start]

theorem calls_thread (h : threadStep x p i a = some p') : FutureState.callCost a + p'.calls x ≤ p.calls x := by
  obtain ⟨f, st, hf, -, hst, rfl⟩ := threadStep_inv h
  have hle := FutureState.calls_step hst
  have hsum : ((p.futures.set i ⟨f.row, st⟩).map fun f => f.state.calls x).sum + f.state.calls x =
      (p.futures.map fun f => f.state.calls x).sum + st.calls x := sum_map_set hf
  simp only [calls, futuresCalls]
  omega

theorem futuresCalls_cancel (x : BatchExecutor) (p : Pool) (i : Nat) :
    (p.cancel i).futuresCalls x ≤ p.futuresCalls x :=
  sum_map_modify_le (fun f => FutureState.calls_cancel x f.state) i

theorem calls_main (h : MainStep x p p' out) : p'.calls x ≤ p.calls x := by
  cases h with
  | submit hpc hrow =>
    simp only [calls, futuresCalls, submit, hrow, List.map_append, List.sum_append, List.map_singleton,
      List.sum_singleton, FutureState.calls, List.length_cons, Nat.mul_add_one]
    omega
  | abort => simp [calls, futuresCalls]
  | cancel => exact Nat.add_le_add_right (futuresCalls_cancel x p _) _
  | _ => exact Nat.le_refl _

end Pool

-- ---------------------------------------------------------------------------
-- What is left to fetch
-- ---------------------------------------------------------------------------

namespace Batch

/-- The rows whose results the run holds, or is still going to get from its page. -/
def inHand (batch : Batch) : Multiset Key := ↑(batch.pending.map LLMResult.key) + batch.owed

def Spent (batch : Batch) : Prop := batch.pool.Broken ∨ ∃ e, batch.pc = .failed e

/-- The row has a result, or gets one before the next fetch. -/
def Covers (s : Store) (batch : Batch) (key : Key) : Prop := key ∈ s.resultKeys ∨ key ∈ batch.inHand

instance (s : Store) (batch : Batch) : DecidablePred (Covers s batch) := fun key => by
  unfold Covers
  infer_instance

def rowsOf (s : Store) (b : UUID) : List LLMInput := s.inputs.filter fun row => row.batchId = b

def outstanding (s : Store) (batch : Batch) : List LLMInput :=
  (rowsOf s batch.id).filter fun row => ¬Covers s batch row.key

open scoped Classical in
/-- How many rows the run may still fetch. -/
noncomputable def remaining (s : Store) (batch : Batch) : Nat :=
  if batch.Spent then 0 else (outstanding s batch).length

structure Sane (cfg : ServiceConfig) (batch : Batch) : Prop where
  ok : batch.Ok cfg
  ready : batch.pool.Ready
  idle : batch.pc = .fetching → batch.Idle

theorem sane_start (cfg : ServiceConfig) (b : UUID) : Sane cfg (start b) :=
  ⟨ok_start cfg b, Pool.ready_exhausted, fun _ => ⟨rfl, rfl⟩⟩

variable {cfg : ServiceConfig} {s s' : Store} {batch batch' : Batch}

theorem sane_step (hs : Sane cfg batch) (h : Step cfg s batch a s' batch') : Sane cfg batch' := by
  have hok := ok_step hs.ok h
  cases h with
  | thread hp =>
    refine ⟨hok, Pool.ready_thread hs.ready hp, fun hpc => ?_⟩
    obtain ⟨f, st, -, -, -, rfl⟩ := Pool.threadStep_inv hp
    exact hs.idle hpc
  | silent hpc hp =>
    refine ⟨hok, Pool.ready_main hs.ready (Pool.mainStep_inv hp), fun hpc' => ?_⟩
    rw [show batch.pc = .fetching from hpc'] at hpc
    cases hpc
  | receive hpc hp =>
    refine ⟨hok, Pool.ready_main hs.ready (Pool.mainStep_inv hp), fun hpc' => ?_⟩
    simp only [receive] at hpc'
    split at hpc' <;> cases hpc'
  | page => exact ⟨hok, Pool.ready_start _, fun hpc' => by cases hpc'⟩
  | turn _ hpool hnil => exact ⟨hok, hs.ready, fun _ => ⟨hpool, hnil⟩⟩
  | write =>
    refine ⟨hok, by rw [pool_afterWrite]; exact hs.ready, fun hpc' => ?_⟩
    rcases afterWrite_cases batch _ _ with ⟨-, heq⟩ | ⟨-, ⟨heq, -⟩ | ⟨heq, -⟩⟩ <;> rw [heq] at hpc' <;> cases hpc'
  | report =>
    refine ⟨hok, by rw [pool_afterReport]; exact hs.ready, fun hpc' => ?_⟩
    rcases afterReport_cases batch _ _ _ with ⟨-, heq⟩ | ⟨-, ⟨heq, -⟩ | ⟨heq, -⟩⟩ <;> rw [heq] at hpc' <;> cases hpc'
  | empty | flush | raised | count | readError => exact ⟨hok, hs.ready, fun hpc' => by cases hpc'⟩

theorem Idle.inHand (h : batch.Idle) : batch.inHand = 0 := by
  rw [Batch.inHand, h.2, h.owed]
  rfl

theorem remaining_le (hid : batch'.id = batch.id) (hrows : rowsOf s' batch.id = rowsOf s batch.id)
    (hspent : batch.Spent → batch'.Spent)
    (hcovers : ¬batch'.Spent → ∀ key, Covers s batch key → Covers s' batch' key) :
    remaining s' batch' ≤ remaining s batch := by
  unfold remaining
  split
  · exact Nat.zero_le _
  · rename_i hgoing
    rw [if_neg fun h => hgoing (hspent h), outstanding, outstanding, hid, hrows]
    refine (List.monotone_filter_right _ fun row hrow => ?_).length_le
    simp only [decide_eq_true_eq] at hrow ⊢
    exact fun h => hrow (hcovers hgoing _ h)

theorem Idle.outstanding (h : batch.Idle) : batch.outstanding s = s.unprocessed batch.id := by
  rw [Batch.outstanding, rowsOf, Store.unprocessed, List.filter_filter]
  refine List.filter_congr fun row _ => ?_
  by_cases hb : row.batchId = batch.id
  · have hkey : (batch.id, row.rowId) = row.key := by rw [← hb]; rfl
    simp [Covers, h.inHand, hb, Store.mem_resultRowIds, hkey]
  · simp [hb]

theorem length_filter_of_page {l page : List LLMInput} (hpage : ∃ rest, (page ++ rest).Perm l) :
    page.length + (l.filter fun row => row.key ∉ page.map LLMInput.key).length ≤ l.length := by
  obtain ⟨rest, hperm⟩ := hpage
  have hnone : page.filter (fun row => row.key ∉ page.map LLMInput.key) = [] :=
    List.filter_eq_nil_iff.mpr fun row hrow => by simpa using ⟨row, hrow, rfl⟩
  have hlength := (hperm.filter fun row => row.key ∉ page.map LLMInput.key).length_eq
  rw [List.filter_append, hnone, List.nil_append] at hlength
  have hle : (rest.filter fun row => row.key ∉ page.map LLMInput.key).length ≤ rest.length := List.length_filter_le _ _
  have htotal := hperm.length_eq
  rw [List.length_append] at htotal
  omega

theorem remaining_page (hs : Sane cfg batch) (hpc : batch.pc = .fetching) :
    (s.getBatchRows cfg.batchPageSize batch.id).length + remaining s { batch with
      pc := .consuming
      pool := Pool.start (s.getBatchRows cfg.batchPageSize batch.id)
      pending := [] } ≤ remaining s batch := by
  have hidle := hs.idle hpc
  have hgoing : ¬batch.Spent := by
    rintro (hbroken | ⟨e, hfailed⟩)
    · exact not_broken_of_exhausted hidle.1 hbroken
    · rw [hpc] at hfailed
      cases hfailed
  have hgoing' : ¬Spent ⟨batch.id, .consuming, Pool.start (s.getBatchRows cfg.batchPageSize batch.id), []⟩ := by
    rintro (hbroken | ⟨e, hfailed⟩)
    · exact hbroken
    · cases hfailed
  rw [remaining, remaining, if_neg hgoing, if_neg hgoing', hidle.outstanding]
  have hrest : outstanding s ⟨batch.id, .consuming, Pool.start (s.getBatchRows cfg.batchPageSize batch.id), []⟩ =
      (s.unprocessed batch.id).filter fun row =>
        row.key ∉ (s.getBatchRows cfg.batchPageSize batch.id).map LLMInput.key := by
    have hnew : inHand ⟨batch.id, .consuming, Pool.start (s.getBatchRows cfg.batchPageSize batch.id), []⟩ =
        ↑((s.getBatchRows cfg.batchPageSize batch.id).map LLMInput.key) := by
      simp [inHand, owed, Pool.owed, Pool.owing, Pool.held, Pool.start]
    rw [← hidle.outstanding, outstanding, outstanding, List.filter_filter]
    refine List.filter_congr fun row _ => ?_
    simp only [Covers, hnew, hidle.inHand, Multiset.notMem_zero, or_false, Multiset.mem_coe, ← Bool.decide_and]
    exact decide_eq_decide.mpr (by rw [not_or, and_comm])
  rw [hrest]
  refine length_filter_of_page
    ⟨((s.unprocessed batch.id).insertionSort fun x y => x.rowId ≤ y.rowId).drop cfg.batchPageSize, ?_⟩
  rw [Store.getBatchRows, List.take_append_drop]
  exact List.perm_insertionSort _ _

theorem remaining_step (hs : Sane cfg batch) (hpage : a ≠ .fetch) (h : Step cfg s batch a s' batch') :
    remaining s' batch' ≤ remaining s batch := by
  obtain ⟨⟨inputs, hw⟩, -⟩ := hs.ok
  have main {a : MainAction} {p : Pool} {out : Option LLMResult} {pending : List LLMResult} {pc : BatchPc}
      (hp : batch.pool.mainStep cfg.executor a = some (p, out)) (hpc : batch.pc = .consuming)
      (hpending : pending = batch.pending ++ out.toList) :
      remaining s { batch with pc := pc, pool := p, pending := pending } ≤ remaining s batch := by
    have hmain := Pool.mainStep_inv hp
    refine remaining_le rfl rfl ?_ fun hgoing key hkey => ?_
    · rintro (hb | ⟨e, he⟩)
      · exact .inl (Pool.broken_main hmain hb)
      · rw [hpc] at he
        cases he
    · have hb : ¬p.Broken := fun hb => hgoing (.inl hb)
      refine hkey.imp_right fun hin => ?_
      rw [inHand, owed] at hin ⊢
      rcases Pool.owed_main hw hmain with ⟨hbroken, -⟩ | ⟨howed, rfl⟩ | ⟨row, result, howed, rfl, hrow⟩
      · exact absurd hbroken hb
      · simpa [hpending, howed] using hin
      · simpa [hpending, howed, hrow, or_assoc, or_comm, or_left_comm] using hin
  cases h with
  | thread hp =>
    refine remaining_le rfl rfl ?_ fun _ key hkey => hkey.imp_right fun hin => ?_
    · exact Or.imp_left (Pool.broken_thread hp).mpr
    · rwa [inHand, owed, Pool.owed_thread hp]
  | silent hpc hp => exact hpc ▸ main hp hpc (by simp)
  | receive hpc hp => exact main hp hpc (by simp)
  | empty | page => exact absurd rfl hpage
  | turn hpc | flush hpc | count hpc =>
    refine remaining_le rfl rfl ?_ fun _ key hkey => hkey
    refine Or.imp_right ?_
    rintro ⟨e, he⟩
    rw [hpc] at he
    cases he
  | raised | readError =>
    exact remaining_le rfl rfl (fun _ => .inr ⟨_, rfl⟩) fun hgoing => absurd (.inr ⟨_, rfl⟩) hgoing
  | @write attempt outcome hpc =>
    have hrows : rowsOf (if outcome.accepted then s.writeResults batch.pending else s) batch.id =
        rowsOf s batch.id := by
      split <;> rfl
    have hspent : ¬∃ e, batch.pc = .failed e := by simp [hpc]
    rcases afterWrite_cases batch outcome attempt with ⟨rfl, heq⟩ | ⟨-, ⟨heq, -⟩ | ⟨heq, -⟩⟩ <;> rw [heq]
    · refine remaining_le rfl hrows (Or.imp_right fun h => absurd h hspent) fun _ key hkey => ?_
      simp only [Covers, inHand, InsertOutcome.accepted, if_true, Store.resultKeys_writeResults, List.mem_append,
        Multiset.mem_add, Multiset.mem_coe] at hkey ⊢
      rcases hkey with h | h | h
      · exact .inl (.inl h)
      · exact .inl (.inr h)
      · exact .inr (.inr h)
    · refine remaining_le rfl hrows (Or.imp_right fun h => absurd h hspent) fun _ key hkey => hkey.imp_left fun h => ?_
      split
      · rw [Store.resultKeys_writeResults]
        exact List.mem_append_left _ h
      · exact h
    · exact remaining_le rfl hrows (fun _ => .inr ⟨_, rfl⟩) fun hgoing => absurd (.inr ⟨_, rfl⟩) hgoing
  | @report counts attempt outcome hpc =>
    have hrows : rowsOf (if outcome.accepted then s.writeBatchStatus batch.id .complete counts else s) batch.id =
        rowsOf s batch.id := by
      split <;> rfl
    have hkeys : (if outcome.accepted then s.writeBatchStatus batch.id .complete counts else s).resultKeys =
        s.resultKeys := by
      split <;> rfl
    have hspent : ¬∃ e, batch.pc = .failed e := by simp [hpc]
    rcases afterReport_cases batch outcome counts attempt with ⟨-, heq⟩ | ⟨-, ⟨heq, -⟩ | ⟨heq, -⟩⟩ <;> rw [heq]
    · exact remaining_le rfl hrows (Or.imp_right fun h => absurd h hspent) fun _ key hkey =>
        hkey.imp_left fun h => hkeys ▸ h
    · exact remaining_le rfl hrows (Or.imp_right fun h => absurd h hspent) fun _ key hkey =>
        hkey.imp_left fun h => hkeys ▸ h
    · exact remaining_le rfl hrows (fun _ => .inr ⟨_, rfl⟩) fun hgoing => absurd (.inr ⟨_, rfl⟩) hgoing

-- ---------------------------------------------------------------------------
-- What the steps to come weigh
-- ---------------------------------------------------------------------------

def pageSteps (cfg : ServiceConfig) : Nat := 5 * (Pool.rowRank cfg.executor * cfg.batchPageSize + 12) + 2

/-- An attempt to insert may fail, and the last one ends the run. -/
def pcSteps (batch : Batch) : Nat :=
  match batch.pc with
  | .consuming => if batch.pending = [] then 6 else 10
  | .writing attempt => 7 + (resultWriteMaxAttempts - attempt)
  | .fetching => 5
  | .counting => 4
  | .reporting _ attempt => 1 + (batchStatusWriteMaxAttempts - attempt)
  | .returned | .failed _ => 0

/-- A bound on the steps to come: each row that may still be fetched pays for one page. -/
noncomputable def stepsLeft (cfg : ServiceConfig) (s : Store) (batch : Batch) : Nat :=
  pageSteps cfg * remaining s batch + 5 * batch.pool.rank cfg.executor + pcSteps batch

/-- A bound on the calls to come. -/
noncomputable def callsLeft (cfg : ServiceConfig) (s : Store) (batch : Batch) : Nat :=
  cfg.executor.callsPerRow * remaining s batch + batch.pool.calls cfg.executor

def callCost : BatchAction → Nat
  | .pool (.thread _ a) => FutureState.callCost a
  | _ => 0

theorem stepsLeft_of_pool (hremaining : remaining s' batch' ≤ remaining s batch)
    (hpool : batch'.pool.rank cfg.executor < batch.pool.rank cfg.executor) (hpc : pcSteps batch' ≤ pcSteps batch + 4) :
    stepsLeft cfg s' batch' < stepsLeft cfg s batch := by
  have hpages := Nat.mul_le_mul_left (pageSteps cfg) hremaining
  simp only [stepsLeft]
  omega

theorem stepsLeft_of_pc (hremaining : remaining s' batch' ≤ remaining s batch) (hpool : batch'.pool = batch.pool)
    (hpc : pcSteps batch' < pcSteps batch) : stepsLeft cfg s' batch' < stepsLeft cfg s batch := by
  have hpages := Nat.mul_le_mul_left (pageSteps cfg) hremaining
  simp only [stepsLeft, hpool]
  omega

theorem stepsLeft_page (hs : Sane cfg batch) (hpc : batch.pc = .fetching)
    (hne : s.getBatchRows cfg.batchPageSize batch.id ≠ []) :
    stepsLeft cfg s { batch with
      pc := .consuming
      pool := Pool.start (s.getBatchRows cfg.batchPageSize batch.id)
      pending := [] } < stepsLeft cfg s batch := by
  have hpage := remaining_page (s := s) hs hpc
  have hpos : 0 < (s.getBatchRows cfg.batchPageSize batch.id).length := List.length_pos_iff.mpr hne
  have hlength : (s.getBatchRows cfg.batchPageSize batch.id).length ≤ cfg.batchPageSize := List.length_take_le _ _
  have hrows := Nat.mul_le_mul_left (Pool.rowRank cfg.executor) hlength
  have hless : remaining s ⟨batch.id, .consuming, Pool.start (s.getBatchRows cfg.batchPageSize batch.id), []⟩ + 1 ≤
      remaining s batch := by
    rw [Nat.add_comm]
    exact (Nat.add_le_add_right hpos _).trans hpage
  have hpages := Nat.mul_le_mul_left (pageSteps cfg) hless
  rw [Nat.mul_add_one] at hpages
  have hweight : pageSteps cfg = 5 * (Pool.rowRank cfg.executor * cfg.batchPageSize + 12) + 2 := rfl
  simp only [stepsLeft, Pool.rank_start, pcSteps, hpc, if_true]
  omega

theorem stepsLeft_step (hs : Sane cfg batch) (h : Step cfg s batch a s' batch') :
    stepsLeft cfg s' batch' < stepsLeft cfg s batch := by
  obtain ⟨⟨inputs, hw⟩, -⟩ := hs.ok
  have hremaining (hpage : a ≠ .fetch) := remaining_step hs hpage h
  cases h with
  | thread hp => exact stepsLeft_of_pool (hremaining (by simp)) (Pool.rank_thread hp) (Nat.le_add_right _ _)
  | silent hpc hp =>
    exact stepsLeft_of_pool (hremaining (by simp)) (Pool.rank_main hw (Pool.mainStep_inv hp)) (Nat.le_add_right _ _)
  | @receive a p result hpc hp =>
    refine stepsLeft_of_pool (hremaining (by simp)) (Pool.rank_main hw (Pool.mainStep_inv hp)) ?_
    have hold : 6 ≤ pcSteps batch := by
      simp only [pcSteps, hpc]
      split <;> decide
    have hnew : pcSteps ({ batch with pool := p }.receive result) ≤ 10 := by
      unfold receive
      by_cases hfull : resultWriteBatchSize ≤ batch.pending.length + 1 <;> simp [pcSteps, hfull, resultWriteMaxAttempts]
    omega
  | empty hpc =>
    refine stepsLeft_of_pc (remaining_le rfl rfl ?_ fun _ key hkey => hkey) rfl (by simp [pcSteps, hpc])
    refine Or.imp_right ?_
    rintro ⟨e, he⟩
    rw [hpc] at he
    cases he
  | page hpc hne => exact stepsLeft_page hs hpc hne
  | turn hpc _ hnil => exact stepsLeft_of_pc (hremaining (by simp)) rfl (by simp [pcSteps, hpc, hnil])
  | flush hpc _ hne =>
    exact stepsLeft_of_pc (hremaining (by simp)) rfl (by simp [pcSteps, hpc, hne, resultWriteMaxAttempts])
  | raised hpc => exact stepsLeft_of_pc (hremaining (by simp)) rfl (by simp only [pcSteps, hpc]; split <;> decide)
  | count hpc =>
    exact stepsLeft_of_pc (hremaining (by simp)) rfl (by simp [pcSteps, hpc, batchStatusWriteMaxAttempts])
  | readError hpc =>
    refine stepsLeft_of_pc (hremaining (by simp)) rfl ?_
    rcases hpc with hpc | hpc <;> simp [pcSteps, hpc]
  | @write attempt outcome hpc =>
    refine stepsLeft_of_pc (hremaining (by simp)) (pool_afterWrite ..) ?_
    rcases afterWrite_cases batch outcome attempt with ⟨-, heq⟩ | ⟨-, ⟨heq, hmore⟩ | ⟨heq, -⟩⟩ <;> rw [heq] <;>
      simp only [pcSteps, hpc, if_true] <;> omega
  | @report counts attempt outcome hpc =>
    refine stepsLeft_of_pc (hremaining (by simp)) (pool_afterReport ..) ?_
    rcases afterReport_cases batch outcome counts attempt with ⟨-, heq⟩ | ⟨-, ⟨heq, hmore⟩ | ⟨heq, -⟩⟩ <;> rw [heq] <;>
      simp only [pcSteps, hpc] <;> omega

theorem callsLeft_of_pool (hremaining : remaining s' batch' ≤ remaining s batch)
    (hpool : cost + batch'.pool.calls cfg.executor ≤ batch.pool.calls cfg.executor) :
    cost + callsLeft cfg s' batch' ≤ callsLeft cfg s batch := by
  have hrows := Nat.mul_le_mul_left cfg.executor.callsPerRow hremaining
  simp only [callsLeft]
  omega

theorem callsLeft_step (hs : Sane cfg batch) (h : Step cfg s batch a s' batch') :
    callCost a + callsLeft cfg s' batch' ≤ callsLeft cfg s batch := by
  have hremaining (hpage : a ≠ .fetch) := remaining_step hs hpage h
  have same (hpage : a ≠ .fetch) (hpool : batch'.pool = batch.pool) (hcost : callCost a = 0) :
      callCost a + callsLeft cfg s' batch' ≤ callsLeft cfg s batch :=
    callsLeft_of_pool (hremaining hpage) (by rw [hpool, hcost, Nat.zero_add])
  cases h with
  | thread hp => exact callsLeft_of_pool (hremaining (by simp)) (Pool.calls_thread hp)
  | silent hpc hp | receive hpc hp =>
    refine callsLeft_of_pool (hremaining (by simp)) ?_
    rw [show callCost (.pool (.main _)) = 0 from rfl, Nat.zero_add]
    exact Pool.calls_main (Pool.mainStep_inv hp)
  | empty hpc =>
    refine callsLeft_of_pool (remaining_le rfl rfl ?_ fun _ key hkey => hkey) (by simp [callCost])
    refine Or.imp_right ?_
    rintro ⟨e, he⟩
    rw [hpc] at he
    cases he
  | page hpc =>
    have hpage := Nat.mul_le_mul_left cfg.executor.callsPerRow (remaining_page (s := s) hs hpc)
    rw [Nat.mul_add] at hpage
    simp only [callsLeft, callCost, Pool.calls_start]
    omega
  | turn | flush | raised | count | readError => exact same (by simp) rfl rfl
  | write => exact same (by simp) (pool_afterWrite ..) rfl
  | report => exact same (by simp) (pool_afterReport ..) rfl

-- ---------------------------------------------------------------------------
-- Some step can be taken
-- ---------------------------------------------------------------------------

theorem Sane.progress (hs : Sane cfg batch) (hreturned : batch.pc ≠ .returned) (hfailed : ∀ e, batch.pc ≠ .failed e) :
    ∃ a s' batch', Succeeds a ∧ step cfg s batch a = some (s', batch') := by
  have enabled (a : BatchAction) (ha : Succeeds a) (h : ∃ t, step cfg s batch a = some t) :
      ∃ a s' batch', Succeeds a ∧ step cfg s batch a = some (s', batch') := by
    obtain ⟨⟨s', batch'⟩, h⟩ := h
    exact ⟨a, s', batch', ha, h⟩
  cases hpc : batch.pc with
  | fetching =>
    refine enabled .fetch trivial ?_
    simp only [step, if_pos hpc]
    split <;> exact ⟨_, rfl⟩
  | consuming =>
    by_cases hexhausted : batch.pool.pc = .exhausted
    · exact enabled .next trivial ⟨_, by simp only [step, hpc, hexhausted]; rfl⟩
    · by_cases hraised : ∃ e, batch.pool.pc = .raised e
      · obtain ⟨e, he⟩ := hraised
        exact enabled .next trivial ⟨_, by simp only [step, hpc, he]; rfl⟩
      · obtain ⟨inputs, hw⟩ := hs.ok.wf
        obtain ⟨a, p, out, hp⟩ := Pool.progress hw hs.ready hexhausted (not_exists.mp hraised)
        refine enabled (.pool a) trivial ?_
        cases a with
        | thread i a =>
          obtain ⟨q, hq, -⟩ := Option.map_eq_some_iff.mp hp
          exact ⟨_, by simp only [step, hq]; rfl⟩
        | main a =>
          have hp : batch.pool.mainStep cfg.executor a = some (p, out) := hp
          exact ⟨_, by simp only [step, hpc, if_true, hp]; rfl⟩
  | writing attempt => exact enabled (.insert .ok) rfl ⟨_, by simp only [step, hpc]; rfl⟩
  | counting => exact enabled .count trivial ⟨_, by simp only [step, if_pos hpc]; rfl⟩
  | reporting counts attempt => exact enabled (.insert .ok) rfl ⟨_, by simp only [step, hpc]; rfl⟩
  | returned => exact absurd hpc hreturned
  | failed e => exact absurd hpc (hfailed e)

-- ---------------------------------------------------------------------------
-- Amid other workers
-- ---------------------------------------------------------------------------

/-- What the others may do to the tables: the batch keeps its rows and no result is taken back. -/
def Others (s : Store) (batch : Batch) (s' : Store) : Prop :=
  rowsOf s' batch.id = rowsOf s batch.id ∧ ∀ key ∈ s.resultKeys, key ∈ s'.resultKeys

theorem Others.remaining_le (h : Others s batch s') : remaining s' batch ≤ remaining s batch :=
  Batch.remaining_le rfl h.1 (fun hspent => hspent) fun _ key hkey => hkey.imp_left (h.2 key)

theorem Others.stepsLeft_le (h : Others s batch s') : stepsLeft cfg s' batch ≤ stepsLeft cfg s batch := by
  have hpages := Nat.mul_le_mul_left (pageSteps cfg) h.remaining_le
  simp only [stepsLeft]
  omega

theorem Others.callsLeft_le (h : Others s batch s') : callsLeft cfg s' batch ≤ callsLeft cfg s batch := by
  have hrows := Nat.mul_le_mul_left cfg.executor.callsPerRow h.remaining_le
  simp only [callsLeft]
  omega

def Own (cfg : ServiceConfig) (s : Store) (batch : Batch) (a : BatchAction) (s' : Store) (batch' : Batch) : Prop :=
  step cfg s batch a = some (s', batch')

theorem remaining_start (s : Store) (b : UUID) : remaining s (start b) = (s.unprocessed b).length := by
  have hidle : (start b).Idle := ⟨rfl, rfl⟩
  have hgoing : ¬(start b).Spent := by
    rintro (hbroken | ⟨e, he⟩)
    · exact hbroken
    · cases he
  rw [remaining, if_neg hgoing, hidle.outstanding]
  rfl

theorem stepsLeft_start (cfg : ServiceConfig) (s : Store) (b : UUID) :
    stepsLeft cfg s (start b) = pageSteps cfg * (s.unprocessed b).length + 5 := by
  rw [stepsLeft, remaining_start]
  simp [start, pcSteps, Pool.rank, Pool.futuresRank, Pool.mainRank, Pool.start]

theorem callsLeft_start (cfg : ServiceConfig) (s : Store) (b : UUID) :
    callsLeft cfg s (start b) = cfg.executor.callsPerRow * (s.unprocessed b).length := by
  rw [callsLeft, remaining_start]
  simp [start, Pool.calls, Pool.futuresCalls, Pool.start]

/-- Whatever fails, whichever rows raise and whatever other workers add: a run
takes only so many steps, calls the provider at most so often for each row that
had no result when it began, and can go on until it has returned or raised. -/
theorem process_single_batch_ends (h : (amid (Own cfg) Others).Run (s₀, start b) as (s, batch)) :
    ownSteps as ≤ pageSteps cfg * (s₀.unprocessed b).length + 5 ∧
    ownCost callCost as ≤ cfg.executor.callsPerRow * (s₀.unprocessed b).length ∧
    (batch.pc = .returned ∨ (∃ e, batch.pc = .failed e) ∨ ∃ a s' batch', Own cfg s batch a s' batch') := by
  have hstart := sane_start cfg b
  obtain ⟨hsane, hsteps⟩ := amid_cost_le (I := fun _ batch => Sane cfg batch) (r := stepsLeft cfg)
    (c := fun _ => 1) h hstart (fun hs hstep => by
      have hlt := stepsLeft_step hs (step_inv hstep)
      exact ⟨sane_step hs (step_inv hstep), by omega⟩) fun hs ho => ⟨hs, ho.stepsLeft_le⟩
  obtain ⟨-, hcalls⟩ := amid_cost_le (I := fun _ batch => Sane cfg batch) (r := callsLeft cfg)
    (c := callCost) h hstart
    (fun hs hstep => ⟨sane_step hs (step_inv hstep), callsLeft_step hs (step_inv hstep)⟩)
    fun hs ho => ⟨hs, ho.callsLeft_le⟩
  refine ⟨?_, ?_, ?_⟩
  · exact (Nat.le_add_right _ _).trans (hsteps.trans_eq (stepsLeft_start cfg s₀ b))
  · exact (Nat.le_add_right _ _).trans (hcalls.trans_eq (callsLeft_start cfg s₀ b))
  · by_cases hreturned : batch.pc = .returned
    · exact .inl hreturned
    · by_cases hfailed : ∃ e, batch.pc = .failed e
      · exact .inr (.inl hfailed)
      · obtain ⟨a, s', batch', -, hstep⟩ := hsane.progress (s := s) hreturned (not_exists.mp hfailed)
        exact .inr (.inr ⟨a, s', batch', hstep⟩)

end Batch

-- The first row is written twice, another worker writes the second one, and the
-- status row cannot be written.

def firstPage : List BatchAction :=
  onePage (served (plainRow 1 1)) ++ [.insert .raisedAfter, .insert .ok, .next]

def unreported : List BatchAction :=
  [.fetch, .count, .insert .raisedBefore, .insert .raisedBefore, .insert .raisedBefore]

def interrupted : List (BatchAction ⊕ Unit) := firstPage.map .inl ++ .inr () :: unreported.map .inl

theorem process_single_batch_ends_interrupted : ∃ s batch,
    (amid (Batch.Own rowByRow) Batch.Others).Run (twoRows, .start 1) interrupted (s, batch) ∧
      batch.pc = .failed clickHouseError ∧
      ownSteps interrupted ≤ Batch.pageSteps rowByRow * 2 + 5 ∧
      ownCost Batch.callCost interrupted ≤ rowByRow.executor.callsPerRow * 2 := by
  let next (s : Store × Batch) (a : BatchAction ⊕ Unit) : Option (Store × Batch) :=
    match a with
    | .inl a => Batch.step rowByRow s.1 s.2 a
    | .inr _ => some (s.1.writeResults [abortedResult (plainRow 1 2)], s.2)
  have hexec : (LTS.exec next (twoRows, .start 1) interrupted).map
      (fun s => decide (s.2.pc = .failed clickHouseError)) = some true := by decide +kernel
  obtain ⟨⟨s, batch⟩, hend, hpc⟩ := Option.map_eq_some_iff.mp hexec
  have hnext : (LTS.ofFn (fun _ => True) next).Run (twoRows, .start 1) interrupted (s, batch) := LTS.run_of_exec hend
  have hrun : (amid (Batch.Own rowByRow) Batch.Others).Run (twoRows, .start 1) interrupted (s, batch) := by
    refine hnext.mono fun {s a t} hs => ?_
    cases a with
    | inl a => exact hs
    | inr _ =>
      obtain rfl := Option.some.inj hs
      refine ⟨⟨rfl, fun key hkey => ?_⟩, rfl⟩
      rw [Store.resultKeys_writeResults]
      exact List.mem_append_left _ hkey
  obtain ⟨hsteps, hcalls, -⟩ := Batch.process_single_batch_ends hrun
  have hrows : (twoRows.unprocessed 1).length = 2 := by decide +kernel
  rw [hrows] at hsteps hcalls
  exact ⟨s, batch, hrun, of_decide_eq_true hpc, hsteps, hcalls⟩

end LlmWorker
