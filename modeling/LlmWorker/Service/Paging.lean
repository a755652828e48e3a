import LlmWorker.Executor.Progress
import LlmWorker.Service.Abort
import LlmWorker.Service.Ledger
import LlmWorker.Service.Pages

/-!
# The paging loop

A run of `process_single_batch` whose reads and inserts succeed. As long as no
row makes the iteration raise, it makes the fetches of the pages on their own,
ends, and has written one status row.
-/

namespace LlmWorker

open Python Transition

-- ---------------------------------------------------------------------------
-- The run
-- ---------------------------------------------------------------------------

namespace Batch

open Paging

def Succeeds : BatchAction → Prop
  | .readError => False
  | .insert outcome => outcome = .ok
  | _ => True

instance : DecidablePred Succeeds := fun a => by
  cases a <;> simp only [Succeeds] <;> infer_instance

def observeFetch (cfg : ServiceConfig) (s : Store × Batch) : BatchAction → List Fetch
  | .fetch => [⟨(s.1.unprocessed s.2.id).length, s.1.getBatchRows cfg.batchPageSize s.2.id⟩]
  | _ => []

def paging (cfg : ServiceConfig) (b : UUID) (s₀ : Store) : LTS ((Store × Batch) × List Fetch) BatchAction :=
  ((processSingleBatch cfg b s₀).restrict fun _ a => Succeeds a).observed (observeFetch cfg)

/-- No row whose check finds the event clear nests too deep. -/
def ShallowStep (cfg : ServiceConfig) (s : (Store × Batch) × List Fetch) (a : BatchAction) : Prop :=
  ∀ i f, a = .pool (.thread i (.check false)) → s.1.2.pool.futures[i]? = some f →
    ¬cfg.executor.NestsTooDeep f.row

def Idle (batch : Batch) : Prop := batch.pool.pc = .exhausted ∧ batch.pending = []

/-- How far a run has got that follows the pages on their own. -/
inductive Phase (page : Nat) (rows : List LLMInput) (batch : Batch) (history : List Fetch) : Prop
  | paging (hpc : batch.pc = .fetching ∧ batch.Idle ∨ batch.pc = .consuming ∨
        ∃ attempt, batch.pc = .writing attempt)
      (hfull : ∀ f ∈ history, f.page ≠ [])
  | ended (hpc : batch.pc = .counting ∨ (∃ counts attempt, batch.pc = .reporting counts attempt) ∨
        batch.pc = .returned)
      (hidle : batch.Idle) (hhistory : history = fetches page rows (n + 1))
      (hfull : ∀ f ∈ fetches page rows n, f.page ≠ []) (hleft : left rows (fetches page rows n) = [])

/-- The invariant of a run from the tables `s₀`. -/
structure Follows (cfg : ServiceConfig) (b : UUID) (s₀ : Store) (s : Store) (batch : Batch)
    (history : List Fetch) : Prop where
  id : batch.id = b
  ok : batch.Ok cfg
  ready : batch.pool.Ready
  calm : batch.pool.Calm
  inputs : s.inputs = s₀.inputs
  account : ∃ written, s.results = s₀.results ++ written ∧
    (↑(fetchedKeys history) : Multiset Key) =
      ↑(written.map LLMResult.key) + ↑(batch.pending.map LLMResult.key) + batch.owed
  ideal : history = fetches cfg.batchPageSize (s₀.unprocessed b) history.length
  phase : Phase cfg.batchPageSize (s₀.unprocessed b) batch history
  status : if batch.pc = .returned then ∃ counts, s.batches = s₀.batches ++ [⟨b, .complete, counts⟩]
    else s.batches = s₀.batches

theorem follows_start (cfg : ServiceConfig) (b : UUID) (s₀ : Store) : Follows cfg b s₀ s₀ (start b) [] where
  id := rfl
  ok := ok_start cfg b
  ready := Pool.ready_exhausted
  calm := Pool.calm_exhausted
  inputs := rfl
  account := ⟨[], by simp, by simp [fetchedKeys, start, owed, Pool.owed, Pool.owing, Pool.held]⟩
  ideal := rfl
  phase := .paging (.inl ⟨rfl, rfl, rfl⟩) (by simp)
  status := by simp [start]

variable {cfg : ServiceConfig} {b : UUID} {s₀ s : Store} {batch : Batch} {history : List Fetch}

theorem Idle.owed (h : batch.Idle) : batch.owed = 0 := owed_exhausted h.1

theorem Follows.unprocessed (h : Follows cfg b s₀ s batch history) (hidle : batch.Idle) :
    s.unprocessed b = left (s₀.unprocessed b) history := by
  obtain ⟨written, hresults, haccount⟩ := h.account
  rw [hidle.2, hidle.owed, List.map_nil, Multiset.coe_nil, add_zero, add_zero, Multiset.coe_eq_coe] at haccount
  have hkeys (key : Key) : key ∈ s.resultKeys ↔ key ∈ s₀.resultKeys ∨ key ∈ fetchedKeys history := by
    rw [Store.resultKeys, hresults, List.map_append, List.mem_append, haccount.mem_iff]
    rfl
  rw [Store.unprocessed, Store.unprocessed, h.inputs, left, List.filter_filter]
  refine List.filter_congr fun row _ => ?_
  by_cases hb : row.batchId = b
  · subst hb
    have hkey := hkeys row.key
    simp only [true_and, Store.mem_resultRowIds, ← Bool.decide_and]
    refine decide_eq_decide.mpr ?_
    show row.key ∉ s.resultKeys ↔ _
    rw [hkey, not_or, and_comm]
    rfl
  · simp [hb]

/-- Between two pages the next fetch is that of the pages on their own. -/
theorem Follows.observeFetch (h : Follows cfg b s₀ s batch history) (hidle : batch.Idle) :
    (⟨(s.unprocessed b).length, s.getBatchRows cfg.batchPageSize b⟩ : Fetch) =
      nextFetch cfg.batchPageSize (s₀.unprocessed b) history := by
  rw [Store.getBatchRows, h.unprocessed hidle]
  rfl

theorem Follows.ideal_snoc (h : Follows cfg b s₀ s batch history) :
    history ++ [nextFetch cfg.batchPageSize (s₀.unprocessed b) history] =
      fetches cfg.batchPageSize (s₀.unprocessed b) (history.length + 1) := by
  rw [fetches, ← h.ideal]

theorem Phase.full_of_fetching (h : Phase page rows batch history) (hpc : batch.pc = .fetching) :
    batch.Idle ∧ ∀ f ∈ history, f.page ≠ [] := by
  cases h with
  | paging h hfull =>
    rcases h with ⟨-, hidle⟩ | hother | ⟨attempt, hother⟩
    · exact ⟨hidle, hfull⟩
    · rw [hpc] at hother; cases hother
    · rw [hpc] at hother; cases hother
  | ended h => rcases h with hother | ⟨counts, attempt, hother⟩ | hother <;> rw [hpc] at hother <;> cases hother

theorem Phase.full_of_page (h : Phase page rows batch history)
    (hpc : batch.pc = .consuming ∨ ∃ attempt, batch.pc = .writing attempt) : ∀ f ∈ history, f.page ≠ [] := by
  cases h with
  | paging h hfull => exact hfull
  | ended h =>
    rcases hpc with hpc | ⟨attempt, hpc⟩ <;>
      rcases h with hother | ⟨counts, attempt, hother⟩ | hother <;> rw [hpc] at hother <;> cases hother

theorem Follows.page (h : Follows cfg b s₀ s batch history) (hpc : batch.pc = .fetching)
    (hne : s.getBatchRows cfg.batchPageSize batch.id ≠ []) :
    Follows cfg b s₀ s
      { batch with pc := .consuming, pool := Pool.start (s.getBatchRows cfg.batchPageSize batch.id), pending := [] }
      (history ++ [⟨(s.unprocessed batch.id).length, s.getBatchRows cfg.batchPageSize batch.id⟩]) := by
  obtain ⟨hidle, hfull⟩ := h.phase.full_of_fetching hpc
  have hfetch := h.observeFetch hidle
  rw [h.id] at hne ⊢
  have hpage := congrArg Fetch.page hfetch
  refine ⟨rfl, ⟨⟨_, Pool.wf_start _ _⟩, by simp⟩, Pool.ready_start _, Pool.calm_start _, h.inputs, ?_, ?_, ?_, ?_⟩
  · obtain ⟨written, hresults, haccount⟩ := h.account
    rw [hidle.2, hidle.owed] at haccount
    refine ⟨written, hresults, ?_⟩
    rw [fetchedKeys_snoc, ← Multiset.coe_add, haccount]
    simp [owed, Pool.owed, Pool.owing, Pool.held, Pool.start]
  · rw [hfetch, h.ideal_snoc, length_fetches]
  · refine .paging (.inr (.inl rfl)) fun f hf => ?_
    rcases List.mem_append.mp hf with hold | hnew
    · exact hfull f hold
    · obtain rfl : f = _ := by simpa using hnew
      exact hne
  · have hstatus := h.status
    simpa [hpc] using hstatus

theorem Follows.empty (h : Follows cfg b s₀ s batch history) (hpc : batch.pc = .fetching)
    (hnil : s.getBatchRows cfg.batchPageSize batch.id = []) :
    Follows cfg b s₀ s { batch with pc := .counting }
      (history ++ [⟨(s.unprocessed batch.id).length, s.getBatchRows cfg.batchPageSize batch.id⟩]) := by
  obtain ⟨hidle, hfull⟩ := h.phase.full_of_fetching hpc
  have hfetch := h.observeFetch hidle
  rw [h.id] at hnil ⊢
  have hleft : left (s₀.unprocessed b) history = [] := by
    rw [← nextFetch_page_eq_nil cfg.batchPageSize_pos, ← hfetch, hnil]
  refine ⟨rfl, ⟨h.ok.wf, by simp⟩, h.ready, h.calm, h.inputs, ?_, ?_, ?_, ?_⟩
  · obtain ⟨written, hresults, haccount⟩ := h.account
    refine ⟨written, hresults, ?_⟩
    rw [fetchedKeys_snoc, hnil, List.map_nil, List.append_nil, haccount]
    rfl
  · rw [hfetch, h.ideal_snoc, length_fetches]
  · rw [hfetch, h.ideal_snoc]
    exact .ended (.inl rfl) hidle rfl (h.ideal ▸ hfull) (h.ideal ▸ hleft)
  · have hstatus := h.status
    simpa [hpc] using hstatus

theorem Follows.consume (h : Follows cfg b s₀ s batch history) (hok : Ok cfg batch')
    (hpc : batch.pc = .consuming) (hpc' : batch'.pc = .consuming ∨ ∃ attempt, batch'.pc = .writing attempt)
    (hid : batch'.id = batch.id) (hready : batch'.pool.Ready) (hcalm : batch'.pool.Calm)
    (haccount : (↑(batch'.pending.map LLMResult.key) : Multiset Key) + batch'.owed =
      ↑(batch.pending.map LLMResult.key) + batch.owed) : Follows cfg b s₀ s batch' history := by
  refine ⟨hid.trans h.id, hok, hready, hcalm, h.inputs, ?_, h.ideal, ?_, ?_⟩
  · obtain ⟨written, hresults, hfetched⟩ := h.account
    exact ⟨written, hresults, by rw [hfetched, add_assoc, add_assoc, haccount]⟩
  · exact .paging (.inr hpc') (h.phase.full_of_page (.inl hpc))
  · have hstatus := h.status
    rcases hpc' with hpc' | ⟨attempt, hpc'⟩ <;> simpa [hpc, hpc'] using hstatus

theorem Follows.thread (h : Follows cfg b s₀ s batch history) (hok : Ok cfg { batch with pool := p })
    (hcalm : p.Calm) (hp : batch.pool.threadStep cfg.executor i a = some p) :
    Follows cfg b s₀ s { batch with pool := p } history := by
  have howed : ({ batch with pool := p } : Batch).owed = batch.owed := by
    simp only [owed, Pool.owed_thread hp]
  have hidle (hb : batch.Idle) : ({ batch with pool := p } : Batch).Idle := by
    obtain ⟨f, st, -, -, -, rfl⟩ := Pool.threadStep_inv hp
    exact hb
  refine ⟨h.id, hok, Pool.ready_thread h.ready hp, hcalm, h.inputs, ?_, h.ideal, ?_, h.status⟩
  · rw [howed]
    exact h.account
  · cases h.phase with
    | paging hpc hfull => exact .paging (hpc.imp_left fun hf => ⟨hf.1, hidle hf.2⟩) hfull
    | ended hpc hb hhistory hfull hleft => exact .ended hpc (hidle hb) hhistory hfull hleft

theorem Follows.write (h : Follows cfg b s₀ s batch history) (hok : Ok cfg { batch with pc := .consuming, pending := [] })
    (hpc : batch.pc = .writing attempt) :
    Follows cfg b s₀ (s.writeResults batch.pending) { batch with pc := .consuming, pending := [] } history := by
  refine ⟨h.id, hok, h.ready, h.calm, h.inputs, ?_, h.ideal, ?_, ?_⟩
  · obtain ⟨written, hresults, haccount⟩ := h.account
    refine ⟨written ++ batch.pending, by simp [Store.writeResults, hresults], ?_⟩
    rw [haccount, List.map_append, ← Multiset.coe_add, List.map_nil, Multiset.coe_nil, add_zero]
    rfl
  · exact .paging (.inr (.inl rfl)) (h.phase.full_of_page (.inr ⟨attempt, hpc⟩))
  · have hstatus := h.status
    simpa [hpc, Store.writeResults] using hstatus

theorem Phase.over_goto (h : Phase page rows batch history)
    (hpc : batch.pc = .counting ∨ ∃ counts attempt, batch.pc = .reporting counts attempt)
    (hpc' : pc' = .counting ∨ (∃ counts attempt, pc' = .reporting counts attempt) ∨ pc' = .returned) :
    Phase page rows { batch with pc := pc' } history := by
  cases h with
  | paging h =>
    rcases hpc with hpc | ⟨counts, n, hpc⟩ <;>
      rcases h with ⟨hother, -⟩ | hother | ⟨attempt, hother⟩ <;> rw [hpc] at hother <;> cases hother
  | ended h hidle hhistory hfull hleft => exact .ended hpc' hidle hhistory hfull hleft

theorem follows_step (hpy : cfg.executor.py.LoadsRaises) (h : Follows cfg b s₀ s batch history)
    (hsucceeds : Succeeds a) (hshallow : ShallowStep cfg ((s, batch), history) a)
    (hstep : Step cfg s batch a s' batch') :
    Follows cfg b s₀ s' batch' (history ++ Batch.observeFetch cfg (s, batch) a) := by
  have hok := ok_step h.ok hstep
  cases hstep with
  | @thread i a p hp =>
    rw [show Batch.observeFetch cfg (s, batch) (.pool (.thread i a)) = [] from rfl, List.append_nil]
    have hcalm : p.Calm := Pool.calm_thread hpy h.calm hp fun ha f hf => hshallow i f (by rw [ha]) hf
    exact h.thread hok hcalm hp
  | @silent a p hpc hp =>
    rw [show Batch.observeFetch cfg (s, batch) (.pool (.main a)) = [] from rfl, List.append_nil]
    have hmain := Pool.mainStep_inv hp
    have hcalm := Pool.calm_main h.calm hmain
    refine h.consume hok hpc (.inl hpc) rfl (Pool.ready_main h.ready hmain) hcalm ?_
    obtain ⟨inputs, hw⟩ := h.ok.wf
    rcases Pool.owed_main hw hmain with ⟨hbroken, -⟩ | ⟨howed, -⟩ | ⟨row, result, -, hout, -⟩
    · exact absurd hbroken hcalm.1
    · simp only [owed, howed]
    · cases hout
  | @receive a p result hpc hp =>
    rw [show Batch.observeFetch cfg (s, batch) (.pool (.main a)) = [] from rfl, List.append_nil]
    have hmain := Pool.mainStep_inv hp
    have hcalm := Pool.calm_main h.calm hmain
    refine h.consume hok hpc ?_ rfl (Pool.ready_main h.ready hmain) hcalm ?_
    · unfold receive
      split
      · exact .inr ⟨1, rfl⟩
      · exact .inl rfl
    · obtain ⟨inputs, hw⟩ := h.ok.wf
      rcases Pool.owed_main hw hmain with ⟨hbroken, -⟩ | ⟨-, hout⟩ | ⟨row, r, howed, hout, hkey⟩
      · exact absurd hbroken hcalm.1
      · cases hout
      · obtain rfl : result = r := by simpa using hout
        have howed' : batch.owed = {row.key} + p.owed.map LLMInput.key := by
          rw [owed, howed, Multiset.map_cons, Multiset.singleton_add]
        rw [howed', ← add_assoc]
        simp only [owed, receive, List.map_append, ← Multiset.coe_add, List.map_cons, List.map_nil,
          Multiset.coe_singleton, hkey]
  | empty hpc hnil => exact h.empty hpc hnil
  | page hpc hne => exact h.page hpc hne
  | turn hpc hpool hnil =>
    rw [show Batch.observeFetch cfg (s, batch) .next = [] from rfl, List.append_nil]
    refine ⟨h.id, hok, h.ready, h.calm, h.inputs, h.account, h.ideal, ?_, ?_⟩
    · exact .paging (.inl ⟨rfl, hpool, hnil⟩) (h.phase.full_of_page (.inl hpc))
    · have hstatus := h.status
      simpa [hpc] using hstatus
  | flush hpc hpool hne =>
    rw [show Batch.observeFetch cfg (s, batch) .next = [] from rfl, List.append_nil]
    exact h.consume hok hpc (.inr ⟨1, rfl⟩) rfl h.ready h.calm rfl
  | raised hpc hpool => exact absurd (by simp [Pool.Broken, hpool]) h.calm.1
  | @write attempt outcome hpc =>
    obtain rfl : outcome = .ok := hsucceeds
    rw [show Batch.observeFetch cfg (s, batch) (.insert .ok) = [] from rfl, List.append_nil]
    exact h.write hok hpc
  | @report counts attempt outcome hpc =>
    obtain rfl : outcome = .ok := hsucceeds
    rw [show Batch.observeFetch cfg (s, batch) (.insert .ok) = [] from rfl, List.append_nil]
    refine ⟨h.id, hok, h.ready, h.calm, h.inputs, h.account, h.ideal, ?_, ?_⟩
    · exact h.phase.over_goto (.inr ⟨counts, attempt, hpc⟩) (.inr (.inr rfl))
    · have hstatus := h.status
      rw [hpc, if_neg BatchPc.noConfusion] at hstatus
      exact ⟨counts, by rw [← hstatus, ← h.id]; rfl⟩
  | count hpc =>
    rw [show Batch.observeFetch cfg (s, batch) .count = [] from rfl, List.append_nil]
    refine ⟨h.id, hok, h.ready, h.calm, h.inputs, h.account, h.ideal, ?_, ?_⟩
    · exact h.phase.over_goto (.inl hpc) (.inr (.inl ⟨_, 1, rfl⟩))
    · have hstatus := h.status
      simpa [hpc] using hstatus
  | readError hpc => exact hsucceeds.elim

-- ---------------------------------------------------------------------------
-- The rank of a run
-- ---------------------------------------------------------------------------

/-- What a page weighs before it is fetched. -/
def pageRank (cfg : ServiceConfig) : Nat := 3 * (Pool.rowRank cfg.executor * cfg.batchPageSize + 12) + 2

def pcRank (batch : Batch) : Nat :=
  match batch.pc with
  | .consuming => if batch.pending = [] then 5 else 7
  | .writing _ => 6
  | .fetching => 4
  | .counting => 2
  | .reporting .. => 1
  | .returned | .failed _ => 0

/-- A bound on the steps to come: each row without a result pays for one page. -/
def rank (cfg : ServiceConfig) (rows : List LLMInput) (s : (Store × Batch) × List Fetch) : Nat :=
  pageRank cfg * (left rows s.2).length + 3 * s.1.2.pool.rank cfg.executor + s.1.2.pcRank

theorem rank_start (cfg : ServiceConfig) (b : UUID) (s₀ : Store) (rows : List LLMInput) :
    rank cfg rows ((s₀, start b), []) = pageRank cfg * rows.length + 4 := by
  simp [rank, left_nil, start, pcRank, Pool.rank, Pool.futuresRank, Pool.mainRank, Pool.start]

theorem rank_pool_lt (h : p.rank cfg.executor < batch.pool.rank cfg.executor)
    (hpc : pcRank batch' ≤ pcRank batch + 2) (hp : batch'.pool = p) :
    rank cfg rows ((s', batch'), history) < rank cfg rows ((s, batch), history) := by
  subst hp
  simp only [rank]
  omega

theorem rank_pc_lt (h : pcRank batch' < pcRank batch) (hp : batch'.pool = batch.pool) :
    rank cfg rows ((s', batch'), history) < rank cfg rows ((s, batch), history) := by
  simp only [rank, hp]
  omega

theorem rank_page (h : Follows cfg b s₀ s batch history) (hpc : batch.pc = .fetching)
    (hne : s.getBatchRows cfg.batchPageSize batch.id ≠ []) :
    rank cfg (s₀.unprocessed b) ((s,
      { batch with pc := .consuming, pool := Pool.start (s.getBatchRows cfg.batchPageSize batch.id), pending := [] }),
      history ++ [⟨(s.unprocessed batch.id).length, s.getBatchRows cfg.batchPageSize batch.id⟩]) <
    rank cfg (s₀.unprocessed b) ((s, batch), history) := by
  have hfetch := h.observeFetch (h.phase.full_of_fetching hpc).1
  rw [h.id] at hne ⊢
  have hlength : (s.getBatchRows cfg.batchPageSize b).length ≤ cfg.batchPageSize := List.length_take_le _ _
  have hpage := congrArg Fetch.page hfetch
  have hlt : (left (s₀.unprocessed b) (history ++ [nextFetch cfg.batchPageSize (s₀.unprocessed b) history])).length + 1
      ≤ (left (s₀.unprocessed b) history).length :=
    left_next_lt fun hnil => hne (hpage.trans hnil)
  have hrows : Pool.rowRank cfg.executor * (s.getBatchRows cfg.batchPageSize b).length ≤
      Pool.rowRank cfg.executor * cfg.batchPageSize := Nat.mul_le_mul_left _ hlength
  have hpages := Nat.mul_le_mul_left (pageRank cfg) hlt
  rw [Nat.mul_add_one] at hpages
  simp only [rank, hfetch, Pool.rank_start, pcRank, hpc, if_true]
  have hweight : pageRank cfg = 3 * (Pool.rowRank cfg.executor * cfg.batchPageSize + 12) + 2 := rfl
  omega

theorem rank_step (h : Follows cfg b s₀ s batch history) (hsucceeds : Succeeds a)
    (hstep : Step cfg s batch a s' batch') :
    rank cfg (s₀.unprocessed b) ((s', batch'), history ++ Batch.observeFetch cfg (s, batch) a) <
      rank cfg (s₀.unprocessed b) ((s, batch), history) := by
  obtain ⟨inputs, hw⟩ := h.ok.wf
  cases hstep with
  | @thread i a p hp =>
    rw [show Batch.observeFetch cfg (s, batch) (.pool (.thread i a)) = [] from rfl, List.append_nil]
    exact rank_pool_lt (Pool.rank_thread hp) (Nat.le_add_right _ _) rfl
  | @silent a p hpc hp =>
    rw [show Batch.observeFetch cfg (s, batch) (.pool (.main a)) = [] from rfl, List.append_nil]
    exact rank_pool_lt (Pool.rank_main hw (Pool.mainStep_inv hp)) (Nat.le_add_right _ _) rfl
  | @receive a p result hpc hp =>
    rw [show Batch.observeFetch cfg (s, batch) (.pool (.main a)) = [] from rfl, List.append_nil]
    refine rank_pool_lt (Pool.rank_main hw (Pool.mainStep_inv hp)) ?_ rfl
    have hold : 5 ≤ pcRank batch := by
      simp only [pcRank, hpc]
      split <;> decide
    have hnew : pcRank ({ batch with pool := p }.receive result) ≤ 7 := by
      simp only [pcRank, receive]
      split <;> simp_all
    omega
  | empty hpc hnil =>
    rw [show Batch.observeFetch cfg (s, batch) .fetch = [⟨_, s.getBatchRows cfg.batchPageSize batch.id⟩] from rfl, hnil]
    have hleft : left (s₀.unprocessed b) (history ++ [⟨(s.unprocessed batch.id).length, []⟩]) =
        left (s₀.unprocessed b) history := by
      simp [left_snoc]
    simp only [rank, hleft, pcRank, hpc]
    omega
  | page hpc hne => exact rank_page h hpc hne
  | turn hpc hpool hnil =>
    rw [show Batch.observeFetch cfg (s, batch) .next = [] from rfl, List.append_nil]
    exact rank_pc_lt (by simp [pcRank, hpc, hnil]) rfl
  | flush hpc hpool hne =>
    rw [show Batch.observeFetch cfg (s, batch) .next = [] from rfl, List.append_nil]
    exact rank_pc_lt (by simp [pcRank, hpc, hne]) rfl
  | raised hpc hpool => exact absurd (by simp [Pool.Broken, hpool]) h.calm.1
  | @write attempt outcome hpc =>
    obtain rfl : outcome = .ok := hsucceeds
    rw [show Batch.observeFetch cfg (s, batch) (.insert .ok) = [] from rfl, List.append_nil]
    exact rank_pc_lt (by simp [pcRank, hpc, afterWrite, afterInsert]) (pool_afterWrite ..)
  | @report counts attempt outcome hpc =>
    obtain rfl : outcome = .ok := hsucceeds
    rw [show Batch.observeFetch cfg (s, batch) (.insert .ok) = [] from rfl, List.append_nil]
    exact rank_pc_lt (by simp [pcRank, hpc, afterReport, afterInsert]) (pool_afterReport ..)
  | count hpc =>
    rw [show Batch.observeFetch cfg (s, batch) .count = [] from rfl, List.append_nil]
    exact rank_pc_lt (by simp [pcRank, hpc]) rfl
  | readError hpc => exact hsucceeds.elim

-- ---------------------------------------------------------------------------
-- Some step can be taken
-- ---------------------------------------------------------------------------

theorem Follows.progress (h : Follows cfg b s₀ s batch history) (hpc : batch.pc ≠ .returned) :
    ∃ a t, (paging cfg b s₀).step ((s, batch), history) a t := by
  have enabled {a : BatchAction} (ha : Succeeds a) (hstep : ∃ t, step cfg s batch a = some t) :
      ∃ a t, (paging cfg b s₀).step ((s, batch), history) a t := by
    obtain ⟨t, ht⟩ := hstep
    exact ⟨a, (t, history ++ Batch.observeFetch cfg (s, batch) a), ⟨ha, ht⟩, rfl⟩
  have consuming (hcase : batch.pc = .consuming) : ∃ a t, (paging cfg b s₀).step ((s, batch), history) a t := by
    by_cases hpool : batch.pool.pc = .exhausted
    · exact enabled (a := .next) trivial ⟨_, by simp only [step, hcase, hpool]; rfl⟩
    · obtain ⟨inputs, hw⟩ := h.ok.wf
      have hraised : ∀ e, batch.pool.pc ≠ .raised e := fun e he => h.calm.1 (by simp [Pool.Broken, he])
      obtain ⟨a, p, out, hp⟩ := Pool.progress hw h.ready hpool hraised
      cases a with
      | thread i a =>
        obtain ⟨q, hq, -⟩ := Option.map_eq_some_iff.mp hp
        exact enabled (a := .pool (.thread i a)) trivial ⟨_, by simp only [step, hq]; rfl⟩
      | main a =>
        have hp : batch.pool.mainStep cfg.executor a = some (p, out) := hp
        exact enabled (a := .pool (.main a)) trivial ⟨_, by simp only [step, hcase, if_true, hp]; rfl⟩
  have fetch (hcase : batch.pc = .fetching) : ∃ t, step cfg s batch .fetch = some t := by
    simp only [step, if_pos hcase]
    split <;> exact ⟨_, rfl⟩
  cases h.phase with
  | paging hcase =>
    rcases hcase with ⟨hcase, -⟩ | hcase | ⟨attempt, hcase⟩
    · exact enabled (a := .fetch) trivial (fetch hcase)
    · exact consuming hcase
    · exact enabled (a := .insert .ok) rfl ⟨_, by simp only [step, hcase]; rfl⟩
  | ended hcase =>
    rcases hcase with hcase | ⟨counts, attempt, hcase⟩ | hcase
    · exact enabled (a := .count) trivial ⟨_, by simp only [step, if_pos hcase]; rfl⟩
    · exact enabled (a := .insert .ok) rfl ⟨_, by simp only [step, hcase]; rfl⟩
    · exact absurd hcase hpc

-- ---------------------------------------------------------------------------
-- The whole run
-- ---------------------------------------------------------------------------

theorem Follows.returned (h : Follows cfg b s₀ s batch history) (hpc : batch.pc = .returned) :
    ∃ n, history = fetches cfg.batchPageSize (s₀.unprocessed b) (n + 1) ∧
      (∀ f ∈ fetches cfg.batchPageSize (s₀.unprocessed b) n, f.page ≠ []) ∧
      left (s₀.unprocessed b) (fetches cfg.batchPageSize (s₀.unprocessed b) n) = [] ∧ batch.Idle := by
  cases h.phase with
  | paging hcase =>
    rcases hcase with ⟨hother, -⟩ | hother | ⟨attempt, hother⟩ <;> rw [hpc] at hother <;> cases hother
  | @ended n hcase hidle hhistory hfull hleft => exact ⟨n, hhistory, hfull, hleft, hidle⟩

theorem Follows.pairwise (h : Follows cfg b s₀ s batch history) : (history.map (·.unprocessed)).Pairwise (· > ·) := by
  cases h.phase with
  | paging hpc hfull =>
    rw [h.ideal] at hfull ⊢
    exact (fetches_decreasing hfull).1
  | ended hpc hidle hhistory hfull hleft =>
    rw [hhistory]
    exact fetches_pairwise hfull

theorem paging_follows (hpy : cfg.executor.py.LoadsRaises)
    (h : ((paging cfg b s₀).restrict (ShallowStep cfg)).Run ((s₀, start b), []) as ((s, batch), history)) :
    Follows cfg b s₀ s batch history ∧ as.length ≤ pageRank cfg * (s₀.unprocessed b).length + 4 := by
  let I (p : (Store × Batch) × List Fetch) : Prop := Follows cfg b s₀ p.1.1 p.1.2 p.2
  have keep {p q : (Store × Batch) × List Fetch} {a : BatchAction} (hI : I p)
      (hs : ((paging cfg b s₀).restrict (ShallowStep cfg)).step p a q) :
      I q ∧ rank cfg (s₀.unprocessed b) q < rank cfg (s₀.unprocessed b) p := by
    obtain ⟨⟨s, batch⟩, history⟩ := p
    obtain ⟨⟨s', batch'⟩, history'⟩ := q
    obtain ⟨hshallow, ⟨hsucceeds, hstep⟩, rfl⟩ := hs
    have hstep := step_inv hstep
    exact ⟨follows_step hpy hI hsucceeds hshallow hstep, rank_step hI hsucceeds hstep⟩
  have hstart : I ((s₀, start b), []) := follows_start cfg b s₀
  refine ⟨h.invariant (I := I) hstart fun hI hs => (keep hI hs).1, ?_⟩
  have hlength := h.length_le hstart keep
  rw [rank_start] at hlength
  omega

/-- The loop ends and covers its batch: a run takes only so many steps, can go
on until it has returned, finds fewer rows at each fetch, and has then written
one status row. Distinct rows come one page after the other, each of them once. -/
theorem process_single_batch_pages (hpy : cfg.executor.py.LoadsRaises)
    (h : ((paging cfg b s₀).restrict (ShallowStep cfg)).Run ((s₀, start b), []) as ((s, batch), history)) :
    as.length ≤ pageRank cfg * (s₀.unprocessed b).length + 4 ∧
    (batch.pc ≠ .returned → ∃ a t, (paging cfg b s₀).step ((s, batch), history) a t) ∧
    (history.map (·.unprocessed)).Pairwise (· > ·) ∧
    (batch.pc ≠ .returned → s.batches = s₀.batches) ∧
    (batch.pc = .returned →
      s.Covered b ∧ (∃ counts, s.batches = s₀.batches ++ [⟨b, .complete, counts⟩]) ∧
      (((s₀.unprocessed b).map (·.rowId)).Nodup →
        let pages := ((s₀.unprocessed b).length + cfg.batchPageSize - 1) / cfg.batchPageSize
        history.length = pages + 1 ∧
        history.map (·.page) = (List.range (pages + 1)).map (fun i =>
          ((byRowId (s₀.unprocessed b)).drop (i * cfg.batchPageSize)).take cfg.batchPageSize) ∧
        history.flatMap (·.page) = byRowId (s₀.unprocessed b) ∧
        ∃ written, s.results = s₀.results ++ written ∧
          (written.map LLMResult.key).Perm ((s₀.unprocessed b).map LLMInput.key))) := by
  obtain ⟨hf, hlength⟩ := paging_follows hpy h
  refine ⟨hlength, hf.progress, hf.pairwise, fun hpc => ?_, fun hpc => ?_⟩
  · have hstatus := hf.status
    rwa [if_neg hpc] at hstatus
  obtain ⟨n, hhistory, hfull, hleft, hidle⟩ := hf.returned hpc
  have hstatus := hf.status
  rw [if_pos hpc] at hstatus
  have hlast : (nextFetch cfg.batchPageSize (s₀.unprocessed b)
      (fetches cfg.batchPageSize (s₀.unprocessed b) n)).page = [] :=
    (nextFetch_page_eq_nil cfg.batchPageSize_pos).mpr hleft
  have hcovered : s.unprocessed b = [] := by
    rw [hf.unprocessed hidle, hhistory, fetches, left_snoc, hleft, List.filter_nil]
  refine ⟨Store.unprocessed_eq_nil.mp hcovered, hstatus, fun hnodup => ?_⟩
  have hn := count_fetches cfg.batchPageSize_pos hnodup hfull hleft
  have hall : (fetches cfg.batchPageSize (s₀.unprocessed b) (n + 1)).flatMap (·.page) = byRowId (s₀.unprocessed b) := by
    have hdrop : byRowId (left (s₀.unprocessed b) (fetches cfg.batchPageSize (s₀.unprocessed b) n)) = _ :=
      byRowId_left hnodup n
    rw [hleft] at hdrop
    rw [fetches, List.flatMap_append, List.flatMap_singleton, hlast, List.append_nil, flatten_pages hnodup]
    exact List.take_of_length_le (List.drop_eq_nil_iff.mp hdrop.symm)
  refine ⟨?_, ?_, hhistory ▸ hall, ?_⟩
  · rw [hhistory, length_fetches, ← hn]
  · rw [hhistory, pages_fetches hnodup, ← hn]
  · obtain ⟨written, hresults, haccount⟩ := hf.account
    refine ⟨written, hresults, ?_⟩
    rw [hidle.2, hidle.owed, List.map_nil, Multiset.coe_nil, add_zero, add_zero, Multiset.coe_eq_coe, fetchedKeys,
      hhistory, hall] at haccount
    exact haccount.symm.trans ((List.perm_insertionSort _ _).map _)

end Batch

-- ---------------------------------------------------------------------------
-- Two rows, and one that nests too deep
-- ---------------------------------------------------------------------------

def twoPages : List BatchAction :=
  onePage (served (plainRow 1 1)) ++ [.insert .ok, .next] ++
    onePage (served (plainRow 1 2)) ++ [.insert .ok, .next, .fetch, .count, .insert .ok]

theorem process_single_batch_pages_twoRows :
    ∃ s batch history, ((Batch.paging rowByRow 1 twoRows).restrict (Batch.ShallowStep rowByRow)).Run
        ((twoRows, .start 1), []) twoPages ((s, batch), history) ∧
      history.map (·.page) = [[plainRow 1 1], [plainRow 1 2], []] ∧
      ∃ counts, s.batches = twoRows.batches ++ [⟨1, .complete, counts⟩] := by
  let next (s : (Store × Batch) × List Fetch) (a : BatchAction) : Option ((Store × Batch) × List Fetch) :=
    if Batch.Succeeds a ∧ ∀ f ∈ s.1.2.pool.futures, f.row = plainRow 1 f.row.rowId then
      (Batch.step rowByRow s.1.1 s.1.2 a).map fun t => (t, s.2 ++ Batch.observeFetch rowByRow s.1 a)
    else none
  have hexec : (LTS.exec next ((twoRows, .start 1), []) twoPages).map
      (fun s => decide (s.1.2.pc = .returned)) = some true := by decide +kernel
  obtain ⟨⟨⟨s, batch⟩, history⟩, ht, hpc⟩ := Option.map_eq_some_iff.mp hexec
  have hpc : batch.pc = .returned := of_decide_eq_true hpc
  have hnext : (LTS.ofFn (fun _ => True) next).Run ((twoRows, .start 1), []) twoPages ((s, batch), history) :=
    LTS.run_of_exec ht
  have hrun : ((Batch.paging rowByRow 1 twoRows).restrict (Batch.ShallowStep rowByRow)).Run
      ((twoRows, .start 1), []) twoPages ((s, batch), history) := by
    refine hnext.mono fun {s a t} hs => ?_
    obtain ⟨⟨ha, hrows⟩, hs⟩ : (Batch.Succeeds a ∧ _) ∧ _ = some t := Option.ite_none_right_eq_some.mp hs
    obtain ⟨u, hu, rfl⟩ := Option.map_eq_some_iff.mp hs
    refine ⟨fun i f _ hf => ?_, ⟨ha, hu⟩, rfl⟩
    rw [hrows f (List.mem_of_getElem? hf)]
    exact plainRow_shallow 1 _
  obtain ⟨-, -, -, -, hreturned⟩ := Batch.process_single_batch_pages sampleStdlib_loadsRaises hrun
  obtain ⟨-, hstatus, hpages⟩ := hreturned hpc
  obtain ⟨-, hpages, -⟩ := hpages (by decide)
  exact ⟨s, batch, history, hrun, hpages, hstatus⟩

def deepRow (deep : String) : Store := ⟨[rowWithParams deep], [], [⟨1, .pending, ⟨0, 0, 0⟩⟩]⟩

def deepConfig (deep : String) : ServiceConfig := sampleConfig (deepExecutor deep) 1 Nat.one_pos

/-- Up to the start of the row's thread, and from the answer to its check on. -/
def deepBatchStart : List BatchAction := .fetch :: inPool (resumes 2 ++ onThread 0 [.start])
def deepBatchEnd : List BatchAction := inPool deepPageEnd ++ [.next]

def deepBatch (deep : String) (pc : BatchPc) (poolPc : PoolPc) (st : FutureState)
    (inFlight : List (Nat × LLMInput)) : Batch :=
  ⟨1, pc, ⟨poolPc, [], [⟨rowWithParams deep, st⟩], inFlight, [], false⟩, []⟩

theorem deepBatch_run (hdeep : deep ≠ "") :
    (Batch.processSingleBatch (deepConfig deep) 1 (deepRow deep)).Run (deepRow deep, .start 1)
      (deepBatchStart ++ .pool (.thread 0 (.check false)) :: deepBatchEnd)
      (deepRow deep, deepBatch deep (.failed recursionError) (.raised recursionError) (.raised recursionError) []) := by
  have hparse := parseRow_deep hdeep
  have hcheck : (deepExecutor deep).threadStep (rowWithParams deep) (.running .entered) (.check false) =
      some (.running (.raising recursionError)) := by
    simp [BatchExecutor.threadStep, BatchExecutor.phaseStep, BatchExecutor.enter, hparse, rowError, recursionError]
  let next (s : Store × Batch) (a : BatchAction) := Batch.step (deepConfig deep) s.1 s.2 a
  have hstart : LTS.exec next (deepRow deep, .start 1) deepBatchStart =
      some (deepRow deep, deepBatch deep .consuming .head (.running .entered) [(0, rowWithParams deep)]) := rfl
  have hstep : next (deepRow deep, deepBatch deep .consuming .head (.running .entered) [(0, rowWithParams deep)])
      (.pool (.thread 0 (.check false))) = some (deepRow deep,
        deepBatch deep .consuming .head (.running (.raising recursionError)) [(0, rowWithParams deep)]) := by
    simp [next, Batch.step, Pool.threadStep, deepBatch, deepConfig, sampleConfig, Pool.sees, hcheck]
  have hend : LTS.exec next (deepRow deep,
      deepBatch deep .consuming .head (.running (.raising recursionError)) [(0, rowWithParams deep)]) deepBatchEnd =
      some (deepRow deep,
        deepBatch deep (.failed recursionError) (.raised recursionError) (.raised recursionError) []) := rfl
  exact (LTS.run_of_exec hstart).append (.cons hstep (LTS.run_of_exec hend))

theorem deepBatch_stuck (deep : String) (a : BatchAction) :
    Batch.step cfg s (deepBatch deep (.failed recursionError) (.raised recursionError) (.raised recursionError) []) a =
      none := by
  cases a with
  | pool a =>
    cases a with
    | thread i a =>
      cases i <;> simp [Batch.step, deepBatch, Pool.threadStep, BatchExecutor.threadStep]
    | main a => simp [Batch.step, deepBatch]
  | _ => simp [Batch.step, deepBatch]

/-- Every read succeeds and there is nothing to write, but the run ends without a status row. -/
theorem deep_row_ends_run :
    ∃ as s batch history, (Batch.paging (deepConfig deepText) 1 (deepRow deepText)).Run
        ((deepRow deepText, .start 1), []) as ((s, batch), history) ∧
      (∀ a t, ¬(Batch.paging (deepConfig deepText) 1 (deepRow deepText)).step ((s, batch), history) a t) ∧
      s.batches = (deepRow deepText).batches ∧ ¬s.Covered 1 := by
  have hrun := deepBatch_run deepText_ne
  have hsucceeds : ∀ a ∈ deepBatchStart ++ .pool (.thread 0 (.check false)) :: deepBatchEnd, Batch.Succeeds a := by
    decide
  obtain ⟨history, hobserved⟩ := (hrun.restrict hsucceeds).observed (Batch.observeFetch (deepConfig deepText)) []
  refine ⟨_, _, _, history, hobserved, ?_, rfl, ?_⟩
  · rintro a t ⟨⟨-, hstep⟩, -⟩
    have hstep : Batch.step _ _ _ a = some _ := hstep
    rw [deepBatch_stuck] at hstep
    cases hstep
  · intro hcovered
    have hkey : (rowWithParams deepText).key ∈ (deepRow deepText).resultKeys := hcovered _ (by simp [deepRow]) rfl
    simp [deepRow, Store.resultKeys] at hkey

end LlmWorker
