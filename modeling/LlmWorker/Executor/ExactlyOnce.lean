import LlmWorker.Executor.Yield
import LlmWorker.Providers.Bedrock
import Mathlib.Data.List.OfFn

/-!
# A whole iteration

What a complete run of `process_batch_iter` yields, for every order in which
its threads start, finish and set the abort event.
-/

namespace LlmWorker

open Python Transition

variable {x : BatchExecutor} {inputs : List LLMInput}

-- ---------------------------------------------------------------------------
-- The account of an iteration
-- ---------------------------------------------------------------------------

namespace Pool

/-- `paid` pairs each result yielded so far with its row. -/
def Accounts (inputs : List LLMInput) (p : Pool) (paid : List (LLMInput × LLMResult)) : Prop :=
  (↑paid + p.due : Multiset (LLMInput × LLMResult)) = ↑(p.outcomes inputs)

theorem accounts_start (inputs : List LLMInput) : Accounts inputs (start inputs) [] := by
  simp [Accounts, due, outcomes, start, owing, held]

theorem accounts_step (hw : Wf x inputs p) (h : step x p a = some (p', out)) (hb : ¬p'.Broken)
    (hacc : Accounts inputs p paid) :
    ∃ more, more.map (·.2) = out.toList ∧ Accounts inputs p' (paid ++ more) := by
  cases a with
  | thread i a =>
    have hbp : ¬p.Broken := fun hp => hb (broken_step h hp)
    obtain ⟨q, hq, hpair⟩ := Option.map_eq_some_iff.mp h
    cases hpair
    obtain ⟨old, new, D, O, hdue, hdue', hout, hout'⟩ := due_thread hw hbp hq
    refine ⟨[], rfl, ?_⟩
    unfold Accounts at hacc ⊢
    rw [hdue, hout, Multiset.add_cons, Multiset.cons_inj_right] at hacc
    rw [List.append_nil, hdue', hout', Multiset.add_cons, hacc]
  | main a =>
    rcases due_main hw (mainStep_inv h) with ⟨hbroken, -⟩ | ⟨more, hmore, hdue, hout⟩
    · exact absurd hbroken hb
    · refine ⟨more, hmore, ?_⟩
      unfold Accounts at hacc ⊢
      rw [hout, ← hacc, hdue, ← Multiset.coe_add, add_assoc]

theorem due_of_exhausted {p : Pool} (h : p.pc = .exhausted) : p.due = 0 := by
  simp [due, owing, held, h]

end Pool

-- ---------------------------------------------------------------------------
-- The actions of one thread
-- ---------------------------------------------------------------------------

def threadLabels (i : Nat) (as : List PoolAction) : List ThreadAction :=
  as.filterMap fun
    | .thread j a => if j = i then some a else none
    | .main _ => none

theorem mem_threadLabels {as : List PoolAction} : a ∈ threadLabels i as ↔ .thread i a ∈ as := by
  simp only [threadLabels, List.mem_filterMap]
  constructor
  · rintro ⟨b, hb, hsome⟩
    cases b with
    | thread j c =>
      obtain ⟨rfl, rfl⟩ : j = i ∧ c = a := by simpa using hsome
      exact hb
    | main m => simp at hsome
  · intro h
    exact ⟨_, h, by simp⟩

theorem thread_trace (h : (x.thread row).Run .pending as st) :
    (st = .pending → as = []) ∧ st ≠ .cancelled ∧ (.start ∈ as ↔ st ≠ .pending) ∧
      ∀ result, .ret result ∈ as ↔ st = .finished result := by
  refine h.trace_invariant (J := fun as st => (st = .pending → as = []) ∧ st ≠ .cancelled ∧
    (.start ∈ as ↔ st ≠ .pending) ∧ ∀ result, .ret result ∈ as ↔ st = .finished result) ?_ ?_
  · simp
  · rintro as st a st' ⟨hpending, -, hstart, hret⟩ hst
    have hst : x.threadStep row st a = some st' := hst
    cases st with
    | pending =>
      cases a <;> simp [BatchExecutor.threadStep] at hst
      subst hst
      simp [hpending]
    | running phase =>
      have hin : .start ∈ as := hstart.mpr (by simp)
      have hnone : ∀ result, .ret result ∉ as := fun result hr => by simpa using (hret result).mp hr
      cases phase <;> cases a <;> simp [BatchExecutor.threadStep, BatchExecutor.phaseStep] at hst
      case returning.ret result result' =>
        obtain ⟨rfl, rfl⟩ := hst
        refine ⟨by simp, by simp, by simp [hin], fun r => ?_⟩
        simp [hnone]
        exact eq_comm
      case raising.raise =>
        obtain ⟨rfl, rfl⟩ := hst
        simp [hin, hnone]
      all_goals
        subst hst
        simp [hin, hnone]
    | _ => simp [BatchExecutor.threadStep] at hst

namespace Pool

theorem futures_main (h : MainStep x p p' out) :
    p'.futures = p.futures ∨ (∃ row, p'.futures = p.futures ++ [⟨row, .pending⟩]) ∨
      ∃ i, p'.futures = (p.cancel i).futures := by
  cases h with
  | submit => exact .inr (.inl ⟨_, rfl⟩)
  | cancel => exact .inr (.inr ⟨_, rfl⟩)
  | _ => exact .inl rfl

def Follows (x : BatchExecutor) (as : List PoolAction) (p : Pool) (i : Nat) : Prop :=
  match p.futures[i]? with
  | none => threadLabels i as = []
  | some f => (f.state = .cancelled ∧ threadLabels i as = []) ∨
      (x.thread f.row).Run .pending (threadLabels i as) f.state

theorem follows_main (h : MainStep x p p' out) (hf : Follows x as p i) :
    Follows x (as ++ [.main a]) p' i := by
  have hlabels : threadLabels i (as ++ [.main a]) = threadLabels i as := by simp [threadLabels]
  unfold Follows at hf ⊢
  rw [hlabels]
  rcases futures_main h with heq | ⟨row, heq⟩ | ⟨j, heq⟩
  · rwa [heq]
  · rw [heq]
    rcases Nat.lt_trichotomy i p.futures.length with hlt | rfl | hgt
    · rwa [List.getElem?_append_left hlt]
    · have hnil : threadLabels p.futures.length as = [] := by simpa using hf
      rw [hnil, List.getElem?_concat_length]
      exact .inr .nil
    · have hnone : p.futures[i]? = none := List.getElem?_eq_none hgt.le
      have hnone' : (p.futures ++ [⟨row, .pending⟩])[i]? = none :=
        List.getElem?_eq_none (by simp only [List.length_append, List.length_singleton]; omega)
      rw [hnone] at hf
      rw [hnone']
      exact hf
  · rw [heq, getElem?_cancel]
    cases hget : p.futures[i]? with
    | none =>
      rw [hget] at hf
      exact hf
    | some f =>
      rw [hget] at hf
      simp only [Option.map_some]
      split
      · rcases hf with ⟨hc, hnil⟩ | hrun
        · exact .inl ⟨by simp [hc, FutureState.cancel], hnil⟩
        · cases hst : f.state with
          | pending =>
            rw [hst] at hrun
            exact .inl ⟨rfl, (thread_trace hrun).1 rfl⟩
          | _ => exact .inr (by simpa [hst, FutureState.cancel] using hrun)
      · exact hf

theorem follows_thread (h : threadStep x p j a = some p') (hf : Follows x as p i) :
    Follows x (as ++ [.thread j a]) p' i := by
  obtain ⟨f, st, hget, -, hst, rfl⟩ := threadStep_inv h
  unfold Follows at hf ⊢
  by_cases hij : j = i
  · subst hij
    have hlabels : threadLabels j (as ++ [.thread j a]) = threadLabels j as ++ [a] := by
      simp [threadLabels]
    have hlt := (List.getElem?_eq_some_iff.mp hget).1
    rw [hget] at hf
    rw [hlabels, List.getElem?_set_self hlt]
    rcases hf with ⟨hc, -⟩ | hrun
    · simp [hc, BatchExecutor.threadStep] at hst
    · exact .inr (.snoc hrun hst)
  · have hlabels : threadLabels i (as ++ [.thread j a]) = threadLabels i as := by
      simp [threadLabels, hij]
    rw [hlabels, List.getElem?_set_ne hij]
    exact hf

theorem follows_step (h : step x p a = some (p', out)) (hf : Follows x as p i) :
    Follows x (as ++ [a]) p' i := by
  cases a with
  | thread j a =>
    obtain ⟨q, hq, hpair⟩ := Option.map_eq_some_iff.mp h
    cases hpair
    exact follows_thread hq hf
  | main a => exact follows_main (mainStep_inv h) hf

-- ---------------------------------------------------------------------------
-- Each position's outcome
-- ---------------------------------------------------------------------------

variable {p : Pool} {i : Nat} {f : Future}

theorem row_of_future (hw : Wf x inputs p) (hf : p.futures[i]? = some f) :
    inputs[i]? = some f.row := by
  obtain ⟨hlt, rfl⟩ := List.getElem?_eq_some_iff.mp hf
  have hrows := congrArg (fun l => l[i]?) hw.rows
  simpa [hlt] using hrows.symm

theorem outcomes_of_future (hf : p.futures[i]? = some f) :
    (p.outcomes inputs)[i]? = some f.promise := by
  obtain ⟨hlt, rfl⟩ := List.getElem?_eq_some_iff.mp hf
  simp [outcomes, List.getElem?_append_left, hlt]

theorem outcomes_of_absent (hf : p.futures[i]? = none) (hrow : inputs[i]? = some row) :
    (p.outcomes inputs)[i]? = some (absent row) := by
  have hle : p.futures.length ≤ i := List.getElem?_eq_none_iff.mp hf
  have hle' : (p.futures.map Future.promise).length ≤ i := by simpa using hle
  rw [outcomes, List.getElem?_append_right hle', List.length_map, List.getElem?_map,
    List.getElem?_drop, Nat.add_sub_cancel' hle, hrow]
  rfl

/-- What an input row has got once the iteration is over: its thread's value
if `invoke` ever started on it, and an aborted result otherwise. -/
theorem outcome_of_exhausted (hw : Wf x inputs p) (hpc : p.pc = .exhausted)
    (hf : Follows x as p i) (hrow : inputs[i]? = some row) :
    ∃ result, (p.outcomes inputs)[i]? = some (row, result) ∧
      (.thread i .start ∈ as → .thread i (.ret result) ∈ as ∧
        ∃ isSet answers, (x.invoke row (some isSet) fun _ => answers).1 = .ok result) ∧
      (.thread i .start ∉ as → result = abortedResult row) := by
  unfold Follows at hf
  cases hget : p.futures[i]? with
  | none =>
    rw [hget] at hf
    have hnot : .thread i .start ∉ as := by
      rw [← mem_threadLabels, hf]
      simp
    exact ⟨_, outcomes_of_absent hget hrow, fun h => absurd h hnot, fun _ => rfl⟩
  | some f =>
    rw [hget] at hf
    obtain rfl : f.row = row := by simpa [row_of_future hw hget] using hrow
    have hsettled := hw.settled hpc hget
    refine ⟨f.value, outcomes_of_future hget, ?_⟩
    rcases hf with ⟨hc, hnil⟩ | hrun
    · have hnot : .thread i .start ∉ as := by
        rw [← mem_threadLabels, hnil]
        simp
      exact ⟨fun h => absurd h hnot, fun _ => by simp [Future.value, hc]⟩
    · obtain ⟨-, hnc, hstart, hret⟩ := thread_trace hrun
      cases hst : f.state with
      | finished result =>
        rw [hst] at hrun hstart hret
        have hval : f.value = result := by simp [Future.value, hst]
        rw [hval, ← mem_threadLabels, ← mem_threadLabels, hstart, hret]
        refine ⟨fun _ => ⟨rfl, ?_⟩, fun h => absurd (by simp) h⟩
        rcases BatchExecutor.thread_value hrun with ⟨h | h, -⟩ | ⟨isSet, -, hvalue⟩
        · cases h
        · cases h
        · have hinvoke := hvalue (.const (.error recursionError))
          simp only [BatchExecutor.value, Option.some.injEq] at hinvoke
          exact ⟨isSet, _, hinvoke.symm⟩
      | cancelled => exact absurd hst hnc
      | _ => simp [FutureState.Settled, hst] at hsettled

-- ---------------------------------------------------------------------------
-- The accounts of a page
-- ---------------------------------------------------------------------------

theorem Accounts.keyed (hw : Wf x inputs p) (hacc : Accounts inputs p paid) :
    ∀ e ∈ paid, e.2.key = e.1.key := by
  intro e he
  have hmem : e ∈ (↑(p.outcomes inputs) : Multiset (LLMInput × LLMResult)) := by
    rw [← hacc]
    exact Multiset.mem_add.mpr (.inl he)
  exact outcomes_keyed hw e hmem

theorem Accounts.split (hw : Wf x inputs p) (hacc : Accounts inputs p paid) (hpc : p.pc = .head) :
    (↑inputs : Multiset LLMInput) =
      ↑(paid.map (·.1)) + ↑(p.inFlight.map (·.2)) + ↑p.pendingInputs := by
  obtain ⟨-, haborted⟩ := hw.pending (by simp [Submitting, hpc])
  have hrows := congrArg (Multiset.map (·.1)) hacc
  rw [Multiset.map_add, due_rows, Multiset.map_coe, Multiset.map_coe, outcomes_rows hw] at hrows
  have howed : p.owed = ↑(p.inFlight.map (·.2)) + (↑p.pendingInputs : Multiset LLMInput) := by
    simp [owed, owing, held, hpc, haborted]
  rw [← hrows, howed, add_assoc]

theorem Accounts.perm (hacc : Accounts inputs p paid) (hpc : p.pc = .exhausted) :
    paid.Perm (p.outcomes inputs) := by
  rw [Accounts, due_of_exhausted hpc, add_zero] at hacc
  exact Multiset.coe_eq_coe.mp hacc

end Pool

-- ---------------------------------------------------------------------------
-- Exactly once
-- ---------------------------------------------------------------------------

theorem processBatch_invariant (h : (x.processBatch inputs).Run ⟨Pool.start inputs, []⟩ as s) :
    Pool.Wf x inputs s.pool ∧ (∀ i, Pool.Follows x as s.pool i) ∧
      (s.pool.Broken ∨ ∃ paid, s.results = paid.map (·.2) ∧ Pool.Accounts inputs s.pool paid) := by
  refine h.trace_invariant (J := fun as s => Pool.Wf x inputs s.pool ∧
    (∀ i, Pool.Follows x as s.pool i) ∧
      (s.pool.Broken ∨ ∃ paid, s.results = paid.map (·.2) ∧ Pool.Accounts inputs s.pool paid)) ?_ ?_
  · exact ⟨Pool.wf_start x inputs, by simp [Pool.Follows, Pool.start, threadLabels],
      .inr ⟨[], rfl, Pool.accounts_start inputs⟩⟩
  · rintro as s a s' ⟨hw, hf, hacc⟩ hst
    obtain ⟨⟨p', out⟩, hstep, rfl⟩ := Option.map_eq_some_iff.mp hst
    refine ⟨Pool.wf_step hw hstep, fun i => Pool.follows_step hstep (hf i), ?_⟩
    by_cases hb : p'.Broken
    · exact .inl hb
    · rcases hacc with hbs | ⟨paid, hpaid, hacc⟩
      · exact absurd (Pool.broken_step hstep hbs) hb
      · obtain ⟨more, hmore, hacc'⟩ := Pool.accounts_step hw hstep hb hacc
        exact .inr ⟨paid ++ more, by simp [hpaid, hmore], hacc'⟩

theorem outcomes_collected (h : (x.processBatch inputs).Run ⟨Pool.start inputs, []⟩ as s)
    (hpc : s.pool.pc = .exhausted) :
    ∃ outcome : Fin inputs.length → LLMResult, s.results.Perm (List.ofFn outcome) ∧
      ∀ i : Fin inputs.length, (s.pool.outcomes inputs)[i.1]? = some (inputs[i], outcome i) := by
  obtain ⟨hw, -, hacc⟩ := processBatch_invariant h
  have hrows := Pool.outcomes_rows hw
  have hlen : (s.pool.outcomes inputs).length = inputs.length := by
    rw [← List.length_map (·.1), hrows]
  have hget (i : Fin inputs.length) :
      ∃ result, (s.pool.outcomes inputs)[i.1]? = some (inputs[i], result) := by
    have hi : i.1 < (s.pool.outcomes inputs).length := by rw [hlen]; exact i.2
    obtain ⟨⟨row, result⟩, hentry⟩ : ∃ entry, (s.pool.outcomes inputs)[i.1]? = some entry :=
      ⟨_, List.getElem?_eq_getElem hi⟩
    have hrow := congrArg (fun l => l[i.1]?) hrows
    obtain rfl : row = inputs[i] := by simpa [hentry] using hrow
    exact ⟨result, hentry⟩
  choose outcome houtcome using hget
  refine ⟨outcome, ?_, houtcome⟩
  rcases hacc with hb | ⟨paid, hpaid, hacc⟩
  · simp [Pool.Broken, hpc] at hb
  · have hlist : (s.pool.outcomes inputs).map (·.2) = List.ofFn outcome := by
      refine List.ext_getElem (by simp [hlen]) fun i h1 h2 => ?_
      have hi : i < inputs.length := by simpa using h2
      obtain ⟨_, heq⟩ := List.getElem?_eq_some_iff.mp (houtcome ⟨i, hi⟩)
      simp [heq]
    rw [hpaid, ← hlist]
    exact (hacc.perm hpc).map _

/-- At every head of the main loop the inputs are the rows yielded, the rows
in flight and the rows not yet pulled; and when the iteration is over each
input row has been yielded once, with the value of its `invoke` if that ever
started and as aborted otherwise. -/
theorem process_batch_iter_exactly_once
    (h : (x.processBatch inputs).Run ⟨Pool.start inputs, []⟩ as s) :
    (s.pool.pc = .head → s.pool.inFlight.length ≤ x.maxWorkers ∧
      ∃ yielded : List LLMInput, List.Forall₂ (fun result row => result.key = row.key) s.results yielded ∧
        (↑inputs : Multiset LLMInput) =
          ↑yielded + ↑(s.pool.inFlight.map (·.2)) + ↑s.pool.pendingInputs) ∧
    (s.pool.pc = .exhausted → ∃ outcome : Fin inputs.length → LLMResult,
      s.results.Perm (List.ofFn outcome) ∧ ∀ i : Fin inputs.length,
        (.thread i .start ∈ as → .thread i (.ret (outcome i)) ∈ as ∧
          ∃ isSet answers, (x.invoke inputs[i] (some isSet) fun _ => answers).1 = .ok (outcome i)) ∧
        (.thread i .start ∉ as → outcome i = abortedResult inputs[i])) := by
  obtain ⟨hw, hf, hacc⟩ := processBatch_invariant h
  constructor
  · intro hpc
    refine ⟨hw.bound, ?_⟩
    rcases hacc with hb | ⟨paid, hpaid, hacc⟩
    · simp [Pool.Broken, hpc] at hb
    · refine ⟨paid.map (·.1), ?_, ?_⟩
      · rw [hpaid, List.forall₂_map_left_iff, List.forall₂_map_right_iff, List.forall₂_same]
        exact hacc.keyed hw
      · exact hacc.split hw hpc
  · intro hpc
    obtain ⟨outcome, hperm, hget⟩ := outcomes_collected h hpc
    refine ⟨outcome, hperm, fun i => ?_⟩
    obtain ⟨result, hresult, hstart, hnot⟩ :=
      Pool.outcome_of_exhausted hw hpc (hf i) (List.getElem?_eq_getElem i.2)
    obtain rfl : result = outcome i := by simpa [hget i] using hresult.symm
    exact ⟨hstart, hnot⟩

-- ---------------------------------------------------------------------------
-- A sample iteration
-- ---------------------------------------------------------------------------

def bedrockExecutor (maxWorkers : Nat) (h : 0 < maxWorkers) : BatchExecutor where
  py := sampleStdlib
  classifyError := Bedrock.classifyError
  maxWorkers := maxWorkers
  retryMaxAttempts := 5
  maxWorkers_pos := h

def plainRow (batchId rowId : UUID) : LLMInput := ⟨batchId, rowId, "m", "p", "", ""⟩

def accessDenied : Exc := ⟨.clientError (some "AccessDeniedException") none, "denied"⟩

def okResponse : LLMResponse := ⟨.dict [("type", .str "object")], .int 1, .int 1⟩

def served (row : LLMInput) : List ThreadAction :=
  [.start, .check false, .call, .answer (.ok okResponse), .ret (row.completed "\x7b\"type\": \"object\"\x7d")]

def denied (row : LLMInput) : List ThreadAction :=
  [.start, .check false, .call, .answer (.error accessDenied), .set, .ret (row.failed "denied")]

def onThread (i : Nat) (as : List ThreadAction) : List PoolAction := as.map (.thread i)

def resumes (n : Nat) : List PoolAction := List.replicate n (.main .resume)

/-- One worker, two rows: the first aborts the page, the second is never submitted. -/
def abortedPage : List PoolAction :=
  resumes 2 ++ onThread 0 (denied (plainRow 1 1)) ++ [.main (.wait [0])] ++ resumes 8

theorem abortedPage_run :
    ∃ s, ((bedrockExecutor 1 Nat.one_pos).processBatch [plainRow 1 1, plainRow 1 2]).Run
        ⟨Pool.start [plainRow 1 1, plainRow 1 2], []⟩ abortedPage s ∧ s.pool.pc = .exhausted := by
  have hexec : (LTS.exec (bedrockExecutor 1 Nat.one_pos).collect
      ⟨Pool.start [plainRow 1 1, plainRow 1 2], []⟩ abortedPage).map
        (fun s => decide (s.pool.pc = .exhausted)) = some true := by decide +kernel
  obtain ⟨s, hrun, hpc⟩ : ∃ s, ((bedrockExecutor 1 Nat.one_pos).processBatch
      [plainRow 1 1, plainRow 1 2]).Run ⟨Pool.start [plainRow 1 1, plainRow 1 2], []⟩ abortedPage s ∧
        decide (s.pool.pc = .exhausted) = true := LTS.exists_run hexec
  exact ⟨s, hrun, of_decide_eq_true hpc⟩

theorem aborted_page_exactly_once :
    ∃ s, ((bedrockExecutor 1 Nat.one_pos).processBatch [plainRow 1 1, plainRow 1 2]).Run
        ⟨Pool.start [plainRow 1 1, plainRow 1 2], []⟩ abortedPage s ∧
      ∃ outcome : Fin 2 → LLMResult, s.results.Perm (List.ofFn outcome) ∧
        outcome 1 = abortedResult (plainRow 1 2) := by
  obtain ⟨s, hrun, hpc⟩ := abortedPage_run
  obtain ⟨outcome, hperm, hrow⟩ := (process_batch_iter_exactly_once hrun).2 hpc
  exact ⟨s, hrun, outcome, hperm, (hrow 1).2 (by decide)⟩

end LlmWorker
