import LlmWorker.Executor.Progress

/-!
# Calls that hang

A call the backend never answers keeps one thread, and nothing else: as long
as fewer calls hang than there are threads, the main loop goes on until all the
other rows are yielded. An abort is different. The loop that collects the
futures, and an exception on its way out, wait for every thread.
-/

namespace LlmWorker

open Python Transition

variable {x : BatchExecutor} {inputs : List LLMInput} {H : Finset Nat}

def PoolAction.Outside (H : Finset Nat) : PoolAction → Prop
  | .thread i _ => i ∉ H
  | .main _ => True

namespace Pool

/-- The main loop stands at its `wait`, for threads in `H` alone. -/
structure WaitsFor (H : Finset Nat) (p : Pool) : Prop where
  head : p.pc = .head
  hung : ∀ e ∈ p.inFlight, e.1 ∈ H

theorem wait_enabled (x : BatchExecutor) (hpc : p.pc = .head) (he : e ∈ p.inFlight) (hf : p.futures[e.1]? = some f)
    (hdone : f.state.isDone = true) : ∃ p', step x p (.main (.wait [e.1])) = some (p', none) := by
  have hreturn : p.CanReturn [e.1] := by
    refine ⟨by simp, by simp, fun i hi => ?_⟩
    obtain rfl : i = e.1 := by simpa using hi
    exact ⟨List.mem_map_of_mem he, f.state, stateOf_eq_some.mpr ⟨f, hf, rfl⟩, hdone⟩
  exact ⟨_, by simp only [step, mainStep, hpc, if_pos hreturn]; rfl⟩

/-- At the head the main loop goes on, or a thread outside `H` does, unless
everything in flight hangs. -/
theorem head_enabled (hw : Wf x inputs p) (hpc : p.pc = .head) :
    (∃ a p' out, a.Outside H ∧ step x p a = some (p', out)) ∨ p.inFlight ≠ [] ∧ WaitsFor H p := by
  cases hin : p.inFlight with
  | nil => exact .inl ⟨.main .resume, _, _, trivial, by simp only [step, mainStep, hpc, hin, if_true]; rfl⟩
  | cons first rest =>
    by_cases hall : ∀ e ∈ p.inFlight, e.1 ∈ H
    · exact .inr ⟨by simp, hpc, hall⟩
    · obtain ⟨e, he, hout⟩ : ∃ e ∈ p.inFlight, e.1 ∉ H := by simpa using hall
      obtain ⟨f, hf, -⟩ := hw.entry e (by simpa [owing, hpc] using he)
      cases hdone : f.state.isDone with
      | false =>
        obtain ⟨a, p', h⟩ := thread_enabled x p hf hdone
        exact .inl ⟨.thread e.1 a, p', none, hout, by simp [step, h]⟩
      | true =>
        obtain ⟨p', h⟩ := wait_enabled x hpc he hf hdone
        exact .inl ⟨.main (.wait [e.1]), p', none, trivial, h⟩

theorem resume_enabled (hw : Wf x inputs p) (hr : Ready p) (hc : Clear inputs p) (hevent : p.abortEvent = false)
    (hb : ¬p.Broken) (hhead : p.pc ≠ .head) (hover : p.pc ≠ .exhausted) :
    ∃ p' out, mainStep x p .resume = some (p', out) := by
  obtain ⟨-, hclear⟩ := hc hevent
  cases hpc : p.pc with
  | head => exact absurd hpc hhead
  | exhausted => exact absurd hpc hover
  | unwinding e | raised e => simp [Broken, hpc] at hb
  | filling =>
    cases hrow : p.pendingInputs with
    | nil => exact ⟨_, _, by simp only [mainStep, hpc, hrow]; rfl⟩
    | cons row rest =>
      by_cases hroom : p.inFlight.length < x.maxWorkers
      · exact ⟨_, _, by simp only [mainStep, hpc, hrow, if_pos hroom]; rfl⟩
      · exact ⟨_, _, by simp only [mainStep, hpc, hrow, if_neg hroom]; rfl⟩
  | draining done =>
    cases done with
    | nil => exact ⟨_, _, by simp only [mainStep, hpc]; rfl⟩
    | cons i done =>
      obtain ⟨st, hst, hdone⟩ := hr.done _ hpc i (by simp)
      obtain ⟨f, hf, rfl⟩ := stateOf_eq_some.mp hst
      have hne := hr.uncancelled (by simp [Submitting, hpc]) f (List.mem_of_getElem? hf)
      cases hstate : f.state with
      | finished | raised =>
        rw [hstate] at hst
        exact ⟨_, _, by simp only [mainStep, hpc, hst]; rfl⟩
      | cancelled => exact absurd hstate hne
      | pending | running => simp [hstate, FutureState.isDone] at hdone
  | checking => exact ⟨_, _, by simp only [mainStep, hpc, hevent, Bool.false_eq_true, if_false]; rfl⟩
  | cancelling rest =>
    obtain ⟨rfl, -⟩ : rest = [] ∧ _ := by simpa only [hpc] using hclear
    exact ⟨_, _, by simp only [mainStep, hpc]; rfl⟩
  | collecting rest =>
    obtain ⟨rfl, -⟩ : rest = [] ∧ _ := by simpa only [hpc] using hclear
    exact ⟨_, _, by simp only [mainStep, hpc]; rfl⟩
  | closing =>
    -- nothing is owed any more, so no future is left unsettled
    have hdone : p.allDone = true := by
      refine List.all_eq_true.mpr fun f hf => ?_
      obtain ⟨i, hi⟩ := List.mem_iff_getElem?.mp hf
      refine Classical.byContradiction fun hnot => ?_
      have hns : ¬f.state.Settled := by
        cases hs : f.state <;> simp [hs, FutureState.isDone, FutureState.Settled] at hnot ⊢
      simpa [owing, hpc] using hw.unsettled hb i f hi hns
    exact ⟨_, _, by simp only [mainStep, hpc, hdone, if_true]; rfl⟩
  | emitting rest => cases rest <;> exact ⟨_, _, by simp only [mainStep, hpc]; rfl⟩

theorem WaitsFor.submitted (hw : Wf x inputs p) (h : WaitsFor H p) (hH : H.card < x.maxWorkers) :
    p.pendingInputs = [] := by
  have hnodup : (p.inFlight.map (·.1)).Nodup := by simpa [owing, h.head] using hw.nodup
  have hsub : (p.inFlight.map (·.1)).toFinset ⊆ H := fun i hi => by
    obtain ⟨e, he, rfl⟩ := List.mem_map.mp (List.mem_toFinset.mp hi)
    exact h.hung e he
  have hcard := Finset.card_le_card hsub
  rw [List.toFinset_card_of_nodup hnodup, List.length_map] at hcard
  rcases hw.full h.head with hnil | hfull
  · exact hnil
  · omega

theorem WaitsFor.stuck (h : WaitsFor H p) (hin : p.inFlight ≠ [])
    (hopen : ∀ e ∈ p.inFlight, ∀ st ∈ p.stateOf e.1, st.isDone = false)
    (hdone : ∀ i ∉ H, ∀ st ∈ p.stateOf i, st.isDone = true) (ha : a.Outside H) : step x p a = none := by
  refine Option.eq_none_iff_forall_not_mem.mpr fun ⟨p', out⟩ hstep => ?_
  have hstep : step x p a = some (p', out) := hstep
  cases a with
  | thread i a =>
    obtain ⟨q, hq, -⟩ := Option.map_eq_some_iff.mp hstep
    obtain ⟨f, st, hf, -, hst, -⟩ := threadStep_inv hq
    have hisDone := hdone i ha f.state (stateOf_eq_some.mpr ⟨f, hf, rfl⟩)
    rw [FutureState.not_done_of_step hst] at hisDone
    cases hisDone
  | main a =>
    have hmain : MainStep x p p' out := mainStep_inv hstep
    cases hmain with
    | @woken done hpc hreturn =>
      obtain ⟨i, hi⟩ := List.exists_mem_of_ne_nil _ hreturn.1
      obtain ⟨hflight, st, hst, hisDone⟩ := hreturn.2.2 i hi
      obtain ⟨e, he, rfl⟩ := List.mem_map.mp hflight
      rw [hopen e he st hst] at hisDone
      cases hisDone
    | idle _ hnone => exact hin hnone
    | submit hpc | filled hpc | drain hpc | drainRaised hpc | drained hpc | abort hpc | refill hpc | cancel hpc
    | cancelled hpc | keep hpc | collect hpc | collectRaised hpc | collected hpc | closed hpc | emit hpc
    | emitted hpc | unwound hpc => simp [h.head] at hpc

end Pool

theorem processBatch_steps (h : (x.processBatch inputs).Run ⟨Pool.start inputs, []⟩ as s) :
    as.length ≤ Pool.rowRank x * inputs.length + 12 := by
  have keep {s a s'} (hw : Pool.Wf x inputs s.pool) (hst : (x.processBatch inputs).step s a s') :
      Pool.Wf x inputs s'.pool ∧ s'.pool.rank x < s.pool.rank x := by
    obtain ⟨⟨p', out⟩, hstep, rfl⟩ := Option.map_eq_some_iff.mp hst
    exact ⟨Pool.wf_step hw hstep, Pool.rank_pool hw hstep⟩
  have hle := h.length_le (I := fun s => Pool.Wf x inputs s.pool) (Pool.wf_start x inputs) keep
  rw [Pool.rank_start] at hle
  omega

theorem processBatch_ready (h : (x.processBatch inputs).Run ⟨Pool.start inputs, []⟩ as s) : Pool.Ready s.pool := by
  refine h.invariant (I := fun s => Pool.Ready s.pool) (Pool.ready_start inputs) ?_
  intro s a s' hr hst
  obtain ⟨⟨p', out⟩, hstep, rfl⟩ := Option.map_eq_some_iff.mp hst
  cases a with
  | thread i a =>
    obtain ⟨q, hq, hpair⟩ := Option.map_eq_some_iff.mp hstep
    cases hpair
    exact Pool.ready_thread hr hq
  | main a => exact Pool.ready_main hr (Pool.mainStep_inv hstep)

/-- While no row has aborted the page, fewer hanging calls than threads hold up
no other row: some step is left that is none of theirs, or the rows not yet
yielded are their rows. -/
theorem hung_calls_do_not_block (h : (x.processBatch inputs).Run ⟨Pool.start inputs, []⟩ as s)
    (hevent : s.pool.abortEvent = false) (hb : ¬s.pool.Broken) (hH : H.card < x.maxWorkers) :
    as.length ≤ Pool.rowRank x * inputs.length + 12 ∧
    ((∃ a s', a.Outside H ∧ x.collect s a = some s') ∨
      ∃ (yielded : List LLMInput) (hung : List (Nat × LLMInput)),
        List.Forall₂ (fun result row => result.key = row.key) s.results yielded ∧
        (↑inputs : Multiset LLMInput) = ↑yielded + ↑(hung.map (·.2)) ∧
        (hung.map (·.1)).Nodup ∧ ∀ e ∈ hung, e.1 ∈ H ∧ inputs[e.1]? = some e.2) := by
  refine ⟨processBatch_steps h, ?_⟩
  obtain ⟨hw, -, hacc⟩ := processBatch_invariant h
  obtain ⟨hc, -⟩ := processBatch_clear h
  obtain ⟨paid, hpaid, hacc⟩ := hacc.resolve_left hb
  have hkeys : List.Forall₂ (fun result row => result.key = row.key) s.results (paid.map (·.1)) := by
    rw [hpaid, List.forall₂_map_left_iff, List.forall₂_map_right_iff, List.forall₂_same]
    exact hacc.keyed hw
  have collected {a p' out} (hout : a.Outside H) (hstep : s.pool.step x a = some (p', out)) :
      ∃ a s', a.Outside H ∧ x.collect s a = some s' := ⟨a, _, hout, Option.map_eq_some_iff.mpr ⟨_, hstep, rfl⟩⟩
  by_cases hover : s.pool.pc = .exhausted
  · refine .inr ⟨paid.map (·.1), [], hkeys, ?_, by simp, by simp⟩
    have hrows := (hacc.perm hover).map (·.1)
    rw [Pool.outcomes_rows hw] at hrows
    simpa using hrows.symm
  by_cases hhead : s.pool.pc = .head
  · rcases Pool.head_enabled (H := H) hw hhead with ⟨a, p', out, hout, hstep⟩ | ⟨-, hwait⟩
    · exact .inl (collected hout hstep)
    · have howing : s.pool.owing = s.pool.inFlight := by simp [Pool.owing, hhead]
      refine .inr ⟨paid.map (·.1), s.pool.inFlight, hkeys, ?_, howing ▸ hw.nodup, fun e he => ⟨hwait.hung e he, ?_⟩⟩
      · simpa [hwait.submitted hw hH] using hacc.split hw hhead
      · obtain ⟨f, hf, hrow⟩ := hw.entry e (howing ▸ he)
        rw [← hrow]
        exact Pool.row_of_future hw hf
  · obtain ⟨p', out, hstep⟩ := Pool.resume_enabled hw (processBatch_ready h) hc hevent hb hhead hover
    exact .inl (collected (a := .main .resume) trivial hstep)

/-- Two threads and three rows: the first call hangs, the other thread serves
the rest of the page. -/
def hangingPage : List PoolAction :=
  resumes 3 ++ onThread 0 [.start, .check false, .call] ++ onThread 1 (served (plainRow 1 2)) ++
    [.main (.wait [1])] ++ resumes 5 ++ onThread 2 (served (plainRow 1 3)) ++ [.main (.wait [2])] ++ resumes 4

def threeRows : List LLMInput := [plainRow 1 1, plainRow 1 2, plainRow 1 3]

theorem hung_calls_do_not_block_hangingPage :
    ∃ (s : Collected) (yielded : List LLMInput) (hung : List (Nat × LLMInput)),
      ((bedrockExecutor 2 Nat.two_pos).processBatch threeRows).Run ⟨Pool.start threeRows, []⟩ hangingPage s ∧
      List.Forall₂ (fun result row => result.key = row.key) s.results yielded ∧
      (↑threeRows : Multiset LLMInput) = ↑yielded + ↑(hung.map (·.2)) ∧ ∀ e ∈ hung, e.1 = 0 := by
  have hexec : (LTS.exec (bedrockExecutor 2 Nat.two_pos).collect ⟨Pool.start threeRows, []⟩ hangingPage).map
      (fun s => decide ((s.pool.pc = .head ∧ s.pool.abortEvent = false ∧ s.pool.inFlight = [(0, plainRow 1 1)]) ∧
        (∀ st ∈ s.pool.stateOf 0, st.isDone = false) ∧ s.pool.futures.length = 3 ∧
        (∀ st ∈ s.pool.stateOf 1, st.isDone = true) ∧ ∀ st ∈ s.pool.stateOf 2, st.isDone = true)) =
      some true := by decide +kernel
  obtain ⟨s, hrun, hs⟩ := Option.map_eq_some_iff.mp hexec
  obtain ⟨⟨hpc, hevent, hin⟩, hzero, hlen, hone, htwo⟩ := of_decide_eq_true hs
  have h : ((bedrockExecutor 2 Nat.two_pos).processBatch threeRows).Run ⟨Pool.start threeRows, []⟩ hangingPage s :=
    LTS.run_of_exec hrun
  have hwait : s.pool.WaitsFor {0} := ⟨hpc, by simp [hin]⟩
  have hdone (i : Nat) (hi : i ∉ ({0} : Finset Nat)) : ∀ st ∈ s.pool.stateOf i, st.isDone = true := by
    rcases i with _ | _ | _ | i
    · simp at hi
    · exact hone
    · exact htwo
    · simp [Pool.stateOf, List.getElem?_eq_none (Nat.le_trans hlen.le (Nat.le_add_left 3 i))]
  obtain ⟨-, hnext⟩ := hung_calls_do_not_block (H := {0}) h hevent (by simp [Pool.Broken, hpc]) (by decide)
  cases hnext with
  | inl hstep =>
    obtain ⟨a, s', ha, hstep⟩ := hstep
    obtain ⟨_, hpool, -⟩ := Option.map_eq_some_iff.mp hstep
    rw [hwait.stuck (by simp [hin]) (by simpa [hin] using hzero) hdone ha] at hpool
    cases hpool
  | inr hdrained =>
    obtain ⟨yielded, hung, hkeys, hrows, -, hmem⟩ := hdrained
    exact ⟨s, yielded, hung, h, hkeys, hrows, fun e he => by simpa using (hmem e he).1⟩

end LlmWorker
