import LlmWorker.Executor.Attempts

/-!
# An abort is contained

Once the abort event is set, only a thread that is already between two
attempts or in a call can still call the provider. Such a thread occupies a
worker, and so does the thread that set the event.
-/

namespace LlmWorker

open Python Transition

variable {x : BatchExecutor} {inputs : List LLMInput}

namespace FutureState

/-- A state from which the next call may come without another abort check. -/
def Attempting : FutureState → Prop
  | .running (.attempting ..) | .running (.calling ..) => True
  | _ => False

theorem Attempting.not_done (h : Attempting st) : st.isDone = false := by
  cases st <;> simp_all [Attempting, isDone]

theorem isDone_cancel {st : FutureState} (h : st.isDone = true) : st.cancel.isDone = true := by
  cases st <;> simp_all [isDone, cancel]

theorem cancel_ne_pending {st : FutureState} : st.cancel ≠ .pending := by
  cases st <;> simp [cancel]

theorem not_cancelled_of_step {x : BatchExecutor} (h : x.threadStep row st a = some st') :
    st' ≠ .cancelled := by
  cases st with
  | pending => cases a <;> simp [BatchExecutor.threadStep] at h; simp [← h]
  | running phase =>
    cases phase <;> cases a <;> simp [BatchExecutor.threadStep, BatchExecutor.phaseStep] at h <;>
      simp [← h]
  | _ => simp [BatchExecutor.threadStep] at h

theorem begun_of_step {x : BatchExecutor} (h : x.threadStep row st a = some st') :
    st' ≠ .pending ∧ (a = .start → st = .pending) := by
  cases st with
  | pending => cases a <;> simp [BatchExecutor.threadStep] at h ⊢; simp [← h]
  | running phase =>
    cases phase <;> cases a <;> simp [BatchExecutor.threadStep, BatchExecutor.phaseStep] at h ⊢ <;>
      simp [← h]
  | _ => simp [BatchExecutor.threadStep] at h

end FutureState

namespace Pool

-- ---------------------------------------------------------------------------
-- Threads at work
-- ---------------------------------------------------------------------------

/-- The futures that are not done fit into `max_workers`; `slots` names them. -/
def Fits (x : BatchExecutor) (p : Pool) : Prop :=
  ∃ slots : List Nat, slots.length ≤ x.maxWorkers ∧
    ∀ i f, p.futures[i]? = some f → f.state.isDone = false → i ∈ slots

theorem fits_start (x : BatchExecutor) (inputs : List LLMInput) : Fits x (start inputs) :=
  ⟨[], by simp, by simp [start]⟩

theorem fits_thread (hf : Fits x p) (h : threadStep x p i a = some p') : Fits x p' := by
  obtain ⟨slots, hlen, hslots⟩ := hf
  obtain ⟨f, st, hget, -, hst, rfl⟩ := threadStep_inv h
  refine ⟨slots, hlen, fun j g hg hdone => ?_⟩
  by_cases hij : i = j
  · subst hij
    exact hslots i f hget (FutureState.not_done_of_step hst)
  · exact hslots j g (by simpa [hij] using hg) hdone

theorem fits_cancel (hf : Fits x p) : Fits x (p.cancel i) := by
  obtain ⟨slots, hlen, hslots⟩ := hf
  refine ⟨slots, hlen, fun j g hg hdone => ?_⟩
  rw [getElem?_cancel] at hg
  obtain ⟨f, hget, rfl⟩ := Option.map_eq_some_iff.mp hg
  refine hslots j f hget ?_
  by_contra hd
  have hcancel : f.state.cancel.isDone = true := FutureState.isDone_cancel (by simpa using hd)
  split at hdone
  · simp [hcancel] at hdone
  · exact hd hdone

theorem fits_main (hw : Wf x inputs p) (hf : Fits x p) (h : MainStep x p p' out) : Fits x p' := by
  cases h with
  | submit hpc hrow hroom =>
    refine ⟨p.inFlight.map (·.1) ++ [p.futures.length], by simpa using Nat.succ_le_of_lt hroom, fun j g hg hdone => ?_⟩
    by_cases hj : j < p.futures.length
    · have hget : p.futures[j]? = some g := by simpa [submit, List.getElem?_append_left hj] using hg
      have hns : ¬g.state.Settled := by
        cases hs : g.state <;> simp [FutureState.isDone, FutureState.Settled, hs] at hdone ⊢
      have hmem := hw.unsettled (by simp [Broken, hpc]) j g hget hns
      simp only [owing, hpc] at hmem
      exact List.mem_append_left _ hmem
    · have hlen := (List.getElem?_eq_some_iff.mp hg).1
      obtain rfl : j = p.futures.length := by
        simp only [submit, List.length_append, List.length_singleton] at hlen
        omega
      simp
  | cancel => exact fits_cancel hf
  | _ => exact hf

theorem fits_step (hw : Wf x inputs p) (hf : Fits x p) (h : step x p a = some (p', out)) :
    Fits x p' := by
  cases a with
  | thread i a =>
    obtain ⟨q, hq, hpair⟩ := Option.map_eq_some_iff.mp h
    cases hpair
    exact fits_thread hf hq
  | main a => exact fits_main hw hf (mainStep_inv h)

-- ---------------------------------------------------------------------------
-- After the abort
-- ---------------------------------------------------------------------------

/-- The event is set and thread `j` is not on its way to a call. -/
def Quiet (j : Nat) (p : Pool) : Prop :=
  p.abortEvent = true ∧ ∀ f, p.futures[j]? = some f → ¬f.state.Attempting

theorem quiet_thread (hq : Quiet j p) (h : threadStep x p i a = some p') :
    Quiet j p' ∧ ¬(i = j ∧ a = .call) := by
  obtain ⟨hset, hquiet⟩ := hq
  have hset' : p'.abortEvent = true := by simp [abortEvent_thread h, hset]
  obtain ⟨f, st, hf, hsees, hst, rfl⟩ := threadStep_inv h
  by_cases hij : i = j
  · subst hij
    have hnot := hquiet f hf
    have hlt := (List.getElem?_eq_some_iff.mp hf).1
    have hstate : ¬st.Attempting ∧ a ≠ .call := by
      cases hs : f.state with
      | pending =>
        cases a <;> simp [hs, BatchExecutor.threadStep] at hst
        subst hst
        simp [FutureState.Attempting]
      | running phase =>
        rw [hs] at hnot hst
        cases phase <;> cases a <;>
          simp [BatchExecutor.threadStep, BatchExecutor.phaseStep, FutureState.Attempting] at hst hnot
        case entered.check isSet =>
          obtain rfl : isSet = true := by simpa [sees, hset] using hsees
          subst hst
          simp [FutureState.Attempting]
        case aborting.set => subst hst; simp [FutureState.Attempting]
        case returning.ret => obtain ⟨-, rfl⟩ := hst; simp [FutureState.Attempting]
        case raising.raise => obtain ⟨-, rfl⟩ := hst; simp [FutureState.Attempting]
      | _ => simp [hs, BatchExecutor.threadStep] at hst
    refine ⟨⟨hset', fun g hg => ?_⟩, fun h => hstate.2 h.2⟩
    obtain rfl : ⟨f.row, st⟩ = g := by simpa [hlt] using hg
    exact hstate.1
  · refine ⟨⟨hset', fun g hg => hquiet g (by simpa [hij] using hg)⟩, fun h => hij h.1⟩

theorem quiet_main (hq : Quiet j p) (h : MainStep x p p' out) : Quiet j p' := by
  obtain ⟨hset, hquiet⟩ := hq
  refine ⟨(abortEvent_main h).trans hset, fun g hg => ?_⟩
  rcases futures_main h with heq | ⟨row, heq⟩ | ⟨i, heq⟩
  · exact hquiet g (heq ▸ hg)
  · rw [heq] at hg
    rcases Nat.lt_trichotomy j p.futures.length with hlt | rfl | hgt
    · exact hquiet g (by rwa [List.getElem?_append_left hlt] at hg)
    · obtain rfl : ⟨row, .pending⟩ = g := by simpa using hg
      exact not_false
    · have hlen := (List.getElem?_eq_some_iff.mp hg).1
      simp only [List.length_append, List.length_singleton] at hlen
      omega
  · rw [heq, getElem?_cancel] at hg
    obtain ⟨f, hget, rfl⟩ := Option.map_eq_some_iff.mp hg
    have hnot := hquiet f hget
    split
    · cases hs : f.state <;> simp_all [FutureState.cancel, FutureState.Attempting]
    · exact hnot

/-- From a quiet state on, thread `j` makes no call. -/
theorem quiet_step (hq : Quiet j p) (h : step x p a = some (p', out)) :
    Quiet j p' ∧ a ≠ .thread j .call := by
  cases a with
  | thread i a =>
    obtain ⟨q, hstep, hpair⟩ := Option.map_eq_some_iff.mp h
    cases hpair
    obtain ⟨hq', hnot⟩ := quiet_thread hq hstep
    exact ⟨hq', fun heq => hnot (by simpa using heq)⟩
  | main a => exact ⟨quiet_main hq (mainStep_inv h), by simp⟩

def Begun (j : Nat) (p : Pool) : Prop := ∃ f, p.futures[j]? = some f ∧ f.state ≠ .pending

theorem begun_step (hb : Begun j p) (h : step x p a = some (p', out)) :
    Begun j p' ∧ a ≠ .thread j .start := by
  obtain ⟨f, hf, hne⟩ := hb
  cases a with
  | thread i a =>
    obtain ⟨q, hstep, hpair⟩ := Option.map_eq_some_iff.mp h
    cases hpair
    obtain ⟨g, st, hg, -, hst, rfl⟩ := threadStep_inv hstep
    by_cases hij : i = j
    · subst hij
      obtain rfl : g = f := by simpa [hf] using hg.symm
      have hlt := (List.getElem?_eq_some_iff.mp hf).1
      obtain ⟨hne', hstart⟩ := FutureState.begun_of_step hst
      refine ⟨⟨⟨g.row, st⟩, by simp [hlt], hne'⟩, ?_⟩
      intro heq
      exact hne (hstart (by simpa using heq))
    · exact ⟨⟨f, by simpa [hij] using hf, hne⟩, by simp [hij]⟩
  | main a =>
    refine ⟨?_, by simp⟩
    rcases futures_main (mainStep_inv h) with heq | ⟨row, heq⟩ | ⟨i, heq⟩
    · exact ⟨f, heq ▸ hf, hne⟩
    · exact ⟨f, by rw [heq, List.getElem?_append_left (List.getElem?_eq_some_iff.mp hf).1, hf], hne⟩
    · refine ⟨_, by rw [heq, getElem?_cancel, hf]; rfl, ?_⟩
      split
      · exact FutureState.cancel_ne_pending
      · exact hne

end Pool

-- ---------------------------------------------------------------------------
-- Who calls after the abort
-- ---------------------------------------------------------------------------

theorem processBatch_fits (h : (x.processBatch inputs).Run ⟨Pool.start inputs, []⟩ as s) :
    Pool.Fits x s.pool := by
  have both : Pool.Wf x inputs s.pool ∧ Pool.Fits x s.pool := by
    refine h.invariant (I := fun s => Pool.Wf x inputs s.pool ∧ Pool.Fits x s.pool)
      ⟨Pool.wf_start x inputs, Pool.fits_start x inputs⟩ ?_
    rintro s a s' ⟨hw, hf⟩ hst
    obtain ⟨⟨p', out⟩, hstep, rfl⟩ := Option.map_eq_some_iff.mp hst
    exact ⟨Pool.wf_step hw hstep, Pool.fits_step hw hf hstep⟩
  exact both.2

theorem attempting_of_call (h : (x.processBatch inputs).Run s as t) (hset : s.pool.abortEvent = true)
    (hcall : .thread j .call ∈ as) :
    ∃ f, s.pool.futures[j]? = some f ∧ f.state.Attempting := by
  by_contra hno
  have hquiet : Pool.Quiet j s.pool := ⟨hset, fun f hf hatt => hno ⟨f, hf, hatt⟩⟩
  have hexcl := h.excludes (I := fun s => Pool.Quiet j s.pool) (B := fun a => a = .thread j .call)
    hquiet (by
      intro s a s' hq hst
      obtain ⟨⟨p', out⟩, hstep, rfl⟩ := Option.map_eq_some_iff.mp hst
      exact Pool.quiet_step hq hstep)
  exact hexcl.2 _ hcall rfl

theorem not_begun_of_start (h : (x.processBatch inputs).Run s as t) (hstart : .thread j .start ∈ as) :
    ¬Pool.Begun j s.pool := by
  intro hbegun
  have hexcl := h.excludes (I := fun s => Pool.Begun j s.pool) (B := fun a => a = .thread j .start)
    hbegun (by
      intro s a s' hb hst
      obtain ⟨⟨p', out⟩, hstep, rfl⟩ := Option.map_eq_some_iff.mp hst
      exact Pool.begun_step hb hstep)
  exact hexcl.2 _ hstart rfl

theorem set_inv (h : (x.processBatch inputs).Run s (before ++ .thread i .set :: after) t) :
    ∃ m, (x.processBatch inputs).Run s (before ++ [.thread i .set]) m ∧
      (x.processBatch inputs).Run m after t ∧ m.pool.abortEvent = true ∧
      ∃ f result, m.pool.futures[i]? = some f ∧ f.state = .running (.returning result) := by
  rw [List.append_cons] at h
  obtain ⟨m, hbefore, hafter⟩ := h.append_inv
  obtain ⟨l, -, hst⟩ := hbefore.snoc_inv
  refine ⟨m, hbefore, hafter, ?_⟩
  obtain ⟨⟨p', out⟩, hstep, rfl⟩ := Option.map_eq_some_iff.mp hst
  obtain ⟨q, hq, hpair⟩ := Option.map_eq_some_iff.mp hstep
  cases hpair
  refine ⟨by simp [Pool.abortEvent_thread hq], ?_⟩
  obtain ⟨f, st, hf, -, hthread, rfl⟩ := Pool.threadStep_inv hq
  have hlt := (List.getElem?_eq_some_iff.mp hf).1
  cases hs : f.state with
  | running phase =>
    cases phase <;> simp [hs, BatchExecutor.threadStep, BatchExecutor.phaseStep] at hthread
    case aborting result =>
      subst hthread
      exact ⟨⟨f.row, .running (.returning result)⟩, result, by simp [hlt], rfl⟩
  | _ => simp [hs, BatchExecutor.threadStep] at hthread

/-- The threads that call after the abort share the workers with the one that set the event. -/
theorem callers_card_le
    (h : (x.processBatch inputs).Run ⟨Pool.start inputs, []⟩ (before ++ .thread i .set :: after) s)
    {callers : Finset Nat} (hcallers : ∀ j ∈ callers, .thread j .call ∈ after) :
    callers.card ≤ x.maxWorkers - 1 := by
  obtain ⟨m, hbefore, hafter, hset, f, result, hf, hst⟩ := set_inv h
  obtain ⟨slots, hlen, hslots⟩ := processBatch_fits hbefore
  have hi : i ∈ slots.toFinset := by
    simpa using hslots i f hf (by simp [hst, FutureState.isDone])
  have hsub : callers ⊆ slots.toFinset.erase i := by
    intro j hj
    obtain ⟨g, hg, hatt⟩ := attempting_of_call hafter hset (hcallers j hj)
    refine Finset.mem_erase.mpr ⟨?_, by simpa using hslots j g hg hatt.not_done⟩
    rintro rfl
    obtain rfl : f = g := by simpa [hf] using hg
    simp [hst, FutureState.Attempting] at hatt
  calc callers.card ≤ (slots.toFinset.erase i).card := Finset.card_le_card hsub
    _ = slots.toFinset.card - 1 := Finset.card_erase_of_mem hi
    _ ≤ x.maxWorkers - 1 := Nat.sub_le_sub_right (slots.toFinset_card_le.trans hlen) 1

/-- A row that starts after the abort makes no call in its whole life. -/
theorem late_never_calls
    (h : (x.processBatch inputs).Run ⟨Pool.start inputs, []⟩ (before ++ .thread i .set :: after) s)
    (hstart : .thread j .start ∈ after) : .thread j .call ∉ before ++ .thread i .set :: after := by
  obtain ⟨m, hbefore, hafter, hset, -⟩ := set_inv h
  have hnot := not_begun_of_start hafter hstart
  have hpending {f} (hf : m.pool.futures[j]? = some f) : f.state = .pending :=
    Classical.byContradiction fun hne => hnot ⟨f, hf, hne⟩
  rw [List.append_cons]
  intro hcall
  rcases List.mem_append.mp hcall with hcall | hcall
  · have hfollows := (processBatch_invariant hbefore).2.1 j
    rw [← mem_threadLabels] at hcall
    unfold Pool.Follows at hfollows
    cases hget : m.pool.futures[j]? with
    | none => simp [hget] at hfollows; simp [hfollows] at hcall
    | some f =>
      rw [hget] at hfollows
      rcases hfollows with ⟨-, hnil⟩ | hrun
      · simp [hnil] at hcall
      · simp [(thread_trace hrun).1 (hpending hget)] at hcall
  · obtain ⟨f, hf, hatt⟩ := attempting_of_call hafter hset hcall
    rw [hpending hf] at hatt
    exact hatt

-- ---------------------------------------------------------------------------
-- Each thread's story
-- ---------------------------------------------------------------------------

namespace Pool

variable {p : Pool}

theorem Follows.tells (h : Follows x as p j) :
    threadLabels j as = [] ∨ ∃ f, p.futures[j]? = some f ∧ x.Tells f.row (threadLabels j as) f.state := by
  unfold Follows at h
  cases hget : p.futures[j]? with
  | none => exact .inl (by simpa [hget] using h)
  | some f =>
    rw [hget] at h
    rcases h with ⟨-, hnil⟩ | hrun
    · exact .inl hnil
    · exact .inr ⟨f, rfl, BatchExecutor.thread_tells hrun⟩

theorem outcome_tells (hw : Wf x inputs p) (hpc : p.pc = .exhausted) (hf : Follows x as p i)
    (houtcome : (p.outcomes inputs)[i]? = some (row, result)) (hrow : inputs[i]? = some row) :
    (threadLabels i as = [] ∧ result = abortedResult row) ∨
      x.Tells row (threadLabels i as) (.finished result) := by
  unfold Follows at hf
  cases hget : p.futures[i]? with
  | none =>
    rw [hget] at hf
    rw [outcomes_of_absent hget hrow] at houtcome
    exact .inl ⟨hf, by cases houtcome; rfl⟩
  | some f =>
    rw [hget] at hf
    rw [outcomes_of_future hget] at houtcome
    obtain ⟨rfl, rfl⟩ : f.row = row ∧ f.value = result := by
      simpa [Future.promise] using houtcome
    have hsettled := hw.settled hpc hget
    rcases hf with ⟨hc, hnil⟩ | hrun
    · exact .inl ⟨hnil, by simp [Future.value, hc]⟩
    · have htells := BatchExecutor.thread_tells hrun
      cases hst : f.state with
      | finished result =>
        rw [hst] at htells
        exact .inr (by simpa [Future.value, hst] using htells)
      | cancelled => rw [hst] at htells; exact htells.elim
      | _ => simp [FutureState.Settled, hst] at hsettled

end Pool

theorem callsOf_threadLabels_le (h : (x.processBatch inputs).Run ⟨Pool.start inputs, []⟩ as s)
    (hN : 1 ≤ x.retryMaxAttempts) (j : Nat) : callsOf (threadLabels j as) ≤ x.retryMaxAttempts := by
  have hlimit : x.attemptLimit = x.retryMaxAttempts := by unfold BatchExecutor.attemptLimit; omega
  rcases ((processBatch_invariant h).2.1 j).tells with hnil | ⟨f, -, htells⟩
  · simp [hnil, callsOf]
  · exact hlimit ▸ BatchExecutor.tells_callsOf_le htells

-- ---------------------------------------------------------------------------
-- An iteration that raises
-- ---------------------------------------------------------------------------

namespace Pool

def Blamed (p : Pool) : Prop := p.Broken → ∃ i e, p.stateOf i = some (.raised e)

theorem blamed_thread (hb : Blamed p) (h : threadStep x p i a = some p') : Blamed p' := by
  intro hbroken
  obtain ⟨j, e, hst⟩ := hb ((broken_thread h).mp hbroken)
  obtain ⟨f, hf, hraised⟩ := stateOf_eq_some.mp hst
  obtain ⟨g, st, hg, -, hthread, rfl⟩ := threadStep_inv h
  by_cases hij : i = j
  · subst hij
    obtain rfl : g = f := by simpa [hf] using hg.symm
    simp [hraised, BatchExecutor.threadStep] at hthread
  · exact ⟨j, e, stateOf_eq_some.mpr ⟨f, by simpa [hij] using hf, hraised⟩⟩

theorem blamed_main (hb : Blamed p) (h : MainStep x p p' out) : Blamed p' := by
  cases h with
  | drainRaised hpc hst => exact fun _ => ⟨_, _, hst⟩
  | collectRaised hpc hst => exact fun _ => ⟨_, _, hst⟩
  | unwound hpc => exact fun _ => hb (by simp [Broken, hpc])
  | submit hpc => exact fun hbroken => absurd hbroken (by simp [submit, Broken, hpc])
  | cancel hpc => exact fun hbroken => absurd hbroken (by simp [Broken])
  | _ => exact fun hbroken => absurd hbroken (by simp [Broken])

theorem blamed_step (hb : Blamed p) (h : step x p a = some (p', out)) : Blamed p' := by
  cases a with
  | thread i a =>
    obtain ⟨q, hq, hpair⟩ := Option.map_eq_some_iff.mp h
    cases hpair
    exact blamed_thread hb hq
  | main a => exact blamed_main hb (mainStep_inv h)

end Pool

/-- No row that finds the event clear nests too deep. -/
def Shallow (x : BatchExecutor) (inputs : List LLMInput) (as : List PoolAction) : Prop :=
  ∀ i row, inputs[i]? = some row → .thread i (.check false) ∈ as → ¬x.NestsTooDeep row

theorem not_broken_of_shallow (h : (x.processBatch inputs).Run ⟨Pool.start inputs, []⟩ as s)
    (hpy : x.py.LoadsRaises) (hshallow : Shallow x inputs as) : ¬s.pool.Broken := by
  obtain ⟨hw, hf, -⟩ := processBatch_invariant h
  have hblamed : Pool.Blamed s.pool := by
    refine h.invariant (I := fun s => Pool.Blamed s.pool) (by simp [Pool.Blamed, Pool.Broken, Pool.start]) ?_
    intro s a s' hb hst
    obtain ⟨⟨p', out⟩, hstep, rfl⟩ := Option.map_eq_some_iff.mp hst
    exact Pool.blamed_step hb hstep
  intro hbroken
  obtain ⟨i, e, hraised⟩ := hblamed hbroken
  obtain ⟨f, hget, hst⟩ := Pool.stateOf_eq_some.mp hraised
  have hrow := Pool.row_of_future hw hget
  have hstory : (x.thread f.row).Run .pending (threadLabels i as) f.state := by
    have hfollows := hf i
    unfold Pool.Follows at hfollows
    rw [hget] at hfollows
    rcases hfollows with ⟨hc, -⟩ | hrun
    · simp [hst] at hc
    · exact hrun
  have htells := BatchExecutor.thread_tells hstory
  rw [hst] at htells
  obtain ⟨hcheck, -, -, hparse, hnone⟩ := htells
  have hmem : .thread i (.check false) ∈ as := by
    rw [← mem_threadLabels, ← mem_checksOf, hcheck]
    simp
  exact hshallow i f.row hrow hmem ((BatchExecutor.parseRow_escapes_iff hpy f.row).mp ⟨e, hparse, hnone⟩)

-- ---------------------------------------------------------------------------
-- An iteration without an abort
-- ---------------------------------------------------------------------------

namespace Pool

/-- With the event clear no future is cancelled, and the main loop has left its
loops only after all rows were submitted and taken. -/
def Clear (inputs : List LLMInput) (p : Pool) : Prop :=
  p.abortEvent = false → (∀ f ∈ p.futures, f.state ≠ .cancelled) ∧
    match p.pc with
    | .cancelling rest => rest = [] ∧ p.inFlight = [] ∧ inputs.length ≤ p.futures.length
    | .collecting rest => rest = [] ∧ inputs.length ≤ p.futures.length
    | .closing | .emitting _ | .exhausted => inputs.length ≤ p.futures.length
    | _ => True

theorem clear_thread (hc : Clear inputs p) (h : threadStep x p i a = some p') : Clear inputs p' := by
  obtain ⟨f, st, hf, -, hst, rfl⟩ := threadStep_inv h
  intro hset
  have hevent : p.abortEvent = false ∧ a ≠ .set := by simpa using hset
  obtain ⟨hnone, hpc⟩ := hc hevent.1
  refine ⟨fun g hg => ?_, ?_⟩
  · rcases List.mem_or_eq_of_mem_set hg with hmem | rfl
    · exact hnone g hmem
    · exact FutureState.not_cancelled_of_step hst
  · simpa using hpc

theorem clear_main (hw : Wf x inputs p) (hc : Clear inputs p) (h : MainStep x p p' out) :
    Clear inputs p' := by
  have hevent := abortEvent_main h
  intro hset
  rw [hset] at hevent
  obtain ⟨hnone, hpc'⟩ := hc hevent.symm
  cases h with
  | submit hpc =>
    refine ⟨fun f hf => ?_, by simp [submit, hpc]⟩
    rcases List.mem_append.mp hf with hmem | hnew
    · exact hnone f hmem
    · obtain rfl : f = _ := by simpa using hnew
      simp
  | idle hpc hidle =>
    have hfull := hw.full hpc
    have hpos := x.maxWorkers_pos
    obtain ⟨hpending, -⟩ := hw.pending (by simp [Submitting, hpc])
    have hall : p.pendingInputs = [] := by
      rcases hfull with hnil | hle
      · exact hnil
      · simp [hidle] at hle
        omega
    have hlen : inputs.length ≤ p.futures.length := by
      rw [hpending] at hall
      exact List.drop_eq_nil_iff.mp hall
    exact ⟨hnone, rfl, hidle, hlen⟩
  | abort hpc haborted => simp [haborted] at hevent
  | cancel hpc => simp [hpc] at hpc'
  | cancelled hpc =>
    simp only [hpc] at hpc'
    exact ⟨hnone, hpc'.2.1, hpc'.2.2⟩
  | keep hpc => simp [hpc] at hpc'
  | collect hpc => simp [hpc] at hpc'
  | collected hpc =>
    simp only [hpc] at hpc'
    exact ⟨hnone, hpc'.2⟩
  | closed hpc => exact ⟨hnone, by simpa [hpc] using hpc'⟩
  | emit hpc => exact ⟨hnone, by simpa [hpc] using hpc'⟩
  | emitted hpc => exact ⟨hnone, by simpa [hpc] using hpc'⟩
  | _ => exact ⟨hnone, trivial⟩

theorem clear_step (hw : Wf x inputs p) (hc : Clear inputs p) (h : step x p a = some (p', out)) :
    Clear inputs p' := by
  cases a with
  | thread i a =>
    obtain ⟨q, hq, hpair⟩ := Option.map_eq_some_iff.mp h
    cases hpair
    exact clear_thread hc hq
  | main a => exact clear_main hw hc (mainStep_inv h)

/-- The event is set, and read as set, only after some thread has set it. -/
def Told (as : List PoolAction) (p : Pool) : Prop :=
  p.abortEvent = true ∨ (∃ i, .thread i (.check true) ∈ as) → ∃ i, .thread i .set ∈ as

theorem told_step (ht : Told as p) (h : step x p a = some (p', out)) : Told (as ++ [a]) p' := by
  have keep {b} (hb : ∃ i, PoolAction.thread i .set ∈ as) : ∃ i, .thread i .set ∈ as ++ [b] := by
    obtain ⟨i, hi⟩ := hb
    exact ⟨i, List.mem_append_left _ hi⟩
  cases a with
  | thread j b =>
    obtain ⟨q, hq, hpair⟩ := Option.map_eq_some_iff.mp h
    cases hpair
    obtain ⟨f, st, -, hsees, -, rfl⟩ := threadStep_inv hq
    by_cases hb : b = .set
    · subst hb
      exact fun _ => ⟨j, by simp⟩
    · rintro (hset | ⟨i, hi⟩)
      · exact keep (ht (.inl (by simpa [hb] using hset)))
      · rcases List.mem_append.mp hi with hold | hnew
        · exact keep (ht (.inr ⟨i, hold⟩))
        · obtain ⟨-, rfl⟩ : i = j ∧ b = .check true := by simpa [eq_comm] using hnew
          have hset : true = p.abortEvent := by simpa [sees] using hsees
          exact keep (ht (.inl hset.symm))
  | main b =>
    have hevent := abortEvent_main (mainStep_inv h)
    rintro (hset | ⟨i, hi⟩)
    · exact keep (ht (.inl (hevent ▸ hset)))
    · exact keep (ht (.inr ⟨i, by simpa using hi⟩))

end Pool

/-- The exception in which a row's last attempt ended, the provider's own or
that of `json.dumps` on its response. -/
def FinalError (x : BatchExecutor) (as : List ThreadAction) (e : Exc) : Prop :=
  ∃ outcome, (answersOf as).getLast? = some outcome ∧
    (do let response ← outcome; x.py.dumps response.output : Result String) = .error e

theorem conclude_finalError (x : BatchExecutor) (row : LLMInput)
    (hlast : (answersOf as).getLast? = some outcome) :
    (∃ text, x.conclude row outcome = (row.completed text, false)) ∨
      ∃ e, FinalError x as e ∧ x.conclude row outcome =
        (row.failed e.text, decide (x.classifyError e = .abortBatch)) := by
  unfold BatchExecutor.conclude
  cases h : (do let response ← outcome; x.py.dumps response.output : Result String) with
  | ok text => exact .inl ⟨text, rfl⟩
  | error e => exact .inr ⟨e, ⟨outcome, hlast, h⟩, rfl⟩

theorem rowError_ne (h : rowError e = some text) : text ≠ "Batch aborted" := by
  rintro rfl
  have hhead := congrArg (Option.map fun s : String => s.toList.head?) h
  unfold rowError at hhead
  split at hhead <;> simp at hhead

section
variable {as : List PoolAction} {s : Collected} (h : (x.processBatch inputs).Run ⟨Pool.start inputs, []⟩ as s)
include h

theorem processBatch_clear : Pool.Clear inputs s.pool ∧ Pool.Told as s.pool := by
  have all : Pool.Wf x inputs s.pool ∧ Pool.Clear inputs s.pool ∧ Pool.Told as s.pool := by
    refine h.trace_invariant (J := fun as s =>
      Pool.Wf x inputs s.pool ∧ Pool.Clear inputs s.pool ∧ Pool.Told as s.pool) ?_ ?_
    · exact ⟨Pool.wf_start x inputs, by simp [Pool.Clear, Pool.start], by simp [Pool.Told, Pool.start]⟩
    · rintro as s a s' ⟨hw, hc, ht⟩ hst
      obtain ⟨⟨p', out⟩, hstep, rfl⟩ := Option.map_eq_some_iff.mp hst
      exact ⟨Pool.wf_step hw hstep, Pool.clear_step hw hc hstep, Pool.told_step ht hstep⟩
  exact all.2

theorem no_set (hpc : s.pool.pc = .exhausted)
    (hfinal : ∀ i e, FinalError x (threadLabels i as) e → x.classifyError e ≠ .abortBatch) (i : Nat) :
    .thread i .set ∉ as := by
  obtain ⟨hw, hf, -⟩ := processBatch_invariant h
  rw [← mem_threadLabels]
  intro hset
  rcases (hf i).tells with hnil | ⟨f, hget, htells⟩
  · simp [hnil] at hset
  · have hsettled := hw.settled hpc hget
    cases hst : f.state with
    | finished result =>
      rw [hst] at htells
      rcases htells with ⟨-, -, hnot, -⟩ | ⟨aborts, ⟨-, -, retried, last, hanswers, -, -, hpair⟩, hiff⟩
      · exact hnot hset
      · have hlast : (answersOf (threadLabels i as)).getLast? = some last := by simp [hanswers]
        rcases conclude_finalError x f.row hlast with ⟨text, heq⟩ | ⟨e, he, heq⟩
        · have haborts : aborts = false := by simpa [heq] using (congrArg (·.2) hpair).symm
          simp [haborts] at hiff
          exact hiff hset
        · have haborts : aborts = decide (x.classifyError e = .abortBatch) := by
            simpa [heq] using (congrArg (·.2) hpair).symm
          simp [haborts, hfinal i e he] at hiff
          exact hiff hset
    | cancelled => rw [hst] at htells; exact htells.elim
    | _ => simp [FutureState.Settled, hst] at hsettled

theorem thread_finished (hpc : s.pool.pc = .exhausted) (hset : ∀ i, .thread i .set ∉ as)
    (houtcome : (s.pool.outcomes inputs)[i]? = some (row, result)) (hrow : inputs[i]? = some row) :
    (x.thread row).Run .pending (threadLabels i as) (.finished result) ∧
      .check true ∉ threadLabels i as := by
  obtain ⟨hw, hf, -⟩ := processBatch_invariant h
  obtain ⟨hclear, htold⟩ := processBatch_clear h
  have hnone : ¬∃ i, .thread i .set ∈ as := fun ⟨i, hi⟩ => hset i hi
  have hcheck : .check true ∉ threadLabels i as := by
    rw [mem_threadLabels]
    exact fun hmem => hnone (htold (.inr ⟨i, hmem⟩))
  have hevent : s.pool.abortEvent = false := by
    by_contra hne
    exact hnone (htold (.inl (by simpa using hne)))
  obtain ⟨hkept, hlen⟩ := hclear hevent
  simp only [hpc] at hlen
  have hi : i < s.pool.futures.length := (List.getElem?_eq_some_iff.mp hrow).1.trans_le hlen
  have hget : s.pool.futures[i]? = some s.pool.futures[i] := List.getElem?_eq_getElem hi
  have hsettled := hw.settled hpc hget
  have hfollows := hf i
  unfold Pool.Follows at hfollows
  rw [hget] at hfollows
  rw [Pool.outcomes_of_future hget] at houtcome
  obtain ⟨rfl, rfl⟩ : s.pool.futures[i].row = row ∧ s.pool.futures[i].value = result := by
    simpa [Future.promise] using houtcome
  rcases hfollows with ⟨hc, -⟩ | hrun
  · exact absurd hc (hkept _ (List.getElem_mem hi))
  · cases hst : s.pool.futures[i].state with
    | finished result =>
      rw [hst] at hrun
      exact ⟨by simpa [Future.value, hst] using hrun, hcheck⟩
    | cancelled => exact absurd hst (hkept _ (List.getElem_mem hi))
    | _ => simp [FutureState.Settled, hst] at hsettled

end

/-- A finished thread that found the event clear has the value of `invoke`, and
reports an abort only as the text of its own final error. -/
theorem finished_value (h : (x.thread row).Run .pending as (.finished result))
    (hcheck : .check true ∉ as) :
    (∀ rest, (x.invoke row (some false) fun _ => answersOf as ++ₛ rest).1 = .ok result) ∧
      (result.error = "Batch aborted" → ∃ e, FinalError x as e ∧ e.text = "Batch aborted") := by
  constructor
  · rcases BatchExecutor.thread_value h with ⟨hst | hst, -⟩ | ⟨isSet, hmem, hvalue⟩
    · cases hst
    · cases hst
    · obtain rfl : isSet = false := by
        by_contra hne
        obtain rfl : isSet = true := by simpa using hne
        exact hcheck hmem
      exact fun rest => (by simpa [BatchExecutor.value] using (hvalue rest).symm)
  · intro herror
    rcases BatchExecutor.thread_tells h with ⟨-, -, -, ⟨hc, -⟩ | ⟨-, e, -, hresult⟩⟩ | ⟨aborts, ⟨-, -, retried, last, hanswers, -, -, hpair⟩, -⟩
    · exact absurd (mem_checksOf.mp (by simp [hc])) hcheck
    · obtain ⟨text, htext, rfl⟩ := Option.map_eq_some_iff.mp hresult
      exact absurd herror (rowError_ne htext)
    · have hlast : (answersOf as).getLast? = some last := by simp [hanswers]
      rcases conclude_finalError x row hlast with ⟨text, heq⟩ | ⟨e, he, heq⟩
      · obtain rfl : row.completed text = result := by simpa [heq] using congrArg (·.1) hpair
        simp [LLMInput.completed] at herror
      · obtain rfl : row.failed e.text = result := by simpa [heq] using congrArg (·.1) hpair
        exact ⟨e, he, herror⟩

/-- An abort stays within its page. Once a thread has set the event, no row
that starts afterwards ever calls the provider, and fewer than `max_workers`
rows call it at all; no row calls it more than `retry_max_attempts` times. As
long as no row that finds the event clear nests too deep, the iteration does
not raise. When it is over each acceptable row without a call is reported as
aborted; if no final error aborts the batch, the results are those of `invoke`,
and a row is reported as aborted only where its final error has that very text. -/
theorem abort_contained (h : (x.processBatch inputs).Run ⟨Pool.start inputs, []⟩ as s)
    (hN : 1 ≤ x.retryMaxAttempts) :
    (∀ before i after, as = before ++ .thread i .set :: after →
      (∀ j, .thread j .start ∈ after → .thread j .call ∉ as) ∧
      ∀ callers : Finset Nat, (∀ j ∈ callers, .thread j .call ∈ after) →
        callers.card ≤ x.maxWorkers - 1) ∧
    (∀ j, callsOf (threadLabels j as) ≤ x.retryMaxAttempts) ∧
    (x.py.LoadsRaises → Shallow x inputs as → ¬s.pool.Broken) ∧
    (s.pool.pc = .exhausted → ∃ outcome : Fin inputs.length → LLMResult,
      s.results.Perm (List.ofFn outcome) ∧
      (∀ i : Fin inputs.length, (∃ request, x.parseRow inputs[i] = .ok request) → .thread i .call ∉ as →
        outcome i = abortedResult inputs[i]) ∧
      ((∀ i e, FinalError x (threadLabels i as) e → x.classifyError e ≠ .abortBatch) →
        ∀ i : Fin inputs.length,
          (∀ rest, (x.invoke inputs[i] (some false) fun _ => answersOf (threadLabels i as) ++ₛ rest).1 =
            .ok (outcome i)) ∧
          ((∀ e, FinalError x (threadLabels i as) e → e.text ≠ "Batch aborted") →
            (outcome i).error ≠ "Batch aborted"))) := by
  refine ⟨?_, callsOf_threadLabels_le h hN, not_broken_of_shallow h, ?_⟩
  · rintro before i after rfl
    exact ⟨fun j hj => late_never_calls h hj, fun callers hc => callers_card_le h hc⟩
  · intro hpc
    obtain ⟨outcome, hperm, hget⟩ := outcomes_collected h hpc
    refine ⟨outcome, hperm, ?_, ?_⟩
    · rintro i ⟨request, hparse⟩ hcall
      obtain ⟨hw, hf, -⟩ := processBatch_invariant h
      rw [← mem_threadLabels, call_mem_iff, not_not] at hcall
      rcases Pool.outcome_tells hw hpc (hf i) (hget i) (List.getElem?_eq_getElem i.2) with
        ⟨-, hresult⟩ | ⟨-, -, -, ⟨-, hresult⟩ | ⟨-, e, he, -⟩⟩ | ⟨aborts, ⟨-, -, retried, last, -, -, hcalls, -⟩, -⟩
      · exact hresult
      · exact hresult
      · exact absurd (hparse.symm.trans he) (by simp)
      · omega
    · intro hfinal i
      obtain ⟨hrun, hcheck⟩ := thread_finished h hpc (no_set h hpc hfinal) (hget i)
        (List.getElem?_eq_getElem i.2)
      obtain ⟨hvalue, haborted⟩ := finished_value hrun hcheck
      refine ⟨hvalue, fun htext herror => ?_⟩
      obtain ⟨e, he, heq⟩ := haborted herror
      exact htext e he heq

-- ---------------------------------------------------------------------------
-- Sample iterations
-- ---------------------------------------------------------------------------

theorem sampleStdlib_loadsRaises : sampleStdlib.LoadsRaises := by
  intro text e h
  unfold sampleStdlib at h
  simp only at h
  split at h
  · cases h
  · cases h
    exact .inl rfl

theorem plainRow_shallow (b r : UUID) : ¬(bedrockExecutor n hn).NestsTooDeep (plainRow b r) := by
  simp [BatchExecutor.NestsTooDeep, BatchExecutor.TooDeep, BatchExecutor.loadsColumn, plainRow]

theorem aborted_page_contained :
    ∃ s, ((bedrockExecutor 1 Nat.one_pos).processBatch [plainRow 1 1, plainRow 1 2]).Run
        ⟨Pool.start [plainRow 1 1, plainRow 1 2], []⟩ abortedPage s ∧
      callsOf (threadLabels 0 abortedPage) ≤ 5 ∧ ¬s.pool.Broken ∧
      ∃ outcome : Fin 2 → LLMResult, s.results.Perm (List.ofFn outcome) ∧
        outcome 1 = abortedResult (plainRow 1 2) := by
  obtain ⟨s, hrun, hpc⟩ := abortedPage_run
  have hshallow : Shallow (bedrockExecutor 1 Nat.one_pos) [plainRow 1 1, plainRow 1 2] abortedPage := by
    intro i row hrow _
    have hmem := List.mem_of_getElem? hrow
    rcases List.mem_pair.mp hmem with rfl | rfl <;> exact plainRow_shallow _ _
  obtain ⟨-, hcalls, hkept, hover⟩ := abort_contained hrun (by decide)
  obtain ⟨outcome, hperm, haborted, -⟩ := hover hpc
  exact ⟨s, hrun, hcalls 0, hkept sampleStdlib_loadsRaises hshallow, outcome, hperm, haborted 1 ⟨_, rfl⟩ (by decide)⟩

-- A row that nests too deep, in front of one that is never submitted.

def deepRows (deep : String) : List LLMInput := [rowWithParams deep, plainRow 1 2]

/-- The page up to the start of its first thread, and from the answer to its check on. -/
def deepPageStart : List PoolAction := resumes 2 ++ onThread 0 [.start]
def deepPageEnd : List PoolAction := [.thread 0 (.raise recursionError), .main (.wait [0])] ++ resumes 2

def deepPool (deep : String) (pc : PoolPc) (st : FutureState) (inFlight : List (Nat × LLMInput)) : Pool :=
  ⟨pc, [plainRow 1 2], [⟨rowWithParams deep, st⟩], inFlight, [], false⟩

theorem deepPage_run (hdeep : deep ≠ "") :
    ((deepExecutor deep).processBatch (deepRows deep)).Run ⟨Pool.start (deepRows deep), []⟩
      (deepPageStart ++ .thread 0 (.check false) :: deepPageEnd)
      ⟨deepPool deep (.raised recursionError) (.raised recursionError) [], []⟩ := by
  have hparse := parseRow_deep hdeep
  have hcheck : (deepExecutor deep).threadStep (rowWithParams deep) (.running .entered) (.check false) =
      some (.running (.raising recursionError)) := by
    simp [BatchExecutor.threadStep, BatchExecutor.phaseStep, BatchExecutor.enter, hparse, rowError,
      recursionError]
  have hstart : LTS.exec (deepExecutor deep).collect ⟨Pool.start (deepRows deep), []⟩ deepPageStart =
      some ⟨deepPool deep .head (.running .entered) [(0, rowWithParams deep)], []⟩ := rfl
  have hstep : (deepExecutor deep).collect
      ⟨deepPool deep .head (.running .entered) [(0, rowWithParams deep)], []⟩ (.thread 0 (.check false)) =
      some ⟨deepPool deep .head (.running (.raising recursionError)) [(0, rowWithParams deep)], []⟩ := by
    simp [BatchExecutor.collect, Pool.step, Pool.threadStep, deepPool, Pool.sees, hcheck]
  have hend : LTS.exec (deepExecutor deep).collect
      ⟨deepPool deep .head (.running (.raising recursionError)) [(0, rowWithParams deep)], []⟩ deepPageEnd =
      some ⟨deepPool deep (.raised recursionError) (.raised recursionError) [], []⟩ := rfl
  exact (LTS.run_of_exec hstart).append (.cons hstep (LTS.run_of_exec hend))

/-- One row ends the page with an exception, and an acceptable row that never
called the provider is not yielded at all. -/
theorem deep_row_drops_next :
    ∃ as s, ((deepExecutor deepText).processBatch [rowWithParams deepText, plainRow 1 2]).Run
        ⟨Pool.start [rowWithParams deepText, plainRow 1 2], []⟩ as s ∧
      s.pool.pc = .raised recursionError ∧
      (∃ request, (deepExecutor deepText).parseRow (plainRow 1 2) = .ok request) ∧
      .thread 1 .call ∉ as ∧ abortedResult (plainRow 1 2) ∉ s.results := by
  refine ⟨_, _, deepPage_run deepText_ne, rfl, ⟨_, rfl⟩, ?_, by simp⟩
  simp [deepPageStart, deepPageEnd, resumes, onThread]

end LlmWorker
