import LlmWorker.Executor.ExactlyOnce

/-!
# The attempts of one row

What the actions of a pool thread say about its row at every point of
`invoke`, and from it the law of the retry loop: which attempt decides the
row, what the row gets, and whether it sets the abort event.
-/

namespace LlmWorker

open Python Transition

def checksOf : List ThreadAction → List Bool
  | [] => []
  | .check isSet :: as => isSet :: checksOf as
  | _ :: as => checksOf as

@[simp] theorem checksOf_append (as bs : List ThreadAction) :
    checksOf (as ++ bs) = checksOf as ++ checksOf bs := by
  induction as with
  | nil => rfl
  | cons a as ih => cases a <;> simp [checksOf, ih]

theorem mem_checksOf {as : List ThreadAction} : isSet ∈ checksOf as ↔ .check isSet ∈ as := by
  induction as with
  | nil => simp [checksOf]
  | cons a as ih => cases a <;> simp [checksOf, ih]

def callsOf (as : List ThreadAction) : Nat := as.count .call

@[simp] theorem callsOf_snoc (as : List ThreadAction) (a : ThreadAction) :
    callsOf (as ++ [a]) = callsOf as + if a = .call then 1 else 0 := by
  simp [callsOf, List.count_append, List.count_singleton]

theorem call_mem_iff {as : List ThreadAction} : .call ∈ as ↔ callsOf as ≠ 0 := by
  simp [callsOf, List.count_eq_zero]

namespace BatchExecutor

variable (x : BatchExecutor)

def attemptLimit : Nat := x.retryMaxAttempts - 1 + 1

/-- The attempts of a finished retry loop: only the last one is not retried,
or else it was the last one allowed. -/
structure Decided (retried : List (Result LLMResponse)) (last : Result LLMResponse) : Prop where
  again : ∀ outcome ∈ retried, x.retryable outcome = true
  within : retried.length < x.attemptLimit
  done : x.retryable last = true → retried.length + 1 = x.attemptLimit

/-- A row that ended before its first call. -/
def Skipped (row : LLMInput) (as : List ThreadAction) (result : LLMResult) : Prop :=
  callsOf as = 0 ∧ answersOf as = [] ∧ .set ∉ as ∧
    (checksOf as = [true] ∧ result = abortedResult row ∨
      checksOf as = [false] ∧ ∃ e, x.parseRow row = .error e ∧
        (rowError e).map row.failed = some result)

/-- A row whose retry loop has finished. -/
def Concluded (row : LLMInput) (as : List ThreadAction) (result : LLMResult) (aborts : Bool) : Prop :=
  checksOf as = [false] ∧ (∃ request, x.parseRow row = .ok request) ∧
    ∃ retried last, answersOf as = retried ++ [last] ∧ x.Decided retried last ∧
      callsOf as = retried.length + 1 ∧ x.conclude row last = (result, aborts)

/-- What a thread's actions say at each point of `invoke`. -/
def Tells (row : LLMInput) (as : List ThreadAction) : FutureState → Prop
  | .pending | .running .entered =>
    checksOf as = [] ∧ callsOf as = 0 ∧ answersOf as = [] ∧ .set ∉ as
  | .cancelled => False
  | .running (.attempting request left) =>
    checksOf as = [false] ∧ x.parseRow row = .ok request ∧ callsOf as = (answersOf as).length ∧
      (answersOf as).length + left + 1 = x.attemptLimit ∧
      (∀ outcome ∈ answersOf as, x.retryable outcome = true) ∧ .set ∉ as
  | .running (.calling request left) =>
    checksOf as = [false] ∧ x.parseRow row = .ok request ∧ callsOf as = (answersOf as).length + 1 ∧
      (answersOf as).length + left + 1 = x.attemptLimit ∧
      (∀ outcome ∈ answersOf as, x.retryable outcome = true) ∧ .set ∉ as
  | .running (.aborting result) => x.Concluded row as result true ∧ .set ∉ as
  | .running (.returning result) | .finished result =>
    x.Skipped row as result ∨ ∃ aborts, x.Concluded row as result aborts ∧ (.set ∈ as ↔ aborts = true)
  | .running (.raising e) | .raised e =>
    checksOf as = [false] ∧ callsOf as = 0 ∧ .set ∉ as ∧ x.parseRow row = .error e ∧ rowError e = none

variable {x} {row : LLMInput}

theorem Skipped.keep (h : x.Skipped row as result) (hcheck : checksOf (as ++ [a]) = checksOf as)
    (hcall : a ≠ .call) (hanswer : answersOf (as ++ [a]) = answersOf as) (hset : a ≠ .set) :
    x.Skipped row (as ++ [a]) result := by
  unfold Skipped at h ⊢
  rw [hcheck, hanswer, callsOf_snoc, if_neg hcall]
  simpa [Ne.symm hset] using h

theorem Concluded.keep (h : x.Concluded row as result aborts)
    (hcheck : checksOf (as ++ [a]) = checksOf as) (hcall : a ≠ .call)
    (hanswer : answersOf (as ++ [a]) = answersOf as) : x.Concluded row (as ++ [a]) result aborts := by
  unfold Concluded at h ⊢
  rw [hcheck, hanswer, callsOf_snoc, if_neg hcall]
  exact h

theorem tells_enter (h : checksOf as = [] ∧ callsOf as = 0 ∧ answersOf as = [] ∧ .set ∉ as) :
    x.Tells row (as ++ [.check false]) (.running (x.enter row)) := by
  obtain ⟨hcheck, hcall, hanswer, hset⟩ := h
  have hcheck' : checksOf (as ++ [.check false]) = [false] := by simp [hcheck, checksOf]
  have hcall' : callsOf (as ++ [.check false]) = 0 := by simp [hcall]
  have hanswer' : answersOf (as ++ [.check false]) = [] := by simp [answersOf_append, hanswer, answersOf]
  have hset' : .set ∉ as ++ [.check false] := by simp [hset]
  cases hparse : x.parseRow row with
  | ok request =>
    have hphase : x.enter row = .attempting request (x.retryMaxAttempts - 1) := by simp [enter, hparse]
    rw [hphase]
    refine ⟨hcheck', hparse, by rw [hcall', hanswer']; rfl, ?_, by simp [hanswer'], hset'⟩
    rw [hanswer', attemptLimit]
    simp
  | error e =>
    cases herror : rowError e with
    | some text =>
      have hphase : x.enter row = .returning (row.failed text) := by simp [enter, hparse, herror]
      rw [hphase]
      exact .inl ⟨hcall', hanswer', hset', .inr ⟨hcheck', e, hparse, by simp [herror]⟩⟩
    | none =>
      have hphase : x.enter row = .raising e := by simp [enter, hparse, herror]
      rw [hphase]
      exact ⟨hcheck', hcall', hset', hparse, herror⟩

theorem tells_react (h : x.Tells row as (.running (.calling request left))) :
    x.Tells row (as ++ [.answer outcome]) (.running (x.react row request left outcome)) := by
  obtain ⟨hcheck, hparse, hcall, hleft, hretried, hset⟩ := h
  have hcheck' : checksOf (as ++ [.answer outcome]) = [false] := by simp [hcheck, checksOf]
  have hcall' : callsOf (as ++ [.answer outcome]) = (answersOf as).length + 1 := by simp [hcall]
  have hanswer' : answersOf (as ++ [.answer outcome]) = answersOf as ++ [outcome] := by
    simp [answersOf_append, answersOf]
  have hset' : .set ∉ as ++ [.answer outcome] := by simp [hset]
  unfold react
  split
  · rename_i hretry
    refine ⟨hcheck', hparse, ?_, ?_, ?_, hset'⟩
    · rw [hcall', hanswer', List.length_append, List.length_singleton]
    · rw [hanswer', List.length_append, List.length_singleton]
      omega
    · rw [hanswer']
      intro o ho
      rcases List.mem_append.mp ho with hold | hnew
      · exact hretried o hold
      · obtain rfl : o = outcome := by simpa using hnew
        exact hretry.2
  · rename_i hlast
    have hdecided : x.Decided (answersOf as) outcome := by
      refine ⟨hretried, by omega, fun hretry => ?_⟩
      have hzero : ¬0 < left := fun hpos => hlast ⟨hpos, hretry⟩
      omega
    have hconcluded {result aborts} (h : x.conclude row outcome = (result, aborts)) :
        x.Concluded row (as ++ [.answer outcome]) result aborts :=
      ⟨hcheck', ⟨request, hparse⟩, _, _, hanswer', hdecided, hcall', h⟩
    cases hpair : x.conclude row outcome with
    | mk result aborts =>
      cases aborts with
      | true => exact ⟨hconcluded hpair, hset'⟩
      | false => exact .inr ⟨false, hconcluded hpair, by simp [hset']⟩

theorem tells_step (h : x.threadStep row st a = some st') (ht : x.Tells row as st) :
    x.Tells row (as ++ [a]) st' := by
  cases st with
  | pending =>
    cases a <;> simp [threadStep] at h
    subst h
    simpa [Tells, checksOf, answersOf_append, answersOf] using ht
  | running phase =>
    cases phase <;> cases a <;> simp [threadStep, phaseStep] at h
    case entered.check isSet =>
      subst h
      cases isSet with
      | false => exact tells_enter ht
      | true =>
        obtain ⟨hcheck, hcall, hanswer, hset⟩ := ht
        refine .inl ⟨by simp [hcall], by simp [answersOf_append, hanswer, answersOf], by simp [hset], ?_⟩
        exact .inl ⟨by simp [hcheck, checksOf], rfl⟩
    case attempting.call =>
      subst h
      simpa [Tells, checksOf, answersOf_append, answersOf] using ht
    case calling.answer =>
      subst h
      exact tells_react ht
    case aborting.set =>
      subst h
      have hkeep := ht.1.keep (a := .set) (by simp [checksOf]) (by simp)
        (by simp [answersOf_append, answersOf])
      exact .inr ⟨true, hkeep, by simp⟩
    case returning.ret =>
      obtain ⟨rfl, rfl⟩ := h
      rcases ht with hskip | ⟨aborts, hconcluded, hset⟩
      · exact .inl (hskip.keep (by simp [checksOf]) (by simp) (by simp [answersOf_append, answersOf])
          (by simp))
      · exact .inr ⟨aborts, hconcluded.keep (by simp [checksOf]) (by simp)
          (by simp [answersOf_append, answersOf]), by simpa using hset⟩
    case raising.raise =>
      obtain ⟨rfl, rfl⟩ := h
      simpa [Tells, checksOf] using ht
  | _ => simp [threadStep] at h

theorem tells_callsOf_le (h : x.Tells row as st) : callsOf as ≤ x.attemptLimit := by
  have finished {result} (h : x.Skipped row as result ∨
      ∃ aborts, x.Concluded row as result aborts ∧ (.set ∈ as ↔ aborts = true)) :
      callsOf as ≤ x.attemptLimit := by
    rcases h with ⟨hcalls, -⟩ | ⟨-, ⟨-, -, retried, last, -, hdecided, hcalls, -⟩, -⟩
    · omega
    · have hwithin := hdecided.within
      omega
  cases st with
  | running phase =>
    cases phase with
    | entered => obtain ⟨-, hcalls, -⟩ := h; omega
    | attempting => obtain ⟨-, -, hcalls, hleft, -⟩ := h; omega
    | calling => obtain ⟨-, -, hcalls, hleft, -⟩ := h; omega
    | aborting result =>
      obtain ⟨⟨-, -, retried, last, -, hdecided, hcalls, -⟩, -⟩ := h
      have hwithin := hdecided.within
      omega
    | returning => exact finished h
    | raising => obtain ⟨-, hcalls, -⟩ := h; omega
  | pending => obtain ⟨-, hcalls, -⟩ := h; omega
  | cancelled => exact h.elim
  | finished => exact finished h
  | raised => obtain ⟨-, hcalls, -⟩ := h; omega

theorem thread_tells (h : (x.thread row).Run .pending as st) : x.Tells row as st := by
  refine h.trace_invariant (J := x.Tells row) ?_ fun ih hst => tells_step hst ih
  simp [Tells, checksOf, callsOf, answersOf]

-- ---------------------------------------------------------------------------
-- The deciding attempt
-- ---------------------------------------------------------------------------

/-- Attempt `k`, counted from one, is the first whose outcome is not retried,
or the last one when all are. -/
structure Decisive (x : BatchExecutor) (outcomes : Stream' (Result LLMResponse)) (k : Nat) : Prop where
  pos : 1 ≤ k
  le : k ≤ x.retryMaxAttempts
  again : ∀ i, 1 ≤ i → i < k → x.retryable (outcomes.get (i - 1)) = true
  done : k < x.retryMaxAttempts → x.retryable (outcomes.get (k - 1)) = false

theorem exists_decisive (hN : 1 ≤ x.retryMaxAttempts) (outcomes : Stream' (Result LLMResponse)) :
    ∃ k, x.Decisive outcomes k := by
  by_cases h : ∃ i, 1 ≤ i ∧ i ≤ x.retryMaxAttempts ∧ x.retryable (outcomes.get (i - 1)) = false
  · obtain ⟨hpos, hle, hdone⟩ := Nat.find_spec h
    refine ⟨Nat.find h, hpos, hle, fun i hi hlt => ?_, fun _ => hdone⟩
    have hmin := Nat.find_min h hlt
    simpa [hi, hlt.le.trans hle] using hmin
  · refine ⟨x.retryMaxAttempts, hN, le_rfl, fun i hi hlt => ?_, fun hlt => absurd hlt (lt_irrefl _)⟩
    simpa using fun hfalse => h ⟨i, hi, hlt.le, hfalse⟩

theorem Decisive.unique (hk : x.Decisive outcomes k) (hl : x.Decisive outcomes l) : k = l := by
  rcases Nat.lt_trichotomy k l with hlt | heq | hgt
  · have hretried := hl.again k hk.pos hlt
    simp [hk.done (hlt.trans_le hl.le)] at hretried
  · exact heq
  · have hretried := hk.again l hl.pos hgt
    simp [hl.done (hgt.trans_le hk.le)] at hretried

theorem attempts_eq_get (hn : n ≤ left) (hagain : ∀ i < n, x.retryable (outcomes.get i) = true)
    (hdone : n < left → x.retryable (outcomes.get n) = false) :
    x.attempts left outcomes = outcomes.get n := by
  induction n generalizing left outcomes with
  | zero =>
    cases left with
    | zero => rfl
    | succ left =>
      have hhead : x.retryable outcomes.head = false := hdone (Nat.succ_pos left)
      simp [attempts, hhead]
  | succ n ih =>
    obtain ⟨left, rfl⟩ := Nat.exists_eq_add_of_le' (Nat.one_le_of_lt hn)
    have hhead : x.retryable outcomes.head = true := hagain 0 (Nat.succ_pos n)
    rw [attempts, if_pos hhead]
    show x.attempts left outcomes.tail = outcomes.tail.get n
    apply ih
    · omega
    · exact fun i hi => hagain (i + 1) (by omega)
    · exact fun hlt => hdone (by omega)

theorem completeWithRetry_decisive (h : x.Decisive outcomes k) :
    x.completeWithRetry outcomes = outcomes.get (k - 1) := by
  have hpos := h.pos
  have hle := h.le
  apply attempts_eq_get
  · omega
  · exact fun i hi => h.again (i + 1) (by omega) (by omega)
  · exact fun hlt => h.done (by omega)

theorem Decided.decisive (hN : 1 ≤ x.retryMaxAttempts) (h : x.Decided retried last)
    (hstream : retried ++ [last] = outcomes.take (retried ++ [last]).length) :
    x.Decisive outcomes (retried.length + 1) ∧ last = outcomes.get retried.length := by
  have hlimit : x.attemptLimit = x.retryMaxAttempts := by simp [attemptLimit]; omega
  have hget (i : Nat) (hi : i < retried.length + 1) : (retried ++ [last])[i]? = some (outcomes.get i) := by
    rw [hstream]
    exact Stream'.getElem?_take (by simpa using hi)
  have hlast : last = outcomes.get retried.length := by
    simpa using hget retried.length (Nat.lt_succ_self _)
  have hwithin := h.within
  refine ⟨⟨by omega, by omega, fun i hi hlt => ?_, fun hlt => ?_⟩, hlast⟩
  · have hmem := hget (i - 1) (by omega)
    rw [List.getElem?_append_left (by omega)] at hmem
    exact h.again _ (List.mem_of_getElem? hmem)
  · rw [Nat.add_sub_cancel, ← hlast]
    by_contra hretry
    have hfull := h.done (by simpa using hretry)
    omega

-- ---------------------------------------------------------------------------
-- A thread that is answered
-- ---------------------------------------------------------------------------

/-- The thread's answers are the first outcomes of the stream. -/
def AnsweredBy (as : List ThreadAction) (outcomes : Stream' (Result LLMResponse)) : Prop :=
  answersOf as = outcomes.take (answersOf as).length

theorem run_conclude (row : LLMInput) (request : ContractRequest)
    (h : ¬(0 < left ∧ x.retryable outcome = true)) :
    ∃ as result, (x.thread row).Run (.running (x.react row request left outcome)) as (.finished result) ∧
      checksOf as = [] ∧ answersOf as = [] := by
  unfold react
  rw [if_neg h]
  cases x.conclude row outcome with
  | mk result aborts =>
    have hret : (x.thread row).Run (.running (.returning result)) [.ret result] (.finished result) :=
      .cons (show x.threadStep row _ _ = _ by simp [threadStep, phaseStep]) .nil
    cases aborts with
    | false => exact ⟨_, result, hret, rfl, rfl⟩
    | true => exact ⟨.set :: _, result, .cons (show x.threadStep row _ _ = _ from rfl) hret, rfl, rfl⟩

theorem run_attempts (x : BatchExecutor) (row : LLMInput) (request : ContractRequest) (left : Nat)
    (outcomes : Stream' (Result LLMResponse)) :
    ∃ as result, (x.thread row).Run (.running (.attempting request left)) as (.finished result) ∧
      checksOf as = [] ∧ AnsweredBy as outcomes := by
  induction left generalizing outcomes with
  | zero =>
    obtain ⟨as, result, hrun, hcheck, hanswer⟩ :=
      run_conclude row request fun h : 0 < 0 ∧ x.retryable outcomes.head = true => absurd h.1 (lt_irrefl 0)
    refine ⟨.call :: .answer outcomes.head :: as, result, .cons rfl (.cons rfl hrun), hcheck, ?_⟩
    simp [AnsweredBy, answersOf, hanswer, Stream'.take_succ]
  | succ left ih =>
    by_cases hretry : x.retryable outcomes.head = true
    · obtain ⟨as, result, hrun, hcheck, hanswer⟩ := ih outcomes.tail
      have hreact : x.react row request (left + 1) outcomes.head = .attempting request left := by
        simp [react, hretry]
      have hstep : x.threadStep row (.running (.calling request (left + 1))) (.answer outcomes.head) =
          some (.running (.attempting request left)) := by simp [threadStep, phaseStep, hreact]
      refine ⟨.call :: .answer outcomes.head :: as, result, .cons rfl (.cons hstep hrun), hcheck, ?_⟩
      simp only [AnsweredBy, answersOf, List.length_cons, Stream'.take_succ]
      rw [← hanswer]
    · obtain ⟨as, result, hrun, hcheck, hanswer⟩ :=
        run_conclude row request fun h : 0 < left + 1 ∧ x.retryable outcomes.head = true => hretry h.2
      refine ⟨.call :: .answer outcomes.head :: as, result, .cons rfl (.cons rfl hrun), hcheck, ?_⟩
      simp [AnsweredBy, answersOf, hanswer, Stream'.take_succ]

theorem exists_finished (hrow : x.parseRow row = .ok request)
    (outcomes : Stream' (Result LLMResponse)) :
    ∃ as result, (x.thread row).Run .pending as (.finished result) ∧ checksOf as = [false] ∧
      AnsweredBy as outcomes := by
  obtain ⟨as, result, hrun, hcheck, hanswer⟩ :=
    run_attempts x row request (x.retryMaxAttempts - 1) outcomes
  have henter : x.threadStep row (.running .entered) (.check false) =
      some (.running (.attempting request (x.retryMaxAttempts - 1))) := by
    simp [threadStep, phaseStep, enter, hrow]
  exact ⟨.start :: .check false :: as, result, .cons rfl (.cons henter hrun), by simp [checksOf, hcheck],
    hanswer⟩

theorem finished_decisive (hN : 1 ≤ x.retryMaxAttempts) (hrow : x.parseRow row = .ok request)
    (h : (x.thread row).Run .pending as st) (hdone : st.isDone = true) (hclear : .check true ∉ as)
    (hanswer : AnsweredBy as outcomes) :
    ∃ k, x.Decisive outcomes k ∧ callsOf as = k ∧
      st = .finished (x.conclude row (outcomes.get (k - 1))).1 ∧
      (.set ∈ as ↔ (x.conclude row (outcomes.get (k - 1))).2 = true) := by
  have htells := thread_tells h
  have finished {result} (ht : x.Skipped row as result ∨
      ∃ aborts, x.Concluded row as result aborts ∧ (.set ∈ as ↔ aborts = true)) :
      ∃ k, x.Decisive outcomes k ∧ callsOf as = k ∧
        result = (x.conclude row (outcomes.get (k - 1))).1 ∧
        (.set ∈ as ↔ (x.conclude row (outcomes.get (k - 1))).2 = true) := by
    rcases ht with ⟨-, -, -, ⟨hcheck, -⟩ | ⟨-, e, he, -⟩⟩ | ⟨aborts, ⟨-, -, retried, last, hlist, hdecided, hcalls, hpair⟩, hset⟩
    · exact absurd (mem_checksOf.mp (by simp [hcheck])) hclear
    · simp [hrow] at he
    · rw [AnsweredBy, hlist] at hanswer
      obtain ⟨hdecisive, hlast⟩ := hdecided.decisive hN hanswer
      refine ⟨retried.length + 1, hdecisive, hcalls, ?_, ?_⟩
      · rw [Nat.add_sub_cancel, ← hlast, hpair]
      · rw [Nat.add_sub_cancel, ← hlast, hpair, hset]
  cases st with
  | finished result =>
    obtain ⟨k, hdecisive, hcalls, hresult, hset⟩ := finished htells
    exact ⟨k, hdecisive, hcalls, by rw [hresult], hset⟩
  | raised e =>
    obtain ⟨-, -, -, he, -⟩ := htells
    simp [hrow] at he
  | cancelled => exact htells.elim
  | _ => simp [FutureState.isDone] at hdone

-- ---------------------------------------------------------------------------
-- The outcome of the retry loop
-- ---------------------------------------------------------------------------

theorem invoke_decisive (hrow : x.parseRow row = .ok request) (h : x.Decisive outcomes k) :
    x.invoke row (some false) (fun _ => outcomes) =
      (.ok (x.conclude row (outcomes.get (k - 1))).1, some (x.conclude row (outcomes.get (k - 1))).2) := by
  simp only [invoke, hrow, completeWithRetry_decisive h]
  cases x.conclude row (outcomes.get (k - 1)) with
  | mk result aborts => cases aborts <;> simp

theorem conclude_response (h : x.py.dumps response.output = .ok text) :
    x.conclude row (.ok response) = (row.completed text, false) := by
  simp [conclude, h]

theorem conclude_unwritable (h : x.py.dumps response.output = .error e) :
    x.conclude row (.ok response) = x.conclude row (.error e) := by
  simp [conclude, h]

theorem conclude_exception (row : LLMInput) (e : Exc) :
    x.conclude row (.error e) = (row.failed e.text, decide (x.classifyError e = .abortBatch)) := by
  simp [conclude]

/-- What a row gets from its deciding outcome, and whether it aborts the batch. -/
def Gives (x : BatchExecutor) (row : LLMInput) (result : LLMResult) (aborts : Bool) :
    Result LLMResponse → Prop
  | .ok response =>
    (∀ text, x.py.dumps response.output = .ok text → result = row.completed text ∧ aborts = false) ∧
    ∀ e, x.py.dumps response.output = .error e →
      result = row.failed e.text ∧ (aborts = true ↔ x.classifyError e = .abortBatch)
  | .error e => result = row.failed e.text ∧ (aborts = true ↔ x.classifyError e = .abortBatch)

theorem gives_conclude (row : LLMInput) (outcome : Result LLMResponse) :
    x.Gives row (x.conclude row outcome).1 (x.conclude row outcome).2 outcome := by
  cases outcome with
  | ok response =>
    constructor
    · intro text h
      rw [conclude_response h]
      exact ⟨rfl, rfl⟩
    · intro e h
      rw [conclude_unwritable h, conclude_exception]
      exact ⟨rfl, by simp⟩
  | error e =>
    rw [conclude_exception]
    exact ⟨rfl, by simp⟩

/-- Attempt `k` decides an acceptable row that finds the abort event clear:
`invoke` gives what outcome `k` stands for, the row's thread can come to an
end, and whenever it has, it has called the provider `k` times and has set the
event exactly when outcome `k` aborts the batch. -/
theorem invoke_retry_outcome (hN : 1 ≤ x.retryMaxAttempts) (hrow : x.parseRow row = .ok request)
    (outcomes : Stream' (Result LLMResponse)) :
    ∃ k, x.Decisive outcomes k ∧ ∃ result aborts, x.Gives row result aborts (outcomes.get (k - 1)) ∧
      x.invoke row (some false) (fun _ => outcomes) = (.ok result, some aborts) ∧
      (∃ as, (x.thread row).Run .pending as (.finished result) ∧ .check true ∉ as ∧
        AnsweredBy as outcomes) ∧
      ∀ as st, (x.thread row).Run .pending as st → st.isDone = true → .check true ∉ as →
        AnsweredBy as outcomes →
        st = .finished result ∧ callsOf as = k ∧ (.set ∈ as ↔ aborts = true) := by
  obtain ⟨k, hk⟩ := exists_decisive hN outcomes
  have ends {as st} (h : (x.thread row).Run .pending as st) (hdone : st.isDone = true)
      (hclear : .check true ∉ as) (hanswer : AnsweredBy as outcomes) :
      st = .finished (x.conclude row (outcomes.get (k - 1))).1 ∧ callsOf as = k ∧
        (.set ∈ as ↔ (x.conclude row (outcomes.get (k - 1))).2 = true) := by
    obtain ⟨l, hl, hcalls, hst, hset⟩ := finished_decisive hN hrow h hdone hclear hanswer
    obtain rfl := hl.unique hk
    exact ⟨hst, hcalls, hset⟩
  refine ⟨k, hk, _, _, gives_conclude row (outcomes.get (k - 1)), invoke_decisive hrow hk, ?_,
    fun as st => ends⟩
  obtain ⟨as, result, hrun, hcheck, hanswer⟩ := exists_finished hrow outcomes
  have hclear : .check true ∉ as := by simp [← mem_checksOf, hcheck]
  obtain ⟨hst, -, -⟩ := ends hrun rfl hclear hanswer
  obtain rfl : result = (x.conclude row (outcomes.get (k - 1))).1 := by simpa using hst
  exact ⟨as, hrun, hclear, hanswer⟩

end BatchExecutor

def throttling : Exc := ⟨.clientError (some "ThrottlingException") none, "slow down"⟩

def throttledOnce : Stream' (Result LLMResponse) := .cons (.error throttling) (.const (.ok okResponse))

theorem throttledOnce_decisive :
    (bedrockExecutor 1 Nat.one_pos).Decisive throttledOnce 2 where
  pos := by decide
  le := by decide
  again i hi hlt := by
    obtain rfl : i = 1 := by omega
    decide
  done _ := by decide

theorem throttled_row_completes :
    ∃ as, ((bedrockExecutor 1 Nat.one_pos).thread (plainRow 1 1)).Run .pending as
        (.finished ((plainRow 1 1).completed "\x7b\"type\": \"object\"\x7d")) ∧
      callsOf as = 2 ∧ .set ∉ as := by
  have hrow : (bedrockExecutor 1 Nat.one_pos).parseRow (plainRow 1 1) =
      .ok ⟨"m", "p", defaultMaxOutputTokens, defaultTemperature, [], .null, none, none, none⟩ := by decide
  obtain ⟨k, hk, result, aborts, hgives, -, ⟨as, hrun, hclear, hanswer⟩, hends⟩ :=
    BatchExecutor.invoke_retry_outcome (by decide) hrow throttledOnce
  obtain rfl := hk.unique throttledOnce_decisive
  obtain ⟨rfl, rfl⟩ := hgives.1 _ rfl
  obtain ⟨-, hcalls, hset⟩ := hends as _ hrun rfl hclear hanswer
  exact ⟨as, hrun, hcalls, by simpa using hset⟩

end LlmWorker
