import LlmWorker.Clickhouse
import LlmWorker.Lib.Transition
import LlmWorker.Providers.Base
import Mathlib.Data.Stream.Init

/-!
# One row

`BatchExecutor.invoke`: the abort check, parsing, the retried completion and
the result. `invoke` is the method as a function of the provider's answers;
`FutureState.step` is the same method as a pool thread runs it, one visible
action after the other, and `thread_value` says that they agree.
-/

namespace LlmWorker

open Python

/-- `load_config` accepts no `MAX_WORKERS` below one. -/
structure BatchExecutor where
  py : Stdlib
  classifyError : Exc → ErrorDisposition
  maxWorkers : Nat
  retryMaxAttempts : Nat
  maxWorkers_pos : 0 < maxWorkers

def LLMInput.completed (row : LLMInput) (response : String) : LLMResult :=
  ⟨row.batchId, row.rowId, response, .complete, ""⟩

def LLMInput.failed (row : LLMInput) (error : String) : LLMResult :=
  ⟨row.batchId, row.rowId, "", .failed, error⟩

def abortedResult (row : LLMInput) : LLMResult := row.failed "Batch aborted"

@[simp] theorem key_completed (row : LLMInput) (response : String) :
    (row.completed response).key = row.key := rfl
@[simp] theorem key_failed (row : LLMInput) (error : String) : (row.failed error).key = row.key := rfl
@[simp] theorem key_abortedResult (row : LLMInput) : (abortedResult row).key = row.key := rfl

/-- The `error` column for an exception that one of the two `except` clauses
after parsing names; `none` for one that leaves `invoke`. -/
def rowError (e : Exc) : Option String :=
  match e.type with
  | .jsonDecodeError => some ("Invalid JSON in params or tool_config: " ++ e.text)
  | .keyError | .typeError | .attributeError | .valueError =>
    some ("Malformed params or tool_config: " ++ e.text)
  | _ => none

namespace BatchExecutor

variable (x : BatchExecutor)

/-- `json.loads(text) if text else {}` -/
def loadsColumn (text : String) : Result Json :=
  if text = "" then .ok (.dict []) else x.py.loads text

def parseRow (row : LLMInput) : Result ContractRequest := do
  let params ← x.loadsColumn row.params
  let toolConfig ← x.loadsColumn row.toolConfig
  buildRequest x.py row.modelId row.prompt params toolConfig

/-- `retry_if_exception` with the provider's classification. -/
def retryable : Result LLMResponse → Bool
  | .ok _ => false
  | .error e => x.classifyError e = .retry

/-- The attempts from here on, of which `left` may follow the next one. -/
def attempts : (left : Nat) → Stream' (Result LLMResponse) → Result LLMResponse
  | 0, answers => answers.head
  | left + 1, answers =>
    if x.retryable answers.head then attempts left answers.tail else answers.head

/-- tenacity makes a first attempt whatever the limit. -/
def completeWithRetry (answers : Stream' (Result LLMResponse)) : Result LLMResponse :=
  x.attempts (x.retryMaxAttempts - 1) answers

/-- The second `try` of `invoke` and its `except Exception`: the result, and
whether the error aborts the batch. -/
def conclude (row : LLMInput) (outcome : Result LLMResponse) : LLMResult × Bool :=
  match (do let response ← outcome; x.py.dumps response.output : Result String) with
  | .ok text => (row.completed text, false)
  | .error e => (row.failed e.text, x.classifyError e = .abortBatch)

/-- The value of `invoke`, and the abort event it leaves; `none` is a call
without an event. `complete` gives the provider's answers to a request. -/
def invoke (row : LLMInput) (abortEvent : Option Bool)
    (complete : ContractRequest → Stream' (Result LLMResponse)) :
    Result LLMResult × Option Bool :=
  if abortEvent = some true then
    (.ok (abortedResult row), abortEvent)
  else
    match x.parseRow row with
    | .error e =>
      match rowError e with
      | some text => (.ok (row.failed text), abortEvent)
      | none => (.error e, abortEvent)
    | .ok request =>
      let (result, aborts) := x.conclude row (x.completeWithRetry (complete request))
      (.ok result, if aborts then abortEvent.map fun _ => true else abortEvent)

end BatchExecutor

-- ---------------------------------------------------------------------------
-- Which rows return
-- ---------------------------------------------------------------------------

/-- What CPython's `json.loads` raises on a string. -/
def Stdlib.LoadsRaises (py : Stdlib) : Prop :=
  ∀ text e, py.loads text = .error e →
    e.type = .jsonDecodeError ∨ e.type = .valueError ∨ e.type = .recursionError

namespace BatchExecutor

variable (x : BatchExecutor)

/-- The text nests beyond what `json.loads` can follow. -/
def TooDeep (text : String) : Prop :=
  ∃ e, x.loadsColumn text = .error e ∧ e.type = .recursionError

def Loads (text : String) : Prop := ∃ value, x.loadsColumn text = .ok value

/-- `tool_config` is only parsed once `params` has been. -/
def NestsTooDeep (row : LLMInput) : Prop :=
  x.TooDeep row.params ∨ x.Loads row.params ∧ x.TooDeep row.toolConfig

variable {x}

theorem loadsColumn_raises (hpy : x.py.LoadsRaises) (h : x.loadsColumn text = .error e) :
    e.type = .jsonDecodeError ∨ e.type = .valueError ∨ e.type = .recursionError := by
  unfold loadsColumn at h
  split at h
  · cases h
  · exact hpy text e h

theorem rowError_isSome_of_malformed (h : Json.Malformed e) : (rowError e).isSome := by
  rcases h with h | h | h | h <;> simp [rowError, h]

/-- A row's parsing ends in an exception no clause names exactly when one of
its columns nests too deep. -/
theorem parseRow_escapes_iff (hpy : x.py.LoadsRaises) (row : LLMInput) :
    (∃ e, x.parseRow row = .error e ∧ rowError e = none) ↔ x.NestsTooDeep row := by
  constructor
  · rintro ⟨e, he, hnone⟩
    simp only [parseRow, bind_error] at he
    have caught {text : String} (h : x.loadsColumn text = .error e) : x.TooDeep text := by
      rcases loadsColumn_raises hpy h with ht | ht | ht
      · simp [rowError, ht] at hnone
      · simp [rowError, ht] at hnone
      · exact ⟨e, h, ht⟩
    rcases he with h | ⟨params, hparams, h | ⟨toolConfig, -, h⟩⟩
    · exact .inl (caught h)
    · exact .inr ⟨⟨params, hparams⟩, caught h⟩
    · have hsome := rowError_isSome_of_malformed (buildRequest_raises _ _ _ _ _ e h)
      simp [hnone] at hsome
  · rintro (⟨e, he, ht⟩ | ⟨⟨params, hparams⟩, e, he, ht⟩)
    · exact ⟨e, by simp [parseRow, he], by simp [rowError, ht]⟩
    · exact ⟨e, by simp [parseRow, hparams, he], by simp [rowError, ht]⟩

/-- `invoke` returns a result for its row, whatever the provider does, exactly
when the abort event is set or no column of the row nests too deep. -/
theorem invoke_returns_iff (hpy : x.py.LoadsRaises) (row : LLMInput) (abortEvent : Option Bool)
    (complete : ContractRequest → Stream' (Result LLMResponse)) :
    (∃ result, (x.invoke row abortEvent complete).1 = .ok result ∧ result.key = row.key) ↔
      abortEvent = some true ∨ ¬x.NestsTooDeep row := by
  rw [← parseRow_escapes_iff hpy row]
  by_cases habort : abortEvent = some true
  · simp [invoke, habort]
  · simp only [invoke, habort, false_or]
    cases hparse : x.parseRow row with
    | ok request =>
      have hkey (outcome : Result LLMResponse) : (x.conclude row outcome).1.key = row.key := by
        unfold conclude
        split <;> rfl
      simpa using hkey _
    | error e =>
      cases herror : rowError e <;> simp [herror]

end BatchExecutor

-- A row whose `params` nest too deep, next to one without any.

def recursionError : Exc :=
  ⟨.recursionError, "maximum recursion depth exceeded while decoding a JSON array from a unicode string"⟩

def deepStdlib (deep : String) : Stdlib where
  repr _ := "…"
  loads text := if text = deep then .error recursionError
    else .error ⟨.jsonDecodeError, "Expecting value: line 1 column 1 (char 0)"⟩
  dumps _ := .ok "null"

def deepExecutor (deep : String) : BatchExecutor where
  py := deepStdlib deep
  classifyError _ := .failRow
  maxWorkers := 1
  retryMaxAttempts := 5
  maxWorkers_pos := by decide

def rowWithParams (params : String) : LLMInput := ⟨1, 1, "m", "p", params, ""⟩

def nullAnswers : Stream' (Result LLMResponse) := .const (.ok ⟨.null, .null, .null⟩)

/-- `"[" * depth` -/
def nested (depth : Nat) : String := String.ofList (List.replicate depth '[')

theorem nested_ne (h : depth ≠ 0) : nested depth ≠ "" := by
  intro heq
  have hlist := congrArg String.toList heq
  rw [nested, String.toList_ofList] at hlist
  exact h (by simpa using hlist)

@[irreducible] def deepText : String := nested 100000

theorem deepText_ne : deepText ≠ "" := by
  have hdepth : (100000 : Nat) ≠ 0 := by simp
  unfold deepText
  exact nested_ne hdepth

theorem deepStdlib_loadsRaises (deep : String) : (deepStdlib deep).LoadsRaises := by
  intro text e h
  by_cases ht : text = deep
  · simp only [deepStdlib, if_pos ht, Except.error.injEq] at h
    simp [← h, recursionError]
  · simp only [deepStdlib, if_neg ht, Except.error.injEq] at h
    simp [← h]

theorem parseRow_deep (h : deep ≠ "") :
    (deepExecutor deep).parseRow (rowWithParams deep) = .error recursionError := by
  simp [BatchExecutor.parseRow, BatchExecutor.loadsColumn, rowWithParams, h, deepExecutor, deepStdlib]

/-- One stored row makes `invoke` raise; the worker that fetches it dies, and
dies again after every restart. -/
theorem invoke_raises_on_deep_row :
    ¬∃ result, ((deepExecutor deepText).invoke (rowWithParams deepText) (some false)
      fun _ => nullAnswers).1 = .ok result ∧ result.key = (rowWithParams deepText).key := by
  have hparse := parseRow_deep deepText_ne
  rintro ⟨result, hok, -⟩
  simp only [BatchExecutor.invoke, hparse, rowError, recursionError] at hok
  exact absurd hok (by simp)

theorem plainParams_shallow : ¬(deepExecutor deep).NestsTooDeep (rowWithParams "") := by
  simp [BatchExecutor.NestsTooDeep, BatchExecutor.TooDeep, BatchExecutor.loadsColumn, rowWithParams]

theorem invoke_returns_on_plain_row :
    ∃ result, ((deepExecutor deepText).invoke (rowWithParams "") (some false)
      fun _ => nullAnswers).1 = .ok result ∧ result.key = (rowWithParams "").key :=
  (BatchExecutor.invoke_returns_iff (deepStdlib_loadsRaises deepText) _ _ _).mpr (.inr plainParams_shallow)

-- ---------------------------------------------------------------------------
-- A pool thread
-- ---------------------------------------------------------------------------

inductive Phase
  | entered
  | attempting (request : ContractRequest) (left : Nat)
  | calling (request : ContractRequest) (left : Nat)
  | aborting (result : LLMResult)
  | returning (result : LLMResult)
  | raising (e : Exc)
  deriving DecidableEq

inductive FutureState
  | pending
  | running (phase : Phase)
  | cancelled
  | finished (result : LLMResult)
  | raised (e : Exc)
  deriving DecidableEq

/-- `check` reads the abort event, `call` and `answer` bracket
`provider.complete`, `set` sets the event, `ret` and `raise` end `invoke`. -/
inductive ThreadAction
  | start
  | check (isSet : Bool)
  | call
  | answer (outcome : Result LLMResponse)
  | set
  | ret (result : LLMResult)
  | raise (e : Exc)
  deriving DecidableEq

namespace BatchExecutor

variable (x : BatchExecutor)

def enter (row : LLMInput) : Phase :=
  match x.parseRow row with
  | .ok request => .attempting request (x.retryMaxAttempts - 1)
  | .error e =>
    match rowError e with
    | some text => .returning (row.failed text)
    | none => .raising e

/-- The way on from an answer after which `left` attempts remain. -/
def react (row : LLMInput) (request : ContractRequest) (left : Nat) (outcome : Result LLMResponse) :
    Phase :=
  if 0 < left ∧ x.retryable outcome then
    .attempting request (left - 1)
  else
    let (result, aborts) := x.conclude row outcome
    if aborts then .aborting result else .returning result

def phaseStep (row : LLMInput) : Phase → ThreadAction → Option FutureState
  | .entered, .check isSet =>
    some (.running (if isSet then .returning (abortedResult row) else x.enter row))
  | .attempting request left, .call => some (.running (.calling request left))
  | .calling request left, .answer outcome => some (.running (x.react row request left outcome))
  | .aborting result, .set => some (.running (.returning result))
  | .returning result, .ret result' => if result' = result then some (.finished result) else none
  | .raising e, .raise e' => if e' = e then some (.raised e) else none
  | _, _ => none

def threadStep (row : LLMInput) : FutureState → ThreadAction → Option FutureState
  | .pending, .start => some (.running .entered)
  | .running phase, a => x.phaseStep row phase a
  | _, _ => none

def thread (row : LLMInput) : Transition.LTS FutureState ThreadAction :=
  .ofFn (fun st => st = .pending) (x.threadStep row)

end BatchExecutor

-- ---------------------------------------------------------------------------
-- The thread computes `invoke`
-- ---------------------------------------------------------------------------

def answersOf : List ThreadAction → List (Result LLMResponse)
  | [] => []
  | .answer outcome :: as => outcome :: answersOf as
  | _ :: as => answersOf as

theorem answersOf_append (as bs : List ThreadAction) :
    answersOf (as ++ bs) = answersOf as ++ answersOf bs := by
  induction as with
  | nil => rfl
  | cons a as ih => cases a <;> simp [answersOf, ih]

namespace BatchExecutor

variable {x : BatchExecutor}

/-- What `invoke` is going to give, for the answers still to come; `none` as
long as it depends on the abort event. -/
def value (x : BatchExecutor) (row : LLMInput) (answers : Stream' (Result LLMResponse)) :
    FutureState → Option (Result LLMResult)
  | .running (.attempting _ left) | .running (.calling _ left) =>
    some (.ok (x.conclude row (x.attempts left answers)).1)
  | .running (.aborting result) | .running (.returning result) | .finished result =>
    some (.ok result)
  | .running (.raising e) | .raised e => some (.error e)
  | .pending | .running .entered | .cancelled => none

theorem value_enter (row : LLMInput) (answers : Stream' (Result LLMResponse)) :
    x.value row answers (.running (x.enter row)) =
      some (x.invoke row (some false) fun _ => answers).1 := by
  simp only [enter, invoke]
  cases x.parseRow row with
  | ok request => rfl
  | error e => cases h : rowError e <;> simp [value, h]

theorem value_react (row : LLMInput) (request : ContractRequest) (left : Nat)
    (outcome : Result LLMResponse) (answers : Stream' (Result LLMResponse)) :
    x.value row answers (.running (x.react row request left outcome)) =
      some (.ok (x.conclude row (x.attempts left (answers.cons outcome))).1) := by
  simp only [react]
  split
  · rename_i h
    obtain ⟨n, rfl⟩ := Nat.exists_eq_succ_of_ne_zero h.1.ne'
    simp [value, attempts, h.2, Stream'.head, Stream'.tail_cons]
  · rename_i h
    have hlast : x.attempts left (answers.cons outcome) = outcome := by
      cases left with
      | zero => rfl
      | succ n =>
        have hr : x.retryable outcome = false := by simpa using h
        simp [attempts, hr, Stream'.head]
    rw [hlast]
    split <;> rfl

theorem value_check (row : LLMInput) (isSet : Bool) (answers : Stream' (Result LLMResponse)) :
    x.value row answers (.running (if isSet then .returning (abortedResult row) else x.enter row)) =
      some (x.invoke row (some isSet) fun _ => answers).1 := by
  cases isSet with
  | false => exact value_enter row answers
  | true => simp [value, invoke]

theorem value_step (h : x.threadStep row st a = some st')
    (hv : x.value row (answersOf [a] ++ₛ answers) st = some v) : x.value row answers st' = some v := by
  cases st with
  | running phase =>
    cases phase with
    | entered => simp [value] at hv
    | attempting request left =>
      cases a with
      | call =>
        obtain rfl : FutureState.running (.calling request left) = st' := by
          simpa [threadStep, phaseStep] using h
        simpa [value, answersOf] using hv
      | _ => simp [threadStep, phaseStep] at h
    | calling request left =>
      cases a with
      | answer outcome =>
        obtain rfl : FutureState.running (x.react row request left outcome) = st' := by
          simpa [threadStep, phaseStep] using h
        rw [value_react, ← hv]
        rfl
      | _ => simp [threadStep, phaseStep] at h
    | aborting result =>
      cases a with
      | set =>
        obtain rfl : FutureState.running (.returning result) = st' := by
          simpa [threadStep, phaseStep] using h
        simpa [value] using hv
      | _ => simp [threadStep, phaseStep] at h
    | returning result =>
      cases a with
      | ret result' =>
        obtain ⟨rfl, rfl⟩ : result' = result ∧ FutureState.finished result = st' := by
          simpa [threadStep, phaseStep] using h
        simpa [value] using hv
      | _ => simp [threadStep, phaseStep] at h
    | raising e =>
      cases a with
      | raise e' =>
        obtain ⟨rfl, rfl⟩ : e' = e ∧ FutureState.raised e = st' := by
          simpa [threadStep, phaseStep] using h
        simpa [value] using hv
      | _ => simp [threadStep, phaseStep] at h
  | pending => simp [value] at hv
  | _ => simp [threadStep] at h

/-- A thread that has passed the abort check is on its way to the value of
`invoke`, for the event it saw and the answers it got. -/
theorem thread_value (h : (x.thread row).Run .pending as st) :
    ((st = .pending ∨ st = .running .entered) ∧ answersOf as = []) ∨
      ∃ isSet, .check isSet ∈ as ∧ ∀ answers,
        x.value row answers st = some (x.invoke row (some isSet) fun _ => answersOf as ++ₛ answers).1 := by
  refine h.trace_invariant (J := fun as st => ((st = .pending ∨ st = .running .entered) ∧
    answersOf as = []) ∨ ∃ isSet, .check isSet ∈ as ∧ ∀ answers, x.value row answers st =
      some (x.invoke row (some isSet) fun _ => answersOf as ++ₛ answers).1) ?_ ?_
  · exact .inl ⟨.inl rfl, rfl⟩
  · intro as st a st' ih hst
    have hst : x.threadStep row st a = some st' := hst
    rcases ih with ⟨rfl | rfl, hnil⟩ | ⟨isSet, hcheck, hval⟩
    · cases a with
      | start =>
        obtain rfl : FutureState.running .entered = st' := by simpa [threadStep] using hst
        exact .inl ⟨.inr rfl, by simp [answersOf_append, hnil, answersOf]⟩
      | _ => simp [threadStep] at hst
    · cases a with
      | check isSet =>
        obtain rfl : FutureState.running _ = st' := by
          simpa only [threadStep, phaseStep, Option.some.injEq] using hst
        refine .inr ⟨isSet, by simp, fun answers => ?_⟩
        rw [value_check, answersOf_append, hnil]
        rfl
      | _ => simp [threadStep, phaseStep] at hst
    · refine .inr ⟨isSet, by simp [hcheck], fun answers => ?_⟩
      rw [answersOf_append, Stream'.append_append_stream]
      exact value_step hst (hval _)

end BatchExecutor

end LlmWorker
