import LlmWorker.Contract

/-!
# What the adapters share

`providers/base.py`: the result envelope, the error dispositions and the
"try with temperature, learn, retry once without" fallback. An adapter runs
against a `World`: its own memory, the clock, and a backend whose answers may
depend on every call made so far. Every backend call is logged.
-/

namespace LlmWorker

open Python

inductive ErrorDisposition
  | retry
  | abortBatch
  | failRow
  deriving DecidableEq

structure LLMResponse where
  output : Json
  inputTokens : Json
  outputTokens : Json
  deriving DecidableEq

-- ---------------------------------------------------------------------------
-- The envelope
-- ---------------------------------------------------------------------------

def temperatureRejectionKeywords : List String := ["not support", "unsupported", "deprecated"]
def finishedStopReasons : List String := ["end_turn", "stop_sequence"]

/-- `needle in haystack` for strings. -/
def isSubstring (needle haystack : String) : Bool :=
  decide (needle.toList <:+: haystack.toList)

def isTemperatureRejectionMessage (message : String) : Bool :=
  let low := message.toLower
  isSubstring "temperature" low &&
    temperatureRejectionKeywords.any fun keyword => isSubstring keyword low

/-- `"".join(texts)`, from item `i` on. -/
def joinTexts (i : Nat) : List Json → Result String
  | [] => .ok ""
  | .str s :: rest => do return s ++ (← joinTexts (i + 1) rest)
  | v :: _ => .error (typeError ("sequence item " ++ toString i ++ ": expected str instance, " ++
      v.typeName ++ " found"))

section
variable (py : Stdlib)

/-- `json.loads(text)` with a `ValueError` read as `None`. -/
def loadsOrNone (text : String) : Result Json :=
  match py.loads text with
  | .ok v => .ok v
  | .error e => if e.isValueError then .ok .null else .error e

/-- `json.loads(texts[-1]) if texts else None`, a `ValueError` read as `None`. -/
def parseLast (texts : List Json) : Result Json :=
  match texts.getLast? with
  | some (.str s) => loadsOrNone py s
  | some v => .error (typeError ("the JSON object must be str, bytes or bytearray, not " ++ v.typeName))
  | none => .ok .null

/-- `value or ""` -/
def orEmpty (value : Json) : Json := if value.truthy then value else .str ""

/-- `stop_reason in _FINISHED_STOP_REASONS`: a set lookup hashes the value. -/
def isFinished (stopReason : Json) : Result Bool :=
  match stopReason with
  | .list _ | .dict _ => .error (typeError ("cannot use '" ++ stopReason.typeName ++
      "' as a set element (unhashable type: '" ++ stopReason.typeName ++ "')"))
  | v => .ok (finishedStopReasons.any fun r => v = .str r)

def stopFields (stopReason refusalCategory : Json) : List (String × Json) :=
  [("stop_reason", orEmpty stopReason)] ++
    if refusalCategory.truthy then [("refusal_category", refusalCategory)] else []

def buildOutput (texts toolUses : List Json) (jsonOutput : Bool)
    (stopReason refusalCategory : Json) : Result Json := do
  let outputText ← joinTexts 0 texts
  let output := [("output_text", .str outputText)]
  if !jsonOutput then
    return .dict (output ++ if toolUses = [] then [] else [("tool_uses", .list toolUses)])
  else if stopReason = .str "refusal" then
    return .dict (output ++ stopFields stopReason refusalCategory)
  else
    let parsed ← parseLast py texts
    if !parsed.isDict then
      return .dict (output ++ [("result_error", .str "reply is not a JSON object")] ++
        stopFields stopReason refusalCategory)
    else if ← isFinished stopReason then
      return .dict (output ++ [("tool_uses", .list [parsed])])
    else
      return .dict (output ++ [("result_error", .str "reply did not finish")] ++
        stopFields stopReason refusalCategory)

end

-- ---------------------------------------------------------------------------
-- A provider and its backend
-- ---------------------------------------------------------------------------

/-- What a completion reads and changes. The first three fields are the
provider's memory; the profile fields are `BedrockProvider`'s. -/
structure World where
  omitTemperature : List String
  profileInvalidSince : List (String × Rat)
  unmappedModelsWarned : List String
  ticks : Nat
  calls : List Json

/-- Code that can raise, with the world as the exception left it. -/
def Effect (α : Type) := World → Result α × World

namespace Effect

def raise (e : Exc) : Effect α := fun w => (.error e, w)

def lift (r : Result α) : Effect α := fun w => (r, w)

def bind (x : Effect α) (f : α → Effect β) : Effect β := fun w =>
  match x w with
  | (.ok a, w) => f a w
  | (.error e, w) => (.error e, w)

/-- `try: x except E as e: handle(e)`, where `handle` re-raises what `E` is not. -/
def tryCatch (x : Effect α) (handle : Exc → Effect α) : Effect α := fun w =>
  match x w with
  | (.ok a, w) => (.ok a, w)
  | (.error e, w) => handle e w

instance : Monad Effect where
  pure a := fun w => (.ok a, w)
  bind := bind

theorem bind_apply (x : Effect α) (f : α → Effect β) (w : World) :
    (x >>= f) w = match x w with
      | (.ok a, w') => f a w'
      | (.error e, w') => (.error e, w') := rfl

end Effect

/-- The backend: its answer to a call may depend on all calls before it. -/
abbrev Backend (ρ : Type) := List Json → Json → Result ρ

def Backend.call (backend : Backend ρ) (kwargs : Json) : Effect ρ := fun w =>
  (backend w.calls kwargs, { w with calls := w.calls ++ [kwargs] })

/-- `time.monotonic()`, which returns the readings of `clock` one after the other. -/
def monotonic (clock : Nat → Rat) : Effect Rat := fun w =>
  (.ok (clock w.ticks), { w with ticks := w.ticks + 1 })

def omitsTemperature (request : ContractRequest) : Bool :=
  request.thinking.isSome || request.outputFormat.isSome

/-- `_omit_temperature.add(model)` -/
def learnOmitTemperature (model : String) : Effect Unit := fun w =>
  (.ok (), { w with omitTemperature :=
    if model ∈ w.omitTemperature then w.omitTemperature else model :: w.omitTemperature })

/-- `isRejection` is the `except exception_type` clause and `is_rejection` together. -/
def completeWithTemperatureFallback (model : String) (call : Bool → Effect ρ)
    (isRejection : Exc → Bool) (omitTemperature : Bool) : Effect ρ := fun w =>
  if omitTemperature then
    call false w
  else
    let includeTemperature := decide (model ∉ w.omitTemperature)
    Effect.tryCatch (call includeTemperature) (fun exc =>
      if !includeTemperature || !isRejection exc then
        Effect.raise exc
      else
        Effect.bind (learnOmitTemperature model) fun _ => call false) w

-- ---------------------------------------------------------------------------
-- Which calls code makes
-- ---------------------------------------------------------------------------

/-- Every backend call `x` makes, whether it returns or raises, satisfies `P`. -/
def Effect.CallsOnly (P : Json → Prop) (x : Effect α) : Prop :=
  ∀ w, ∃ made, (x w).2.calls = w.calls ++ made ∧ ∀ kwargs ∈ made, P kwargs

namespace Effect.CallsOnly

variable {P : Json → Prop}

theorem of_silent {x : Effect α} (h : ∀ w, (x w).2.calls = w.calls) : x.CallsOnly P :=
  fun w => ⟨[], by simp [h w], by simp⟩

theorem raise (e : Exc) : (Effect.raise e : Effect α).CallsOnly P := of_silent fun _ => rfl

theorem lift (r : Result α) : (Effect.lift r).CallsOnly P := of_silent fun _ => rfl

theorem call {backend : Backend ρ} (h : P kwargs) : (backend.call kwargs).CallsOnly P :=
  fun _ => ⟨[kwargs], rfl, by simpa using h⟩

theorem trans {x : Effect α} {y : Effect β} (hx : x.CallsOnly P) (hy : y.CallsOnly P) (w : World) :
    ∃ made, (y (x w).2).2.calls = w.calls ++ made ∧ ∀ kwargs ∈ made, P kwargs := by
  obtain ⟨first, h1, p1⟩ := hx w
  obtain ⟨second, h2, p2⟩ := hy (x w).2
  refine ⟨first ++ second, by rw [h2, h1, List.append_assoc], ?_⟩
  intro kwargs hk
  rcases List.mem_append.mp hk with hk | hk
  · exact p1 kwargs hk
  · exact p2 kwargs hk

theorem bind {x : Effect α} {f : α → Effect β} (hx : x.CallsOnly P)
    (hf : ∀ a, (f a).CallsOnly P) : (x >>= f).CallsOnly P := by
  intro w
  show ∃ made, (Effect.bind x f w).2.calls = _ ∧ _
  unfold Effect.bind
  split
  · rename_i a w' hw
    simpa [hw] using hx.trans (hf a) w
  · rename_i e w' hw
    simpa [hw] using hx w

theorem tryCatch {x : Effect α} {handle : Exc → Effect α} (hx : x.CallsOnly P)
    (hh : ∀ e, (handle e).CallsOnly P) : (Effect.tryCatch x handle).CallsOnly P := by
  intro w
  unfold Effect.tryCatch
  split
  · rename_i a w' hw
    simpa [hw] using hx w
  · rename_i e w' hw
    simpa [hw] using hx.trans (hh e) w

theorem completeWithTemperatureFallback {call : Bool → Effect ρ} {isRejection : Exc → Bool}
    (h : ∀ b, (omitTemperature = true → b = false) → (call b).CallsOnly P) :
    (completeWithTemperatureFallback model call isRejection omitTemperature).CallsOnly P := by
  have without : (call false).CallsOnly P := h false fun _ => rfl
  intro w
  unfold LlmWorker.completeWithTemperatureFallback
  split
  · exact without w
  · rename_i homit
    refine CallsOnly.tryCatch (h _ fun ho => absurd ho homit) ?_ w
    intro e
    split
    · exact CallsOnly.raise e
    · exact CallsOnly.bind (of_silent fun _ => rfl) fun _ => without

end Effect.CallsOnly

end LlmWorker
