import LlmWorker.Lib.Program
import LlmWorker.Providers.Bedrock
import LlmWorker.Providers.AnthropicMessages

/-!
# A completion, one operation at a time

The code of `complete` again, now as a program that asks for each of its
membership tests, set insertions, clock readings and backend calls, so that
the threads of a pool can take turns between any two of them. Run on its own
against a backend and a clock, the program is the completion of the adapter.
-/

namespace LlmWorker.Operations

open Python Transition

/-- What a completion asks for. `enter` marks a call of
`_complete_with_temperature_fallback` and its `omit_temperature`. -/
inductive Op
  | enter (model : String) (omitTemperature : Bool)
  | isLearned (model : String)
  | learn (model : String)
  | send (kwargs : Json)
  | invalidSince (model : String)
  | monotonic
  | recordInvalid (model : String) (now : Rat)
  | warnUnmapped (model : String)

/-- The answers, for a backend whose replies are in `ρ`. -/
def Answer (ρ : Type) : Op → Type
  | .isLearned _ => Bool
  | .send _ => Result ρ
  | .invalidSince _ => Option Rat
  | .monotonic => Rat
  | _ => Unit

abbrev Code (ρ α : Type) := ExceptT Exc (Program Op (Answer ρ)) α

abbrev History (ρ : Type) := List (Event (Answer ρ))

/-- The backend calls, each with its answer. -/
def sends (h : History ρ) : List (Json × Result ρ) :=
  h.filterMap fun e => match e with
    | ⟨.send kwargs, answer⟩ => some (kwargs, answer)
    | _ => none

def ask (o : Op) : Code ρ (Answer ρ o) := ExceptT.lift (Program.ask o .done)

def enter (model : String) (omitTemperature : Bool) : Code ρ Unit := ask (.enter model omitTemperature)
def isLearned (model : String) : Code ρ Bool := ask (.isLearned model)
def learn (model : String) : Code ρ Unit := ask (.learn model)
def invalidSince (model : String) : Code ρ (Option Rat) := ask (.invalidSince model)
def monotonic : Code ρ Rat := ask .monotonic
def recordInvalid (model : String) (now : Rat) : Code ρ Unit := ask (.recordInvalid model now)
def warnUnmapped (model : String) : Code ρ Unit := ask (.warnUnmapped model)

/-- A backend call, which raises what the backend answers. -/
def send (kwargs : Json) : Code ρ ρ := ExceptT.mk (Program.ask (.send kwargs) .done)

def ofResult (r : Result α) : Code ρ α := ExceptT.mk (Program.done r)

-- ---------------------------------------------------------------------------
-- The code
-- ---------------------------------------------------------------------------

def completeWithTemperatureFallback (model : String) (call : Bool → Code ρ ρ)
    (isRejection : Exc → Bool) (omitTemperature : Bool) : Code ρ ρ := do
  enter model omitTemperature
  if omitTemperature then
    call false
  else
    let includeTemperature := !(← isLearned model)
    tryCatch (call includeTemperature) fun exc =>
      if !includeTemperature || !isRejection exc then
        throw exc
      else do
        learn model
        call false

/-- A backend call, unless its keyword arguments cannot be built. -/
def callWith (build : Bool → Result Json) (includeTemperature : Bool) : Code ρ ρ := do
  send (← ofResult (build includeTemperature))

namespace Bedrock

def lookupProfile (inferenceProfiles : List (String × String)) (model : String) : Code Json String :=
  match LlmWorker.Bedrock.profileOf inferenceProfiles model with
  | some arn => return arn
  | none => do
    warnUnmapped model
    return model

def resolveProfile (inferenceProfiles : List (String × String)) (model : String) : Code Json String := do
  match ← invalidSince model with
  | some since =>
    let now ← monotonic
    if Double.sub now since < LlmWorker.Bedrock.profileArnCooldownSeconds then
      return model
    else
      lookupProfile inferenceProfiles model
  | none => lookupProfile inferenceProfiles model

def converse (py : Stdlib) (request : ContractRequest) (model resolvedModel : String) : Code Json Json :=
  completeWithTemperatureFallback model
    (callWith (LlmWorker.Bedrock.buildConverseKwargs py request (some resolvedModel)))
    LlmWorker.Bedrock.isTemperatureRejection (omitsTemperature request)

def complete (py : Stdlib) (inferenceProfiles : List (String × String)) (request : ContractRequest) :
    Code Json LLMResponse := do
  let model := resolveModelRef request.modelId
  let resolvedModel ← resolveProfile inferenceProfiles model
  let response ← tryCatch (converse py request model resolvedModel) fun exc =>
    if resolvedModel = model ∨ LlmWorker.Bedrock.isProfileArnError exc = false then
      throw exc
    else do
      let now ← monotonic
      recordInvalid model now
      converse py request model model
  ofResult (LlmWorker.Bedrock.toLlmResponse py request response)

end Bedrock

namespace AnthropicMessages

open LlmWorker.AnthropicMessages (Message buildKwargs)

def complete (py : Stdlib) (request : ContractRequest) : Code Message LLMResponse := do
  let model := resolveModelRef request.modelId
  let response ← completeWithTemperatureFallback model
    (callWith fun includeTemperature => .ok (buildKwargs request model includeTemperature))
    LlmWorker.AnthropicMessages.isTemperatureRejection (omitsTemperature request)
  ofResult (LlmWorker.AnthropicMessages.toLlmResponse py request response)

end AnthropicMessages

-- ---------------------------------------------------------------------------
-- The provider's memory
-- ---------------------------------------------------------------------------

/-- What the completions of one provider share. -/
structure Memory where
  omitTemperature : List String
  profileInvalidSince : List (String × Rat)
  unmappedModelsWarned : List String

def Memory.fresh : Memory := ⟨[], [], []⟩

def find (key : String) (d : List (String × α)) : Option α :=
  (d.find? fun kv => kv.1 = key).map (·.2)

/-- `s.add(x)` -/
def add (x : String) (s : List String) : List String := if x ∈ s then s else x :: s

theorem mem_add {x y : String} {s : List String} : y ∈ add x s ↔ y = x ∨ y ∈ s := by
  unfold add
  split
  · exact ⟨.inr, fun h => h.elim (fun hy => hy ▸ ‹x ∈ s›) id⟩
  · exact List.mem_cons

theorem mem_add_self (x : String) (s : List String) : x ∈ add x s := mem_add.mpr (.inl rfl)

/-- `d[key] = v` -/
def set (key : String) (v : α) (d : List (String × α)) : List (String × α) :=
  (key, v) :: d.filter fun kv => kv.1 ≠ key

theorem find_set (k k' : String) (v : α) (d : List (String × α)) :
    find k' (set k v d) = if k' = k then some v else find k' d := by
  unfold find set
  rw [LlmWorker.Bedrock.find?_set]
  split <;> rfl

/-- The memory answers what is asked of it. The backend and the clock answer anything. -/
def Memory.Step (s : Memory) : Event (Answer ρ) → Memory → Prop
  | ⟨.isLearned model, learned⟩, t => learned = decide (model ∈ s.omitTemperature) ∧ t = s
  | ⟨.learn model, _⟩, t => t = { s with omitTemperature := add model s.omitTemperature }
  | ⟨.invalidSince model, since⟩, t => since = find model s.profileInvalidSince ∧ t = s
  | ⟨.recordInvalid model now, _⟩, t => t = { s with profileInvalidSince := set model now s.profileInvalidSince }
  | ⟨.warnUnmapped model, _⟩, t => t = { s with unmappedModelsWarned := add model s.unmappedModelsWarned }
  | ⟨.enter _ _, _⟩, t | ⟨.send _, _⟩, t | ⟨.monotonic, _⟩, t => t = s

def memory (ρ : Type) : LTS Memory (Event (Answer ρ)) := ⟨fun s => s = .fresh, Memory.Step⟩

theorem memory_answers (s : Memory) (o : Op) (reply : Result ρ) :
    ∃ r t, (memory ρ).step s ⟨o, r⟩ t := by
  cases o with
  | send kwargs => exact ⟨reply, _, rfl⟩
  | isLearned model => exact ⟨_, _, rfl, rfl⟩
  | invalidSince model => exact ⟨_, _, rfl, rfl⟩
  | monotonic => exact ⟨(0 : Rat), _, rfl⟩
  | _ => exact ⟨(), _, rfl⟩

theorem ask_ensures {E : LTS σ (Event (Answer ρ))} {P : σ → Prop} {Q : σ → Result α → Prop} (o : Op)
    {f : Answer ρ o → Code ρ α} (h : P u)
    (hf : ∀ r v, E.step u ⟨o, r⟩ v → Program.Ensures E P Q (f r).run v) :
    Program.Ensures E P Q (ask o >>= f).run u := ⟨h, hf⟩

theorem ask_within (o : Op) {f : Answer ρ o → Code ρ α} (hf : ∀ r, (f r).run.Within n) :
    (ask o >>= f).run.Within (n + 1) := hf

-- ---------------------------------------------------------------------------
-- The code run on its own
-- ---------------------------------------------------------------------------

def World.memory (w : World) : Memory := ⟨w.omitTemperature, w.profileInvalidSince, w.unmappedModelsWarned⟩

def serve (backend : Backend ρ) (clock : Nat → Rat) : (o : Op) → World → Answer ρ o × World
  | .enter _ _, w => ((), w)
  | .isLearned model, w => (decide (model ∈ w.omitTemperature), w)
  | .learn model, w => ((), { w with omitTemperature := add model w.omitTemperature })
  | .send kwargs, w => (backend w.calls kwargs, { w with calls := w.calls ++ [kwargs] })
  | .invalidSince model, w => (find model w.profileInvalidSince, w)
  | .monotonic, w => (clock w.ticks, { w with ticks := w.ticks + 1 })
  | .recordInvalid model now, w => ((), { w with profileInvalidSince := set model now w.profileInvalidSince })
  | .warnUnmapped model, w => ((), { w with unmappedModelsWarned := add model w.unmappedModelsWarned })

theorem serve_step (backend : Backend ρ) (clock : Nat → Rat) (o : Op) (w : World) :
    (memory ρ).step (World.memory w) ⟨o, (serve backend clock o w).1⟩ (World.memory (serve backend clock o w).2) := by
  cases o with
  | isLearned model => exact ⟨rfl, rfl⟩
  | invalidSince model => exact ⟨rfl, rfl⟩
  | _ => rfl

section
variable (backend : Backend ρ) (clock : Nat → Rat)

/-- The code as one effect. -/
def effect (x : Code ρ α) : Effect α := x.run.interp (serve backend clock)

theorem effect_bind (x : Code ρ α) (f : α → Code ρ β) :
    effect backend clock (x >>= f) = effect backend clock x >>= fun a => effect backend clock (f a) := by
  funext w
  show Program.interp _ (x.run >>= ExceptT.bindCont f) w = Effect.bind _ _ w
  rw [Program.interp_bind, Effect.bind, effect]
  cases Program.interp (serve backend clock) x.run w with
  | mk r w' => cases r <;> rfl

theorem effect_tryCatch (x : Code ρ α) (handle : Exc → Code ρ α) :
    effect backend clock (tryCatch x handle) =
      Effect.tryCatch (effect backend clock x) fun e => effect backend clock (handle e) := by
  funext w
  show Program.interp _ (x.run >>= _) w = _
  rw [Program.interp_bind, Effect.tryCatch, effect]
  cases Program.interp (serve backend clock) x.run w with
  | mk r w' => cases r <;> rfl

theorem effect_fallback (model : String) (call : Bool → Code ρ ρ) (isRejection : Exc → Bool)
    (omitTemperature : Bool) :
    effect backend clock (completeWithTemperatureFallback model call isRejection omitTemperature) =
      LlmWorker.completeWithTemperatureFallback model (fun b => effect backend clock (call b))
        isRejection omitTemperature := by
  funext w
  have henter : effect backend clock (enter model omitTemperature) w = (.ok (), w) := rfl
  have htest : effect backend clock (isLearned model) w = (.ok (decide (model ∈ w.omitTemperature)), w) := rfl
  unfold completeWithTemperatureFallback LlmWorker.completeWithTemperatureFallback
  rw [effect_bind, Effect.bind_apply, henter]
  cases omitTemperature with
  | true => rfl
  | false =>
    simp only [Bool.false_eq_true, if_false, effect_bind, effect_tryCatch, Effect.bind_apply, htest, decide_not]
    congr 1
    funext exc
    split
    · rfl
    · rw [effect_bind]
      rfl

theorem effect_callWith (build : Bool → Result Json) (b : Bool) :
    effect backend clock (callWith build b) = (do
      let kwargs ← Effect.lift (build b)
      backend.call kwargs) := by
  rw [callWith, effect_bind]
  rfl

end

theorem AnthropicMessages.complete_effect (py : Stdlib)
    (backend : Backend LlmWorker.AnthropicMessages.Message) (clock : Nat → Rat) (request : ContractRequest) :
    effect backend clock (complete py request) = LlmWorker.AnthropicMessages.complete py backend request := by
  rw [complete, effect_bind, effect_fallback]
  rfl

namespace Bedrock

variable (py : Stdlib) (backend : Backend Json) (clock : Nat → Rat)
  (inferenceProfiles : List (String × String))

theorem lookupProfile_effect (model : String) :
    effect backend clock (lookupProfile inferenceProfiles model) =
      LlmWorker.Bedrock.lookupProfile inferenceProfiles model := by
  unfold lookupProfile LlmWorker.Bedrock.lookupProfile
  cases LlmWorker.Bedrock.profileOf inferenceProfiles model with
  | some arn => rfl
  | none => rfl

theorem resolveProfile_effect (model : String) :
    effect backend clock (resolveProfile inferenceProfiles model) =
      LlmWorker.Bedrock.resolveProfile clock inferenceProfiles model := by
  funext w
  unfold resolveProfile LlmWorker.Bedrock.resolveProfile
  have hask : effect backend clock (invalidSince model) w = (.ok (LlmWorker.Bedrock.invalidSince w model), w) := rfl
  rw [effect_bind, Effect.bind_apply, hask]
  cases LlmWorker.Bedrock.invalidSince w model with
  | none => exact congrFun (lookupProfile_effect backend clock inferenceProfiles model) w
  | some since =>
    simp only [effect_bind]
    show Effect.bind _ _ w = Effect.bind _ _ w
    congr 1
    funext now
    split
    · rfl
    · exact lookupProfile_effect backend clock inferenceProfiles model

theorem converse_effect (request : ContractRequest) (model resolvedModel : String) :
    effect backend clock (converse py request model resolvedModel) =
      LlmWorker.Bedrock.converse py backend request model resolvedModel := by
  rw [converse, effect_fallback, LlmWorker.Bedrock.converse]
  simp only [effect_callWith]

theorem complete_effect (request : ContractRequest) :
    effect backend clock (complete py inferenceProfiles request) =
      LlmWorker.Bedrock.complete py backend clock inferenceProfiles request := by
  simp only [complete, LlmWorker.Bedrock.complete, effect_bind, effect_tryCatch, resolveProfile_effect,
    converse_effect]
  congr 1
  funext resolvedModel
  congr 1
  congr 1
  funext exc
  split
  · rfl
  · simp only [effect_bind, converse_effect]
    rfl

end Bedrock

end LlmWorker.Operations
