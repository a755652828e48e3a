import LlmWorker.Providers.Base
import LlmWorker.Python.Double

/-!
# The Bedrock adapter

`providers/bedrock.py`: the Converse request and reply, error classification,
and a completion that may fall back from a cost-attribution profile ARN to the
bare model id.
-/

namespace LlmWorker.Bedrock

open Python

def nonRetryableErrorCodes : List String :=
  ["AccessDeniedException", "ValidationException", "ResourceNotFoundException"]
def retryableErrorCodes : List String :=
  ["InternalServerException", "ModelNotReadyException", "ServiceUnavailableException",
   "ThrottlingException"]
def profileArnErrorCodes : List String := ["ResourceNotFoundException"]
def profileArnCooldownSeconds : Rat := 300

-- ---------------------------------------------------------------------------
-- Errors
-- ---------------------------------------------------------------------------

/-- The error code of a `ClientError`; `none` for any other exception. -/
def errorCode (e : Exc) : Option String :=
  match e.type with
  | .clientError code _ => some (code.getD "")
  | _ => none

/-- `except ClientError` and `_is_profile_arn_error`. -/
def isProfileArnError (e : Exc) : Bool :=
  (errorCode e).any fun code => code ∈ profileArnErrorCodes

def isRetryableTransportError (e : Exc) : Bool :=
  match e.type with
  | .endpointConnectionError | .connectTimeoutError | .readTimeoutError
  | .connectionClosedError => true
  | _ => false

def isRetryable (e : Exc) : Bool :=
  match errorCode e with
  | some code => code ∉ nonRetryableErrorCodes && code ∈ retryableErrorCodes
  | none => isRetryableTransportError e

def classifyError (e : Exc) : ErrorDisposition :=
  if errorCode e = some "AccessDeniedException" then .abortBatch
  else if isRetryable e then .retry
  else .failRow

/-- `except ClientError` and `_is_temperature_rejection`. -/
def isTemperatureRejection (e : Exc) : Bool :=
  match e.type with
  | .clientError (some "ValidationException") message =>
    isTemperatureRejectionMessage (message.getD "")
  | _ => false

theorem isTemperatureRejection_code (h : isTemperatureRejection e = true) :
    errorCode e = some "ValidationException" := by
  unfold isTemperatureRejection at h
  split at h
  · rename_i ht
    simp [errorCode, ht]
  · simp at h

theorem isProfileArnError_iff : isProfileArnError e = true ↔ errorCode e = some "ResourceNotFoundException" := by
  cases h : errorCode e <;> simp [isProfileArnError, profileArnErrorCodes, h]

theorem not_rejection_of_code (h : errorCode e ≠ some "ValidationException") :
    isTemperatureRejection e = false :=
  Bool.eq_false_iff.mpr fun hrejection => h (isTemperatureRejection_code hrejection)

theorem not_profileArnError_of_code (h : errorCode e ≠ some "ResourceNotFoundException") :
    isProfileArnError e = false :=
  Bool.eq_false_iff.mpr fun harn => h (isProfileArnError_iff.mp harn)

-- ---------------------------------------------------------------------------
-- The request
-- ---------------------------------------------------------------------------

open Json (entry dictIf)

def buildToolSpec (tool : Tool) : Json :=
  .dict [("toolSpec", .dict (entry "name" tool.name ++
    entry "inputSchema" (some (.dict [("json", tool.inputSchema)])) ++
    entry "description" (if tool.description.truthy then tool.description else none)))]

def buildToolConfig (request : ContractRequest) : Json :=
  .dict (entry "tools" (some (.list (request.tools.map buildToolSpec))) ++
    entry "toolChoice" (if request.forcedTool.truthy then
      some (.dict [("tool", .dict [("name", request.forcedTool)])]) else none))

/-- Converse takes the schema as a JSON string. -/
def buildOutputConfig (py : Stdlib) (outputFormat : OutputFormat) : Result Json := do
  let schema ← py.dumps outputFormat.schema
  let jsonSchema := entry "schema" (some (.str schema)) ++ entry "name" outputFormat.name ++
    entry "description" (if outputFormat.description.truthy then outputFormat.description else none)
  return .dict [("textFormat", .dict [("type", .str "json_schema"),
    ("structure", .dict [("jsonSchema", .dict jsonSchema)])])]

/-- Thinking and effort, in the Messages API's own shape. -/
def additionalFields (request : ContractRequest) : List (String × Json) :=
  entry "thinking" (request.thinking.map fun thinking => .dict [("type", .str thinking)]) ++
    entry "output_config" (request.effort.map fun effort => .dict [("effort", .str effort)])

def outputConfigOf (py : Stdlib) (request : ContractRequest) : Result (Option Json) :=
  match request.outputFormat with
  | some outputFormat => do return some (← buildOutputConfig py outputFormat)
  | none => .ok none

def buildConverseKwargs (py : Stdlib) (request : ContractRequest) (model : Option String)
    (includeTemperature : Bool) : Result Json := do
  let inferenceConfig := entry "maxTokens" request.maxOutputTokens ++
    entry "temperature" (if includeTemperature then request.temperature else none)
  let outputConfig ← outputConfigOf py request
  return .dict (entry "modelId" (some (.str (model.getD (resolveModelRef request.modelId)))) ++
    entry "messages" (some (.list [.dict [("role", .str "user"),
      ("content", .list [.dict [("text", .str request.prompt)]])]])) ++
    entry "inferenceConfig" (some (.dict inferenceConfig)) ++
    entry "toolConfig" (if request.tools ≠ [] then buildToolConfig request else none) ++
    entry "outputConfig" outputConfig ++
    entry "additionalModelResponseFieldPaths"
      (outputConfig.map fun _ => .list [.str "/stop_details"]) ++
    entry "additionalModelRequestFields" (dictIf (additionalFields request)))

theorem buildConverseKwargs_ok (h : outputConfigOf py request = .ok outputConfig)
    (model : Option String) (b : Bool) : ∃ kwargs, buildConverseKwargs py request model b = .ok kwargs := by
  simp [buildConverseKwargs, h]

theorem buildConverseKwargs_error (h : outputConfigOf py request = .error e) (model : Option String)
    (b : Bool) : buildConverseKwargs py request model b = .error e := by
  simp [buildConverseKwargs, h]

theorem errorCode_outputConfigOf (hpy : py.DumpsRaises) (h : outputConfigOf py request = .error e) :
    errorCode e = none := by
  unfold outputConfigOf at h
  split at h
  · rename_i outputFormat _
    have hdumps : py.dumps outputFormat.schema = .error e := by
      simpa [buildOutputConfig, bind_error] using h
    rcases hpy _ e hdumps with ht | ht | ht <;> simp [errorCode, ht]
  · cases h

/-- A call that cannot be built raises nothing that either fallback reads. -/
theorem outputConfigOf_noFallback (hpy : py.DumpsRaises) (h : outputConfigOf py request = .error e) :
    isTemperatureRejection e = false ∧ isProfileArnError e = false := by
  have hcode := errorCode_outputConfigOf hpy h
  exact ⟨not_rejection_of_code (by simp [hcode]), not_profileArnError_of_code (by simp [hcode])⟩

def modelIdOf (kwargs : Json) : Option Json := kwargs.at? ["modelId"]

def carriesTemperature (kwargs : Json) : Bool := (kwargs.at? ["inferenceConfig", "temperature"]).isSome

theorem modelIdOf_kwargs (h : buildConverseKwargs py request (some model) b = .ok kwargs) :
    modelIdOf kwargs = some (.str model) := by
  simp only [buildConverseKwargs, bind_ok, pure_ok] at h
  obtain ⟨outputConfig, -, rfl⟩ := h
  simp [modelIdOf, Json.lookup_append]

theorem carriesTemperature_kwargs (h : buildConverseKwargs py request model b = .ok kwargs) :
    carriesTemperature kwargs = b := by
  simp only [buildConverseKwargs, bind_ok, pure_ok] at h
  obtain ⟨outputConfig, -, rfl⟩ := h
  cases b <;> simp [carriesTemperature, Json.lookup_append]

-- ---------------------------------------------------------------------------
-- The reply
-- ---------------------------------------------------------------------------

def collectBlock (collected : List Json × List Json) (block : Json) :
    Result (List Json × List Json) := do
  let (texts, toolUses) := collected
  if (← block.get "text").truthy then
    return (texts ++ [← block.item "text"], toolUses)
  else if (← block.get "toolUse").truthy then
    let toolUse ← block.item "toolUse"
    if ← toolUse.contains "input" then
      return (texts, toolUses ++ [← toolUse.item "input"])
    else
      return (texts, toolUses)
  else
    return (texts, toolUses)

/-- `isinstance(stop_details, dict) and stop_details.get("type") == "refusal"` -/
def isRefusal (stopDetails : Json) : Bool :=
  match stopDetails with
  | .dict items => Json.lookup "type" items = some (.str "refusal")
  | _ => false

def extractOutput (py : Stdlib) (response : Json) (jsonOutput : Bool) : Result Json := do
  let outputMessage ← (← response.getD "output" (.dict [])).getD "message" (.dict [])
  let content ← outputMessage.getD "content" (.list [])
  let (texts, toolUses) ← (← content.iter).foldlM collectBlock ([], [])
  let stopReason ← response.get "stopReason"
  let stopDetails ← (← response.getD "additionalModelResponseFields" (.dict [])).get "stop_details"
  if isRefusal stopDetails then
    buildOutput py texts toolUses jsonOutput (.str "refusal") (← stopDetails.get "category")
  else
    buildOutput py texts toolUses jsonOutput stopReason .null

-- ---------------------------------------------------------------------------
-- A completion
-- ---------------------------------------------------------------------------

/-- The value under `key` of a dict kept as a list of its items. -/
def invalidSince (w : World) (model : String) : Option Rat :=
  (w.profileInvalidSince.find? fun kv => kv.1 = model).map (·.2)

section
variable (py : Stdlib) (backend : Backend Json) (clock : Nat → Rat)
  (inferenceProfiles : List (String × String))

def profileOf (model : String) : Option String :=
  (inferenceProfiles.find? fun kv => kv.1 = model).map (·.2)

def warnUnmapped (model : String) : Effect Unit := fun w =>
  (.ok (), { w with unmappedModelsWarned :=
    if model ∈ w.unmappedModelsWarned then w.unmappedModelsWarned
    else model :: w.unmappedModelsWarned })

def lookupProfile (model : String) : Effect String :=
  match profileOf inferenceProfiles model with
  | some arn => pure arn
  | none => do
    warnUnmapped model
    return model

def resolveProfile (model : String) : Effect String := fun w =>
  match invalidSince w model with
  | some since => (do
      let now ← monotonic clock
      if Double.sub now since < profileArnCooldownSeconds then
        return model
      else
        lookupProfile inferenceProfiles model : Effect String) w
  | none => lookupProfile inferenceProfiles model w

theorem lookupProfile_calls (model : String) (w : World) :
    (lookupProfile inferenceProfiles model w).2.calls = w.calls := by
  unfold lookupProfile
  cases profileOf inferenceProfiles model <;> rfl

theorem resolveProfile_calls (model : String) (w : World) :
    (resolveProfile clock inferenceProfiles model w).2.calls = w.calls := by
  unfold resolveProfile
  cases invalidSince w model with
  | none => exact lookupProfile_calls _ model w
  | some since =>
    show (Effect.bind (monotonic clock) _ w).2.calls = w.calls
    simp only [Effect.bind, monotonic]
    split
    · rfl
    · exact lookupProfile_calls _ model _

def converse (request : ContractRequest) (model resolvedModel : String) : Effect Json :=
  completeWithTemperatureFallback model
    (fun includeTemperature => do
      let kwargs ← Effect.lift (buildConverseKwargs py request (some resolvedModel) includeTemperature)
      backend.call kwargs)
    isTemperatureRejection (omitsTemperature request)

/-- `self._profile_invalid_since[model] = time.monotonic()` -/
def recordInvalidProfile (model : String) : Effect Unit := do
  let now ← monotonic clock
  fun w => (.ok (), { w with profileInvalidSince :=
    (model, now) :: w.profileInvalidSince.filter fun kv => kv.1 ≠ model })

theorem find?_set (d : List (String × α)) (k k' : String) (v : α) :
    ((k, v) :: d.filter fun kv => kv.1 ≠ k).find? (fun kv => kv.1 = k') =
      if k' = k then some (k, v) else d.find? fun kv => kv.1 = k' := by
  by_cases h : k' = k
  · simp [h]
  · have hne : k ≠ k' := Ne.symm h
    have hkeep : (fun kv : String × α => decide (decide (kv.1 ≠ k) = true ∧ decide (kv.1 = k') = true)) =
        fun kv => decide (kv.1 = k') := by
      funext kv
      by_cases hkv : kv.1 = k' <;> simp [hkv, h]
    rw [List.find?_cons_of_neg (by simpa using hne), List.find?_filter, if_neg h, hkeep]

def toLlmResponse (request : ContractRequest) (response : Json) : Result LLMResponse := do
  let usage ← response.getD "usage" (.dict [])
  let output ← extractOutput py response request.outputFormat.isSome
  return ⟨output, ← usage.getD "inputTokens" (.int 0), ← usage.getD "outputTokens" (.int 0)⟩

def complete (request : ContractRequest) : Effect LLMResponse := do
  let model := resolveModelRef request.modelId
  let resolvedModel ← resolveProfile clock inferenceProfiles model
  let response ← Effect.tryCatch (converse py backend request model resolvedModel) fun exc =>
    if resolvedModel = model ∨ isProfileArnError exc = false then
      Effect.raise exc
    else do
      recordInvalidProfile clock model
      converse py backend request model model
  Effect.lift (toLlmResponse py request response)

end

end LlmWorker.Bedrock
