import LlmWorker.Providers.Base

/-!
# The Anthropic Messages adapter

`providers/anthropic_messages.py`, shared by Vertex and Foundry, which only
build their own client.
-/

namespace LlmWorker.AnthropicMessages

open Python

def classifyError (e : Exc) : ErrorDisposition :=
  match e.type with
  | .rateLimitError | .apiConnectionError | .apiTimeoutError | .internalServerError => .retry
  | .authenticationError | .permissionDeniedError => .abortBatch
  | _ => .failRow

/-- `except BadRequestError` and `_is_temperature_rejection`. -/
def isTemperatureRejection (e : Exc) : Bool :=
  e.type = .badRequestError && isTemperatureRejectionMessage e.text

-- ---------------------------------------------------------------------------
-- The request
-- ---------------------------------------------------------------------------

open Json (entry dictIf)

def buildTool (tool : Tool) : Json :=
  .dict [("name", tool.name), ("description", tool.description),
    ("input_schema", tool.inputSchema)]

/-- The Messages API takes only the schema of an output format. -/
def outputConfig (request : ContractRequest) : List (String × Json) :=
  entry "format" (request.outputFormat.map fun outputFormat =>
    .dict [("type", .str "json_schema"), ("schema", outputFormat.schema)]) ++
  entry "effort" (request.effort.map fun effort => .str effort)

def buildKwargs (request : ContractRequest) (model : String) (includeTemperature : Bool) : Json :=
  .dict (entry "model" (some (.str model)) ++ entry "max_tokens" request.maxOutputTokens ++
    entry "messages" (some (.list [.dict [("role", .str "user"), ("content", .str request.prompt)]])) ++
    entry "temperature" (if includeTemperature then request.temperature else none) ++
    entry "tools" (if request.tools ≠ [] then some (.list (request.tools.map buildTool)) else none) ++
    entry "tool_choice" (if request.tools ≠ [] ∧ request.forcedTool.truthy then
      some (.dict [("type", .str "tool"), ("name", request.forcedTool)]) else none) ++
    entry "output_config" (dictIf (outputConfig request)) ++
    entry "thinking" (request.thinking.map fun thinking => .dict [("type", .str thinking)]))

-- ---------------------------------------------------------------------------
-- The reply
-- ---------------------------------------------------------------------------

/-- A content block of the client's `Message`; `other` is any further block
type, such as thinking. -/
inductive Block
  | text (text : String)
  | toolUse (input : Json)
  | other (type : String)

structure StopDetails where
  type : String
  category : Option String

structure Usage where
  inputTokens : Int
  outputTokens : Int

structure Message where
  content : List Block
  stopReason : Option String
  stopDetails : Option StopDetails
  usage : Option Usage

/-- An optional string attribute as a Python value. -/
def optStr : Option String → Json
  | some s => .str s
  | none => .null

def collectBlock (collected : List Json × List Json) : Block → List Json × List Json
  | .text s => (collected.1 ++ [.str s], collected.2)
  | .toolUse input => (collected.1, collected.2 ++ [input])
  | .other _ => collected

def refusalCategory (response : Message) : Json :=
  match response.stopDetails with
  | some details => optStr details.category
  | none => .null

def toOutput (py : Stdlib) (response : Message) (jsonOutput : Bool) : Result Json :=
  let (texts, toolUses) := response.content.foldl collectBlock ([], [])
  buildOutput py texts toolUses jsonOutput (optStr response.stopReason) (refusalCategory response)

def toLlmResponse (py : Stdlib) (request : ContractRequest) (response : Message) :
    Result LLMResponse := do
  let output ← toOutput py response request.outputFormat.isSome
  return match response.usage with
    | some usage => ⟨output, .int usage.inputTokens, .int usage.outputTokens⟩
    | none => ⟨output, .int 0, .int 0⟩

-- ---------------------------------------------------------------------------
-- A completion
-- ---------------------------------------------------------------------------

def complete (py : Stdlib) (backend : Backend Message) (request : ContractRequest) :
    Effect LLMResponse := do
  let model := resolveModelRef request.modelId
  let response ← completeWithTemperatureFallback model
    (fun includeTemperature => backend.call (buildKwargs request model includeTemperature))
    isTemperatureRejection (omitsTemperature request)
  Effect.lift (toLlmResponse py request response)

end LlmWorker.AnthropicMessages
