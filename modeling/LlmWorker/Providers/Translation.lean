import LlmWorker.Providers.Reply

/-!
# Both adapters translate faithfully

Decoding the keyword arguments of either backend call gives back what the
request asks for, and a reply to a request without an output format gives the
same envelope from either backend.
-/

namespace LlmWorker

open Python

/-- What a backend call asks for. The name and description of an output format
are left out: the Messages API does not carry them. -/
structure Canonical where
  model : Json
  prompt : Json
  maxTokens : Json
  temperature : Option Json
  tools : List Tool
  forcedTool : Option Json
  schema : Option Json
  thinking : Option Json
  effort : Option Json
  deriving DecidableEq

def ContractRequest.canonical (request : ContractRequest) (model : String) (includeTemperature : Bool) :
    Canonical where
  model := .str model
  prompt := .str request.prompt
  maxTokens := request.maxOutputTokens
  temperature := if includeTemperature then some request.temperature else none
  tools := request.tools
  forcedTool := if request.tools ≠ [] ∧ request.forcedTool.truthy then some request.forcedTool else none
  schema := request.outputFormat.map (·.schema)
  thinking := request.thinking.map .str
  effort := request.effort.map .str

-- ---------------------------------------------------------------------------
-- Decoding
-- ---------------------------------------------------------------------------

def onlyItem : Json → Option Json
  | .list [value] => some value
  | _ => none

def decodeList (decode : Json → Option α) : Option Json → Option (List α)
  | none => some []
  | some (.list items) => items.mapM decode
  | some _ => none

def promptOf (kwargs : Json) (path : List String) : Option Json := do
  let message ← onlyItem (← kwargs.at? ["messages"])
  message.at? path

namespace Bedrock

def decodeTool (value : Json) : Option Tool := do
  return ⟨← value.at? ["toolSpec", "name"], (value.at? ["toolSpec", "description"]).getD (.str ""),
    ← value.at? ["toolSpec", "inputSchema", "json"]⟩

/-- The schema travels as a JSON string. -/
def decodeSchema (py : Stdlib) : Option Json → Option (Option Json)
  | none => some none
  | some (.str text) => (py.loads text).toOption.map some
  | some _ => none

def decode (py : Stdlib) (kwargs : Json) : Option Canonical := do
  let content ← onlyItem (← promptOf kwargs ["content"])
  return {
    model := ← kwargs.at? ["modelId"]
    prompt := ← content.at? ["text"]
    maxTokens := ← kwargs.at? ["inferenceConfig", "maxTokens"]
    temperature := kwargs.at? ["inferenceConfig", "temperature"]
    tools := ← decodeList decodeTool (kwargs.at? ["toolConfig", "tools"])
    forcedTool := kwargs.at? ["toolConfig", "toolChoice", "tool", "name"]
    schema := ← decodeSchema py
      (kwargs.at? ["outputConfig", "textFormat", "structure", "jsonSchema", "schema"])
    thinking := kwargs.at? ["additionalModelRequestFields", "thinking", "type"]
    effort := kwargs.at? ["additionalModelRequestFields", "output_config", "effort"] }

end Bedrock

namespace AnthropicMessages

def decodeTool (value : Json) : Option Tool := do
  return ⟨← value.at? ["name"], (value.at? ["description"]).getD (.str ""), ← value.at? ["input_schema"]⟩

def decode (kwargs : Json) : Option Canonical := do
  return {
    model := ← kwargs.at? ["model"]
    prompt := ← promptOf kwargs ["content"]
    maxTokens := ← kwargs.at? ["max_tokens"]
    temperature := kwargs.at? ["temperature"]
    tools := ← decodeList decodeTool (kwargs.at? ["tools"])
    forcedTool := kwargs.at? ["tool_choice", "name"]
    schema := kwargs.at? ["output_config", "format", "schema"]
    thinking := kwargs.at? ["thinking", "type"]
    effort := kwargs.at? ["output_config", "effort"] }

end AnthropicMessages

-- ---------------------------------------------------------------------------
-- The tools
-- ---------------------------------------------------------------------------

/-- The declared type of a tool's description. -/
def Tool.Described (tool : Tool) : Prop := ∃ text, tool.description = .str text

theorem Bedrock.decodeTool_build {tool : Tool} (h : tool.Described) :
    decodeTool (buildToolSpec tool) = some tool := by
  obtain ⟨name, description, schema⟩ := tool
  obtain ⟨text, rfl⟩ := h
  by_cases ht : text = "" <;> simp [decodeTool, buildToolSpec, Json.lookup_append, Json.truthy, ht]

theorem AnthropicMessages.decodeTool_build (tool : Tool) : decodeTool (buildTool tool) = some tool := by
  simp [decodeTool, buildTool, Json.lookup_cons]

theorem decodeList_map {decode : Json → Option α} {encode : α → Json} {l : List α}
    (h : ∀ a ∈ l, decode (encode a) = some a) :
    decodeList decode (if l ≠ [] then some (.list (l.map encode)) else none) = some l := by
  have hmap : (l.map encode).mapM decode = some l := by
    induction l with
    | nil => rfl
    | cons a rest ih =>
      rw [List.map_cons, List.mapM_cons, h a (by simp), ih fun b hb => h b (List.mem_cons_of_mem _ hb)]
      rfl
  by_cases hl : l = []
  · simp [hl, decodeList]
  · rw [if_pos hl]
    exact hmap

-- ---------------------------------------------------------------------------
-- The requests
-- ---------------------------------------------------------------------------

theorem bind_some_eq_map (o : Option α) (f : α → β) : (o.bind fun a => some (f a)) = o.map f :=
  Option.map_eq_bind.symm

/-- `json.loads(json.dumps(value))` is `value`. -/
def Stdlib.RoundTrips (py : Stdlib) (value : Json) : Prop :=
  ∃ text, py.dumps value = .ok text ∧ py.loads text = .ok value

namespace Bedrock

variable {py : Stdlib} {request : ContractRequest}

theorem decodeSchema_outputConfigOf
    (hschema : ∀ outputFormat, request.outputFormat = some outputFormat → py.RoundTrips outputFormat.schema) :
    ∃ outputConfig, outputConfigOf py request = .ok outputConfig ∧
      decodeSchema py (outputConfig.bind fun v => v.at? ["textFormat", "structure", "jsonSchema", "schema"]) =
        some (request.outputFormat.map (·.schema)) := by
  unfold outputConfigOf
  cases hf : request.outputFormat with
  | none => exact ⟨none, rfl, rfl⟩
  | some outputFormat =>
    obtain ⟨text, hdumps, hloads⟩ := hschema outputFormat hf
    refine ⟨_, by simp [buildOutputConfig, hdumps]; rfl, ?_⟩
    simp [Json.lookup_cons, Json.lookup_append, decodeSchema, hloads, Except.toOption]

theorem decodeTools_toolConfig (htools : ∀ tool ∈ request.tools, tool.Described) :
    decodeList decodeTool ((if request.tools = [] then none else some (buildToolConfig request)).bind
      fun v => v.at? ["tools"]) = some request.tools := by
  by_cases ht : request.tools = []
  · simp [ht, decodeList]
  · have hmap := decodeList_map fun tool htool => decodeTool_build (htools tool htool)
    simpa [ht, buildToolConfig, Json.lookup_append] using hmap

theorem forcedTool_toolConfig (request : ContractRequest) :
    ((if request.tools = [] then none else some (buildToolConfig request)).bind
      fun v => v.at? ["toolChoice", "tool", "name"]) =
        if request.tools ≠ [] ∧ request.forcedTool.truthy then some request.forcedTool else none := by
  by_cases ht : request.tools = [] <;> cases hf : request.forcedTool.truthy <;>
    simp [ht, hf, buildToolConfig, Json.lookup_append]

theorem decode_kwargs (htools : ∀ tool ∈ request.tools, tool.Described)
    (hschema : ∀ outputFormat, request.outputFormat = some outputFormat → py.RoundTrips outputFormat.schema)
    (model : Option String) (includeTemperature : Bool) :
    ∃ kwargs, buildConverseKwargs py request model includeTemperature = .ok kwargs ∧
      decode py kwargs = some (request.canonical (model.getD (resolveModelRef request.modelId))
        includeTemperature) := by
  obtain ⟨outputConfig, hconfig, hdecode⟩ := decodeSchema_outputConfigOf hschema
  refine ⟨_, by rw [buildConverseKwargs, hconfig]; rfl, ?_⟩
  simp [decode, promptOf, onlyItem, additionalFields, Json.lookup_append, Json.lookup_cons, Json.at?_dictIf,
    decodeTools_toolConfig htools, forcedTool_toolConfig, hdecode, ContractRequest.canonical, Option.bind_map,
    Function.comp_def, bind_some_eq_map]

end Bedrock

namespace AnthropicMessages

variable (request : ContractRequest)

theorem decodeTools_kwargs :
    decodeList decodeTool (if request.tools = [] then none else some (.list (request.tools.map buildTool))) =
      some request.tools := by
  simpa using decodeList_map (l := request.tools) fun tool _ => decodeTool_build tool

theorem forcedTool_kwargs :
    ((if ¬request.tools = [] ∧ request.forcedTool.truthy then
      some (Json.dict [("type", .str "tool"), ("name", request.forcedTool)]) else none).bind
        fun v => v.at? ["name"]) =
      if ¬request.tools = [] ∧ request.forcedTool.truthy then some request.forcedTool else none := by
  split <;> simp [Json.lookup_cons]

theorem decode_kwargs (model : String) (includeTemperature : Bool) :
    decode (buildKwargs request model includeTemperature) =
      some (request.canonical model includeTemperature) := by
  simp [decode, promptOf, onlyItem, buildKwargs, outputConfig, Json.lookup_append, Json.lookup_cons,
    Json.at?_dictIf, decodeTools_kwargs, forcedTool_kwargs, ContractRequest.canonical, Option.bind_map,
    Function.comp_def, bind_some_eq_map]

end AnthropicMessages

-- ---------------------------------------------------------------------------
-- The replies
-- ---------------------------------------------------------------------------

def Reply.envelope (reply : Reply) : Json :=
  .dict (("output_text", .str reply.outputText) ::
    Json.entry "tool_uses" (if reply.toolInputs = [] then none else some (.list reply.toolInputs)))

theorem buildOutput_plain (py : Stdlib) (texts : List String) (toolUses : List Json)
    (stopReason category : Json) :
    buildOutput py (texts.map .str) toolUses false stopReason category =
      .ok (.dict (("output_text", .str (texts.foldr (· ++ ·) "")) ::
        Json.entry "tool_uses" (if toolUses = [] then none else some (.list toolUses)))) := by
  by_cases ht : toolUses = [] <;> simp [buildOutput, joinTexts_str, Json.entry, ht]

theorem Reply.plain_envelopes (py : Stdlib) (request : ContractRequest) (hplain : request.outputFormat = none)
    (reply : Reply) (usage : Option AnthropicMessages.Usage) :
    Bedrock.extractOutput py reply.toConverse request.outputFormat.isSome = .ok reply.envelope ∧
      (AnthropicMessages.toLlmResponse py request (reply.toMessage usage)).map (·.output) =
        .ok reply.envelope := by
  rw [extractOutput_toConverse, toLlmResponse_toMessage, hplain]
  simp only [Option.isSome_none, buildOutput_plain, outputText_spoken]
  exact ⟨rfl, rfl⟩

/-- Either backend is asked for what the request says, and a reply to a request
without an output format gives the same envelope. -/
theorem adapters_translate_faithfully (py : Stdlib) (request : ContractRequest)
    (htools : ∀ tool ∈ request.tools, tool.Described)
    (hschema : ∀ outputFormat, request.outputFormat = some outputFormat → py.RoundTrips outputFormat.schema) :
    (∀ (model : Option String) (includeTemperature : Bool),
      let target := model.getD (resolveModelRef request.modelId)
      ∃ kwargs, Bedrock.buildConverseKwargs py request model includeTemperature = .ok kwargs ∧
        Bedrock.decode py kwargs = some (request.canonical target includeTemperature) ∧
        AnthropicMessages.decode (AnthropicMessages.buildKwargs request target includeTemperature) =
          some (request.canonical target includeTemperature)) ∧
    (request.outputFormat = none → ∀ (reply : Reply) (usage : Option AnthropicMessages.Usage),
      Bedrock.extractOutput py reply.toConverse request.outputFormat.isSome = .ok reply.envelope ∧
        (AnthropicMessages.toLlmResponse py request (reply.toMessage usage)).map (·.output) =
          .ok reply.envelope) := by
  constructor
  · intro model includeTemperature target
    obtain ⟨kwargs, hbuild, hdecode⟩ := Bedrock.decode_kwargs htools hschema model includeTemperature
    exact ⟨kwargs, hbuild, hdecode, AnthropicMessages.decode_kwargs request target includeTemperature⟩
  · intro hplain reply usage
    exact reply.plain_envelopes py request hplain usage

def fullRequest : ContractRequest :=
  { profiledRequest with
    tools := [⟨.str "score", .str "Scores the row", .dict []⟩, ⟨.str "skip", .str "", .dict []⟩]
    forcedTool := .str "score"
    effort := some "low" }

theorem fullRequest_translated :
    ∃ kwargs, Bedrock.buildConverseKwargs sampleStdlib fullRequest (some "profile") true = .ok kwargs ∧
      Bedrock.decode sampleStdlib kwargs = some (fullRequest.canonical "profile" true) ∧
      AnthropicMessages.decode (AnthropicMessages.buildKwargs fullRequest "profile" true) =
        some (fullRequest.canonical "profile" true) := by
  have htools : ∀ tool ∈ fullRequest.tools, tool.Described := by
    simp [fullRequest, Tool.Described]
  have hschema : ∀ outputFormat, fullRequest.outputFormat = some outputFormat →
      sampleStdlib.RoundTrips outputFormat.schema := by
    rintro outputFormat ⟨⟩
    exact ⟨_, rfl, by decide⟩
  exact (adapters_translate_faithfully sampleStdlib fullRequest htools hschema).1 (some "profile") true

end LlmWorker
