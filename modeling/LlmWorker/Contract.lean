import LlmWorker.Python.Json

/-!
# The eval contract and its upconverter

`contract.py`: a row's `params` and `tool_config`, in the v0 (Bedrock) or the
v1 (flat) spelling, become one `ContractRequest`. The dialect is read off the
payload's shape. Nothing checks the types of most fields, so they stay
arbitrary JSON values here as well.
-/

namespace LlmWorker

open Python

/-- `repr`, `json.loads` and `json.dumps` of the interpreter. -/
structure Stdlib where
  repr : Json → String
  loads : String → Result Json
  dumps : Json → Result String

/-- What CPython's `json.dumps` raises. -/
def Stdlib.DumpsRaises (py : Stdlib) : Prop :=
  ∀ value e, py.dumps value = .error e →
    e.type = .typeError ∨ e.type = .valueError ∨ e.type = .recursionError

def defaultMaxOutputTokens : Json := .int 512
def defaultTemperature : Json := .float (.ofInt 0 natAbs_zero_lt)
def modelRefPrefixes : List String := ["mc:", "provider:"]

structure Tool where
  name : Json
  description : Json
  inputSchema : Json
  deriving DecidableEq

/-- A JSON schema the model's reply must match. -/
structure OutputFormat where
  name : Json
  description : Json
  schema : Json
  deriving DecidableEq

/-- A normalized v1 request. `forcedTool` is `null` for an automatic choice. -/
structure ContractRequest where
  modelId : String
  prompt : String
  maxOutputTokens : Json
  temperature : Json
  tools : List Tool
  forcedTool : Json
  outputFormat : Option OutputFormat
  thinking : Option String
  effort : Option String
  deriving DecidableEq

/-- `s[len(p):] if s.startswith(p) else None` -/
def stripPrefix (p s : String) : Option String :=
  if p.toList <+: s.toList then some (String.ofList (s.toList.drop p.length)) else none

def resolveModelRef (modelId : String) : String :=
  (modelRefPrefixes.findSome? fun p => stripPrefix p modelId).getD modelId

section
variable (py : Stdlib)

def notNonEmptyStr (key : String) (value : Json) : Exc :=
  valueError ("params." ++ key ++ " must be a non-empty string, got " ++ py.repr value)

def optionalStr (params : Json) (key : String) : Result (Option String) := do
  match ← params.get key with
  | .null => return none
  | .str s =>
    raiseIf (s = "") (notNonEmptyStr py key (.str s))
    return some s
  | value => throw (notNonEmptyStr py key value)

def missingName : Exc := valueError "tool spec missing required 'name'"

/-- `normalizeTool` on v0: `{"toolSpec": {"name", "description", "inputSchema":
{"json": schema}}}`. -/
def normalizeToolSpec (spec : Json) : Result Tool := do
  let name ← spec.get "name"
  raiseIf (!name.truthy) missingName
  let description ← spec.getD "description" (.str "")
  let inputSchema ← spec.getD "inputSchema" (.dict [])
  return ⟨name, description, ← inputSchema.getD "json" (.dict [])⟩

/-- `normalizeTool` on v1: `{"name", "description", "input_schema"}`. -/
def normalizeFlatTool (tool : Json) : Result Tool := do
  let name ← tool.get "name"
  raiseIf (!name.truthy) missingName
  let description ← tool.getD "description" (.str "")
  return ⟨name, description, ← tool.getD "input_schema" (.dict [])⟩

def normalizeTool (tool : Json) : Result Tool := do
  if ← tool.contains "toolSpec" then
    normalizeToolSpec (← tool.item "toolSpec")
  else
    normalizeFlatTool tool

/-- The forced tool's name; `null` stands for `None`. -/
def normalizeToolChoice (toolChoice : Json) : Result Json := do
  if !toolChoice.truthy then
    return .null
  else if toolChoice.isStr then  -- v1: "auto"
    return .null
  else if ← toolChoice.contains "tool" then  -- v0: {"tool": {"name": ...}}
    (← toolChoice.item "tool").get "name"
  else if ← toolChoice.contains "name" then  -- v1: {"name": ...}
    toolChoice.item "name"
  else
    return .null

def normalizeTools (toolConfig : Json) : Result (List Tool × Json) := do
  if !toolConfig.truthy then
    return ([], .null)
  else
    let specs ← (← toolConfig.getD "tools" (.list [])).iter
    let tools ← specs.mapM normalizeTool
    let toolChoice ← toolConfig.get "toolChoice"
    let forcedTool ← normalizeToolChoice (← toolConfig.getD "tool_choice" toolChoice)
    return (tools, forcedTool)

/-- `normalizeOutputFormat` once the field is not `None`. -/
def outputFormatOf (outputFormat : Json) : Result OutputFormat := do
  let type ← outputFormat.get "type"
  raiseIf (type ≠ .str "json_schema")
    (valueError ("output_format type must be 'json_schema', got " ++ py.repr type))
  let schema ← outputFormat.get "schema"
  raiseIf (!schema.isDict) (valueError "output_format missing required 'schema' object")
  let name ← outputFormat.get "name"
  raiseIf (!name.truthy) (valueError "output_format missing required 'name'")
  return ⟨name, ← outputFormat.getD "description" (.str ""), schema⟩

def normalizeOutputFormat (toolConfig : Json) : Result (Option OutputFormat) := do
  let outputFormat ← (if toolConfig.truthy then toolConfig else .dict []).get "output_format"
  if outputFormat = .null then
    return none
  else
    return some (← outputFormatOf py outputFormat)

def toolsWithOutputFormat : Exc :=
  valueError "tool_config can't have both output_format and tools"
def thinkingWithForcedTool : Exc :=
  valueError "params.thinking can't be combined with a forced tool choice"

def maxOutputTokensOf (params : Json) : Result Json := do
  let maxOutputTokens ← params.get "max_output_tokens"
  if maxOutputTokens = .null then
    params.getD "maxTokens" defaultMaxOutputTokens
  else
    return maxOutputTokens

def buildRequest (modelId prompt : String) (params toolConfig : Json) : Result ContractRequest := do
  let maxOutputTokens ← maxOutputTokensOf params
  let temperature ← params.getD "temperature" defaultTemperature
  let (tools, forcedTool) ← normalizeTools toolConfig
  let outputFormat ← normalizeOutputFormat py toolConfig
  let thinking ← optionalStr py params "thinking"
  raiseIf (outputFormat.isSome ∧ tools ≠ []) toolsWithOutputFormat
  raiseIf (thinking.isSome ∧ forcedTool ≠ .null) thinkingWithForcedTool
  let effort ← optionalStr py params "effort"
  return { modelId, prompt, maxOutputTokens, temperature, tools, forcedTool, outputFormat,
           thinking, effort }

end

/-- What `buildRequest` rules out, for a request an adapter can be handed. -/
structure ContractRequest.Compatible (request : ContractRequest) : Prop where
  outputFormat_tools : request.outputFormat.isSome → request.tools = []
  thinking_forcedTool : request.thinking.isSome → request.forcedTool = .null

theorem buildRequest_compatible
    (h : buildRequest py modelId prompt params toolConfig = .ok request) : request.Compatible := by
  simp only [buildRequest, bind_ok, raiseIf_ok, pure_ok] at h
  obtain ⟨maxOutputTokens, -, temperature, -, ⟨tools, forcedTool⟩, -, h⟩ := h
  obtain ⟨outputFormat, -, thinking, -, -, hformat, -, hthinking, effort, -, rfl⟩ := h
  constructor
  · intro hsome
    exact Classical.byContradiction fun htools => hformat ⟨hsome, htools⟩
  · intro hsome
    exact Classical.byContradiction fun hforced => hthinking ⟨hsome, hforced⟩

-- ---------------------------------------------------------------------------
-- What a malformed row raises
-- ---------------------------------------------------------------------------

section
open Json (Malformed get_raises getD_raises contains_raises item_raises iter_raises)

theorem malformed_valueError (text : String) : Malformed (valueError text) := by
  simp [Malformed, valueError]

theorem optionalStr_raises (py : Stdlib) (params : Json) (key : String) :
    RaisesOnly Malformed (optionalStr py params key) := by
  refine .bind (get_raises _ _) fun value => ?_
  cases value with
  | null => exact .ok _
  | str s => exact .bind (.raiseIf (malformed_valueError _)) fun _ => .ok _
  | _ => exact .error (malformed_valueError _)

theorem normalizeTool_raises (tool : Json) : RaisesOnly Malformed (normalizeTool tool) := by
  refine .bind (contains_raises _ _) fun hasSpec => ?_
  split
  · refine .bind (item_raises _ _) fun spec => .bind (get_raises _ _) fun name => ?_
    refine .bind (.raiseIf (malformed_valueError _)) fun _ => .bind (getD_raises _ _ _) fun _ => ?_
    exact .bind (getD_raises _ _ _) fun _ => .bind (getD_raises _ _ _) fun _ => .ok _
  · refine .bind (get_raises _ _) fun name => .bind (.raiseIf (malformed_valueError _)) fun _ => ?_
    exact .bind (getD_raises _ _ _) fun _ => .bind (getD_raises _ _ _) fun _ => .ok _

theorem normalizeToolChoice_raises (toolChoice : Json) :
    RaisesOnly Malformed (normalizeToolChoice toolChoice) := by
  unfold normalizeToolChoice
  split
  · exact .ok _
  split
  · exact .ok _
  refine .bind (contains_raises _ _) fun hasTool => ?_
  split
  · exact .bind (item_raises _ _) fun _ => get_raises _ _
  refine .bind (contains_raises _ _) fun hasName => ?_
  split
  · exact item_raises _ _
  · exact .ok _

theorem normalizeTools_raises (toolConfig : Json) :
    RaisesOnly Malformed (normalizeTools toolConfig) := by
  unfold normalizeTools
  split
  · exact .ok _
  · refine .bind (getD_raises _ _ _) fun _ => .bind (iter_raises _) fun _ => ?_
    refine .bind (.mapM normalizeTool_raises _) fun _ => .bind (get_raises _ _) fun _ => ?_
    exact .bind (getD_raises _ _ _) fun _ => .bind (normalizeToolChoice_raises _) fun _ => .ok _

theorem outputFormatOf_raises (py : Stdlib) (outputFormat : Json) :
    RaisesOnly Malformed (outputFormatOf py outputFormat) := by
  refine .bind (get_raises _ _) fun _ => .bind (.raiseIf (malformed_valueError _)) fun _ => ?_
  refine .bind (get_raises _ _) fun _ => .bind (.raiseIf (malformed_valueError _)) fun _ => ?_
  refine .bind (get_raises _ _) fun _ => .bind (.raiseIf (malformed_valueError _)) fun _ => ?_
  exact .bind (getD_raises _ _ _) fun _ => .ok _

theorem normalizeOutputFormat_raises (py : Stdlib) (toolConfig : Json) :
    RaisesOnly Malformed (normalizeOutputFormat py toolConfig) := by
  refine .bind (get_raises _ _) fun outputFormat => ?_
  split
  · exact .ok _
  · exact .bind (outputFormatOf_raises py _) fun _ => .ok _

theorem maxOutputTokensOf_raises (params : Json) :
    RaisesOnly Malformed (maxOutputTokensOf params) := by
  refine .bind (get_raises _ _) fun _ => ?_
  split
  · exact getD_raises _ _ _
  · exact .ok _

/-- Whatever the two values hold, only the four exceptions that `invoke`
reads as a malformed row leave the upconverter. -/
theorem buildRequest_raises (py : Stdlib) (modelId prompt : String) (params toolConfig : Json) :
    RaisesOnly Malformed (buildRequest py modelId prompt params toolConfig) := by
  refine .bind (maxOutputTokensOf_raises _) fun _ => .bind (getD_raises _ _ _) fun _ => ?_
  refine .bind (normalizeTools_raises _) fun _ => .bind (normalizeOutputFormat_raises py _) fun _ => ?_
  refine .bind (optionalStr_raises py _ _) fun _ => .bind (.raiseIf (malformed_valueError _)) fun _ => ?_
  refine .bind (.raiseIf (malformed_valueError _)) fun _ => ?_
  exact .bind (optionalStr_raises py _ _) fun _ => .ok _

/-- A row is either normalized or rejected as malformed. -/
theorem buildRequest_returns_or_rejects (py : Stdlib) (modelId prompt : String) (params toolConfig : Json) :
    (∃ request, buildRequest py modelId prompt params toolConfig = .ok request) ∨
      ∃ e, buildRequest py modelId prompt params toolConfig = .error e ∧
        (e.type = .keyError ∨ e.type = .typeError ∨ e.type = .attributeError ∨ e.type = .valueError) := by
  cases h : buildRequest py modelId prompt params toolConfig with
  | ok request => exact .inl ⟨request, rfl⟩
  | error e => exact .inr ⟨e, rfl, buildRequest_raises py modelId prompt params toolConfig e h⟩

end

-- ---------------------------------------------------------------------------
-- A sample row
-- ---------------------------------------------------------------------------

/-- Standard-library functions for concrete runs; they know one schema's text. -/
def sampleStdlib : Stdlib where
  repr _ := "…"
  loads s := if s = "\x7b\"type\": \"object\"\x7d" then .ok (.dict [("type", .str "object")])
    else .error ⟨.jsonDecodeError, "Expecting value: line 1 column 1 (char 0)"⟩
  dumps _ := .ok "\x7b\"type\": \"object\"\x7d"

def profiledParams : Json := .dict [("max_output_tokens", .int 4012), ("thinking", .str "adaptive")]
def profiledToolConfig : Json := .dict [("output_format", .dict [("type", .str "json_schema"),
  ("name", .str "evaluation_result"), ("schema", .dict [("type", .str "object")])])]

/-- What the monolith sends for a model that rejects a forced tool call. -/
def profiledRequest : ContractRequest where
  modelId := "m"
  prompt := "p"
  maxOutputTokens := .int 4012
  temperature := defaultTemperature
  tools := []
  forcedTool := .null
  outputFormat := some ⟨.str "evaluation_result", .str "", .dict [("type", .str "object")]⟩
  thinking := some "adaptive"
  effort := none

theorem buildRequest_profiled :
    buildRequest sampleStdlib "m" "p" profiledParams profiledToolConfig = .ok profiledRequest := by
  decide

end LlmWorker
