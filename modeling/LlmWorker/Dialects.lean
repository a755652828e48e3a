import LlmWorker.Contract

/-!
# One row in two dialects

What a row of tools states, without its spelling, and the payloads that spell
it. Parameters, the tool choice and every single tool take a dialect of their
own, because the upconverter reads the dialect off each of them separately.
-/

namespace LlmWorker

open Python
open Json (entry)

/-- v0 is the Bedrock spelling, v1 the flat one. -/
inductive Dialect
  | v0
  | v1
  deriving DecidableEq

inductive StatedChoice
  | absent
  | auto
  | force (name : String)
  deriving DecidableEq

structure StatedTool where
  name : String
  description : Json
  inputSchema : Json
  name_ne : name ≠ ""
  deriving DecidableEq

/-- `none` is an absent key. Only the max-tokens value has to be non-null. -/
structure StatedRow where
  maxTokens : Option Json
  temperature : Option Json
  thinking : Option Json
  effort : Option Json
  choice : StatedChoice
  maxTokens_ne : maxTokens ≠ some .null

-- ---------------------------------------------------------------------------
-- Spelling
-- ---------------------------------------------------------------------------

def StatedRow.params (row : StatedRow) : Dialect → Json
  | .v0 => .dict (entry "maxTokens" row.maxTokens ++ entry "temperature" row.temperature ++
      entry "thinking" row.thinking ++ entry "effort" row.effort)
  | .v1 => .dict (entry "max_output_tokens" row.maxTokens ++ entry "temperature" row.temperature ++
      entry "thinking" row.thinking ++ entry "effort" row.effort)

def StatedTool.spell (tool : StatedTool) : Dialect → Json
  | .v0 => .dict [("toolSpec", .dict [("name", .str tool.name), ("description", tool.description),
      ("inputSchema", .dict [("json", tool.inputSchema)])])]
  | .v1 => .dict [("name", .str tool.name), ("description", tool.description),
      ("input_schema", tool.inputSchema)]

def StatedChoice.spell : StatedChoice → Dialect → List (String × Json)
  | .absent, _ => []
  | .auto, .v0 => [("toolChoice", .dict [("auto", .dict [])])]
  | .auto, .v1 => [("tool_choice", .str "auto")]
  | .force name, .v0 => [("toolChoice", .dict [("tool", .dict [("name", .str name)])])]
  | .force name, .v1 => [("tool_choice", .dict [("name", .str name)])]

def StatedRow.toolConfig (row : StatedRow) (tools : List (StatedTool × Dialect)) (d : Dialect) : Json :=
  .dict ([("tools", .list (tools.map fun tool => tool.1.spell tool.2))] ++ row.choice.spell d)

-- ---------------------------------------------------------------------------
-- Meaning
-- ---------------------------------------------------------------------------

def StatedTool.tool (tool : StatedTool) : Tool := ⟨.str tool.name, tool.description, tool.inputSchema⟩

def StatedChoice.forcedTool : StatedChoice → Json
  | .force name => .str name
  | _ => .null

/-- The request a row states, or the error it earns, with no spelling in it. -/
def StatedRow.request (py : Stdlib) (modelId prompt : String) (row : StatedRow)
    (tools : List StatedTool) : Result ContractRequest := do
  let thinking ← optionalStr py (.dict (entry "thinking" row.thinking)) "thinking"
  raiseIf (thinking.isSome ∧ row.choice.forcedTool ≠ .null) thinkingWithForcedTool
  let effort ← optionalStr py (.dict (entry "effort" row.effort)) "effort"
  return { modelId, prompt, maxOutputTokens := row.maxTokens.getD defaultMaxOutputTokens,
           temperature := row.temperature.getD defaultTemperature, tools := tools.map (·.tool),
           forcedTool := row.choice.forcedTool, outputFormat := none, thinking, effort }

section
variable (row : StatedRow)

theorem maxOutputTokensOf_params (d : Dialect) :
    maxOutputTokensOf (row.params d) = .ok (row.maxTokens.getD defaultMaxOutputTokens) := by
  have hne := row.maxTokens_ne
  cases d with
  | v0 => simp [maxOutputTokensOf, StatedRow.params, Json.lookup_append]
  | v1 =>
    cases h : row.maxTokens with
    | none => simp [maxOutputTokensOf, StatedRow.params, Json.lookup_append, h]
    | some value =>
      have hvalue : value ≠ .null := by simpa [h] using hne
      simp [maxOutputTokensOf, StatedRow.params, Json.lookup_append, h, hvalue]

theorem temperature_params (d : Dialect) :
    (row.params d).getD "temperature" defaultTemperature =
      .ok (row.temperature.getD defaultTemperature) := by
  cases d <;> simp [StatedRow.params, Json.lookup_append]

theorem optionalStr_congr {a b : Json} (h : a.get key = b.get key) :
    optionalStr py a key = optionalStr py b key := by
  simp only [optionalStr, h]

theorem thinking_params (d : Dialect) :
    (row.params d).get "thinking" = (Json.dict (entry "thinking" row.thinking)).get "thinking" := by
  cases d <;> simp [StatedRow.params, Json.lookup_append]

theorem effort_params (d : Dialect) :
    (row.params d).get "effort" = (Json.dict (entry "effort" row.effort)).get "effort" := by
  cases d <;> simp [StatedRow.params, Json.lookup_append]

theorem normalizeTool_spell (tool : StatedTool) (d : Dialect) :
    normalizeTool (tool.spell d) = .ok tool.tool := by
  have hname := tool.name_ne
  cases d <;> simp [normalizeTool, StatedTool.spell, normalizeToolSpec, normalizeFlatTool, Json.item,
    Json.lookup, Json.truthy, raiseIf, hname, StatedTool.tool]

theorem normalizeTools_spell (tools : List (StatedTool × Dialect)) :
    (tools.map fun tool => tool.1.spell tool.2).mapM normalizeTool =
      .ok (tools.map fun tool => tool.1.tool) := by
  induction tools with
  | nil => rfl
  | cons tool rest ih =>
    rw [List.map_cons, List.mapM_cons, normalizeTool_spell, ih]
    rfl

theorem normalizeToolChoice_spell (tools : List (StatedTool × Dialect)) (d : Dialect) :
    ((row.toolConfig tools d).get "toolChoice" >>= fun toolChoice =>
      (row.toolConfig tools d).getD "tool_choice" toolChoice >>= normalizeToolChoice) =
      .ok row.choice.forcedTool := by
  cases d <;> cases h : row.choice <;>
    simp [StatedRow.toolConfig, h, StatedChoice.spell, StatedChoice.forcedTool, Json.lookup,
      normalizeToolChoice, Json.truthy, Json.isStr, Json.item]

theorem normalizeTools_toolConfig (tools : List (StatedTool × Dialect)) (d : Dialect) :
    normalizeTools (row.toolConfig tools d) =
      .ok (tools.map fun tool => tool.1.tool, row.choice.forcedTool) := by
  have htruthy : (row.toolConfig tools d).truthy = true := by simp [StatedRow.toolConfig, Json.truthy]
  have htools : (row.toolConfig tools d).getD "tools" (.list []) =
      .ok (.list (tools.map fun tool => tool.1.spell tool.2)) := by
    simp [StatedRow.toolConfig]
  have hchoice := normalizeToolChoice_spell row tools d
  simp only [bind_ok] at hchoice
  obtain ⟨toolChoice, hget, choice, hgetD, hchoice⟩ := hchoice
  simp only [normalizeTools, htruthy, htools, hget, hgetD, hchoice, normalizeTools_spell,
    Bool.not_true, Bool.false_eq_true, if_false, ok_bind, Json.iter_list, pure_eq_ok]

theorem normalizeOutputFormat_toolConfig (tools : List (StatedTool × Dialect)) (d : Dialect) :
    normalizeOutputFormat py (row.toolConfig tools d) = .ok none := by
  cases d <;> cases h : row.choice <;>
    simp [normalizeOutputFormat, StatedRow.toolConfig, h, StatedChoice.spell, Json.truthy, Json.lookup]

/-- Every spelling of a row has the row's meaning. -/
theorem buildRequest_spelled (py : Stdlib) (modelId prompt : String) (tools : List (StatedTool × Dialect))
    (d e : Dialect) :
    buildRequest py modelId prompt (row.params d) (row.toolConfig tools e) =
      row.request py modelId prompt (tools.map (·.1)) := by
  rw [buildRequest, maxOutputTokensOf_params, temperature_params, normalizeTools_toolConfig,
    normalizeOutputFormat_toolConfig, optionalStr_congr (thinking_params row d),
    optionalStr_congr (effort_params row d)]
  simp [StatedRow.request, raiseIf, Function.comp_def]

end

theorem optionalStr_stated {stated : Option Json}
    (h : optionalStr py (.dict (entry key stated)) key = .ok value) :
    (value.map Json.str).getD .null = stated.getD .null := by
  cases stated with
  | none =>
    obtain rfl : none = value := by simpa [optionalStr, entry] using h
    rfl
  | some v =>
    cases v with
    | null =>
      obtain rfl : none = value := by simpa [optionalStr, entry] using h
      rfl
    | str s =>
      simp only [optionalStr, entry, Json.get_dict, Json.lookup_cons_self, Option.getD_some, ok_bind,
        bind_ok, pure_ok] at h
      obtain ⟨-, -, rfl⟩ := h
      rfl
    | _ => simp [optionalStr, entry, throw, throwThe, MonadExceptOf.throw] at h

theorem request_stated (h : StatedRow.request py modelId prompt row tools = .ok request) :
    request.modelId = modelId ∧ request.prompt = prompt ∧
    request.maxOutputTokens = row.maxTokens.getD defaultMaxOutputTokens ∧
    request.temperature = row.temperature.getD defaultTemperature ∧
    request.tools = tools.map (·.tool) ∧ request.forcedTool = row.choice.forcedTool ∧
    request.outputFormat = none ∧
    (request.thinking.map Json.str).getD .null = row.thinking.getD .null ∧
    (request.effort.map Json.str).getD .null = row.effort.getD .null := by
  simp only [StatedRow.request, bind_ok, raiseIf_ok, pure_ok] at h
  obtain ⟨thinking, hthinking, -, -, effort, heffort, rfl⟩ := h
  exact ⟨rfl, rfl, rfl, rfl, rfl, rfl, rfl, optionalStr_stated hthinking, optionalStr_stated heffort⟩

/-- However the parameters, the tool choice and each of the tools are spelled,
a row gives one request, with the values it states, or one error. Every tool
comes with its dialect in either of two spellings. -/
theorem buildRequest_dialects (py : Stdlib) (modelId prompt : String) (row : StatedRow)
    (tools : List (StatedTool × Dialect × Dialect)) (dp dc ep ec : Dialect) :
    buildRequest py modelId prompt (row.params dp)
        (row.toolConfig (tools.map fun tool => (tool.1, tool.2.1)) dc) =
      buildRequest py modelId prompt (row.params ep)
        (row.toolConfig (tools.map fun tool => (tool.1, tool.2.2)) ec) ∧
    ∀ request, buildRequest py modelId prompt (row.params dp)
        (row.toolConfig (tools.map fun tool => (tool.1, tool.2.1)) dc) = .ok request →
      request.modelId = modelId ∧ request.prompt = prompt ∧
      request.maxOutputTokens = row.maxTokens.getD defaultMaxOutputTokens ∧
      request.temperature = row.temperature.getD defaultTemperature ∧
      request.tools = tools.map (·.1.tool) ∧ request.forcedTool = row.choice.forcedTool ∧
      request.outputFormat = none ∧
      (request.thinking.map Json.str).getD .null = row.thinking.getD .null ∧
      (request.effort.map Json.str).getD .null = row.effort.getD .null := by
  rw [buildRequest_spelled, buildRequest_spelled]
  constructor
  · simp [Function.comp_def]
  · intro request h
    simpa [Function.comp_def] using request_stated h

/-- A forced tool as the monolith spells it. -/
example : (StatedRow.mk none none none none (.force "t") nofun).toolConfig
      [(⟨"t", .str "d", .dict [], by decide⟩, .v0)] .v0 =
    .dict [("tools", .list [.dict [("toolSpec", .dict [("name", .str "t"), ("description", .str "d"),
        ("inputSchema", .dict [("json", .dict [])])])]]),
      ("toolChoice", .dict [("tool", .dict [("name", .str "t")])])] := rfl

end LlmWorker
