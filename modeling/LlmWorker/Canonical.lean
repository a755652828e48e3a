import LlmWorker.Nulls

/-!
# The canonical spelling of a request

Which requests leave the upconverter, and a spelling for each of them that the
upconverter reads as that request again. The spelling is the flat one, but for
a max-tokens value of `None`, which only the v0 key can state.
-/

namespace LlmWorker

open Python
open Json (entry lookup)

/-- What the upconverter has checked. -/
structure ContractRequest.Normal (request : ContractRequest) : Prop extends request.Compatible where
  tools : ∀ tool ∈ request.tools, tool.name.truthy = true
  formatName : ∀ format ∈ request.outputFormat, format.name.truthy = true
  formatSchema : ∀ format ∈ request.outputFormat, format.schema.isDict = true
  thinking : request.thinking ≠ some ""
  effort : request.effort ≠ some ""

-- ---------------------------------------------------------------------------
-- What is accepted is normal
-- ---------------------------------------------------------------------------

theorem optionalStr_ne_empty (h : optionalStr py params key = .ok value) : value ≠ some "" := by
  simp only [optionalStr, bind_ok] at h
  obtain ⟨stated, -, h⟩ := h
  cases stated with
  | null =>
    cases h
    simp
  | str s =>
    simp only [bind_ok, raiseIf_ok, pure_ok] at h
    obtain ⟨-, hne, rfl⟩ := h
    simpa using hne
  | _ => cases h

theorem normalizeTool_named (h : normalizeTool spec = .ok tool) : tool.name.truthy = true := by
  simp only [normalizeTool, bind_ok] at h
  obtain ⟨isSpec, -, h⟩ := h
  cases isSpec with
  | true =>
    simp only [if_true, bind_ok, normalizeToolSpec, raiseIf_ok, pure_ok] at h
    obtain ⟨_, -, name, -, _, hname, _, -, _, -, _, -, rfl⟩ := h
    simpa using hname
  | false =>
    simp only [Bool.false_eq_true, if_false, normalizeFlatTool, bind_ok, raiseIf_ok, pure_ok] at h
    obtain ⟨name, -, _, hname, _, -, _, -, rfl⟩ := h
    simpa using hname

theorem mapM_normalizeTool_named (h : List.Forall₂ (fun spec tool => normalizeTool spec = .ok tool) specs tools) :
    ∀ tool ∈ tools, tool.name.truthy = true := by
  induction h with
  | nil => simp
  | cons hspec _ ih => exact List.forall_mem_cons.mpr ⟨normalizeTool_named hspec, ih⟩

theorem normalizeTools_named (h : normalizeTools toolConfig = .ok (tools, forcedTool)) :
    ∀ tool ∈ tools, tool.name.truthy = true := by
  unfold normalizeTools at h
  split at h
  · cases h
    simp
  · simp only [bind_ok, pure_ok] at h
    obtain ⟨_, -, specs, -, tools', hmap, _, -, _, -, _, -, heq⟩ := h
    cases heq
    exact mapM_normalizeTool_named (mapM_ok.mp hmap)

theorem normalizeOutputFormat_checked (h : normalizeOutputFormat py toolConfig = .ok outputFormat) :
    ∀ format ∈ outputFormat, format.name.truthy = true ∧ format.schema.isDict = true := by
  simp only [normalizeOutputFormat, bind_ok] at h
  obtain ⟨stated, -, h⟩ := h
  split at h
  · cases h
    simp
  · simp only [outputFormatOf, bind_ok, raiseIf_ok, pure_ok] at h
    obtain ⟨format, ⟨_, -, _, -, schema, -, _, hschema, name, -, _, hname, _, -, rfl⟩, rfl⟩ := h
    rintro _ ⟨⟩
    exact ⟨by simpa using hname, by simpa using hschema⟩

theorem buildRequest_normal (h : buildRequest py modelId prompt params toolConfig = .ok request) :
    request.modelId = modelId ∧ request.prompt = prompt ∧ request.Normal := by
  have hcompatible := buildRequest_compatible h
  simp only [buildRequest, bind_ok, raiseIf_ok, pure_ok] at h
  obtain ⟨maxOutputTokens, -, temperature, -, ⟨tools, forcedTool⟩, htools, h⟩ := h
  obtain ⟨outputFormat, hformat, thinking, hthinking, -, -, -, -, effort, heffort, rfl⟩ := h
  have hchecked := normalizeOutputFormat_checked hformat
  exact ⟨rfl, rfl, hcompatible, normalizeTools_named htools, fun format hf => (hchecked format hf).1,
    fun format hf => (hchecked format hf).2, optionalStr_ne_empty hthinking, optionalStr_ne_empty heffort⟩

-- ---------------------------------------------------------------------------
-- The spelling
-- ---------------------------------------------------------------------------

def Tool.spell (tool : Tool) : Json :=
  .dict [("name", tool.name), ("description", tool.description), ("input_schema", tool.inputSchema)]

def OutputFormat.spell (format : OutputFormat) : Json :=
  .dict [("type", .str "json_schema"), ("name", format.name), ("description", format.description),
    ("schema", format.schema)]

/-- `max_output_tokens: null` would fall back on the default. -/
def maxTokensKey (value : Json) : String := if value = .null then "maxTokens" else "max_output_tokens"

def ContractRequest.params (request : ContractRequest) : List (String × Json) :=
  [(maxTokensKey request.maxOutputTokens, request.maxOutputTokens), ("temperature", request.temperature)] ++
    entry "thinking" (request.thinking.map .str) ++ entry "effort" (request.effort.map .str)

def forcedChoice (forcedTool : Json) : Option Json :=
  if forcedTool = .null then none else some (.dict [("name", forcedTool)])

def ContractRequest.toolConfig (request : ContractRequest) : List (String × Json) :=
  [("tools", .list (request.tools.map Tool.spell))] ++ entry "tool_choice" (forcedChoice request.forcedTool) ++
    entry "output_format" (request.outputFormat.map OutputFormat.spell)

-- ---------------------------------------------------------------------------
-- The spelling is read back
-- ---------------------------------------------------------------------------

section
variable {py : Stdlib} {request : ContractRequest}

theorem numbersIn_params (request : ContractRequest) :
    numbersIn request.params = (request.maxOutputTokens, request.temperature) := by
  by_cases h : request.maxOutputTokens = .null <;>
    simp [numbersIn, maxOutputTokensIn, temperatureIn, ContractRequest.params, maxTokensKey, h, lookup,
      Json.lookup_append]

theorem optionalStr_spelled {value : Option String} (hne : value ≠ some "")
    (h : lookup key params = value.map .str) : optionalStr py (.dict params) key = .ok value := by
  cases value with
  | none => simp [optionalStr, h]
  | some s =>
    have hs : s ≠ "" := by simpa using hne
    simp [optionalStr, h, raiseIf, hs]

theorem lookup_thinking (request : ContractRequest) :
    lookup "thinking" request.params = request.thinking.map .str := by
  by_cases h : request.maxOutputTokens = .null <;>
    simp [ContractRequest.params, maxTokensKey, h, lookup, Json.lookup_append]

theorem lookup_effort (request : ContractRequest) : lookup "effort" request.params = request.effort.map .str := by
  by_cases h : request.maxOutputTokens = .null <;>
    simp [ContractRequest.params, maxTokensKey, h, lookup, Json.lookup_append]

theorem Tool.normalize_spell {tool : Tool} (h : tool.name.truthy = true) : normalizeTool tool.spell = .ok tool := by
  simp [normalizeTool, Tool.spell, normalizeFlatTool, lookup, raiseIf, h]

theorem toolsIn_spelled (h : ∀ tool ∈ request.tools, tool.name.truthy = true) :
    toolsIn request.toolConfig = .ok request.tools := by
  have hspecs : lookup "tools" request.toolConfig = some (.list (request.tools.map Tool.spell)) := by
    simp [ContractRequest.toolConfig]
  have hread : List.Forall₂ (fun spec tool => normalizeTool spec = .ok tool) (request.tools.map Tool.spell)
      request.tools := by
    rw [List.forall₂_map_left_iff, List.forall₂_same]
    exact fun tool htool => Tool.normalize_spell (h tool htool)
  simp only [toolsIn, hspecs, Option.getD_some, Json.iter_list, ok_bind]
  exact mapM_ok.mpr hread

theorem choiceIn_spelled (request : ContractRequest) :
    normalizeToolChoice (choiceIn request.toolConfig) = .ok request.forcedTool := by
  have hchoice : choiceIn request.toolConfig = (forcedChoice request.forcedTool).getD .null := by
    simp [choiceIn, bedrockChoice, ContractRequest.toolConfig, lookup, Json.lookup_append]
  rw [hchoice]
  by_cases h : request.forcedTool = .null
  · simp [forcedChoice, h, normalizeToolChoice, Json.truthy]
  · simp [forcedChoice, h, normalizeToolChoice, Json.truthy, Json.isStr, Json.item, lookup]

theorem outputFormatOf_spell {format : OutputFormat} (hname : format.name.truthy = true)
    (hschema : format.schema.isDict = true) : outputFormatOf py format.spell = .ok format := by
  simp [outputFormatOf, OutputFormat.spell, lookup, raiseIf, hname, hschema]

theorem normalizeOutputFormat_spelled (h : request.Normal) :
    normalizeOutputFormat py (.dict request.toolConfig) = .ok request.outputFormat := by
  have hstated : lookup "output_format" request.toolConfig = request.outputFormat.map OutputFormat.spell := by
    simp [ContractRequest.toolConfig, lookup, Json.lookup_append]
  rw [normalizeOutputFormat_dict]
  cases hf : request.outputFormat with
  | none => simp [hstated, hf]
  | some format =>
    have hread : outputFormatOf py format.spell = .ok format :=
      outputFormatOf_spell (h.formatName format hf) (h.formatSchema format hf)
    have hspell : format.spell ≠ .null := by simp [OutputFormat.spell]
    simp [hstated, hf, hread, hspell]

theorem optionalParts_spelled (h : request.Normal) :
    optionalParts py request.params request.toolConfig request.tools request.forcedTool =
      .ok (request.outputFormat, request.thinking, request.effort) := by
  have hformat : raiseIf (request.outputFormat.isSome ∧ request.tools ≠ []) toolsWithOutputFormat = .ok () :=
    raiseIf_ok.mpr fun ⟨hsome, hne⟩ => hne (h.outputFormat_tools hsome)
  have hforced : raiseIf (request.thinking.isSome ∧ request.forcedTool ≠ .null) thinkingWithForcedTool = .ok () :=
    raiseIf_ok.mpr fun ⟨hsome, hne⟩ => hne (h.thinking_forcedTool hsome)
  simp only [optionalParts, normalizeOutputFormat_spelled h, optionalStr_spelled h.thinking (lookup_thinking request),
    optionalStr_spelled h.effort (lookup_effort request), hformat, hforced, ok_bind, pure_eq_ok]

theorem buildRequest_spelled_back (h : request.Normal) :
    buildRequest py request.modelId request.prompt (.dict request.params) (.dict request.toolConfig) = .ok request := by
  simp only [buildRequest_dict, toolsIn_spelled h.tools, choiceIn_spelled, numbersIn_params, requestOf,
    optionalParts_spelled h, ok_bind, pure_eq_ok]

end

/-- The upconverter returns the normal requests, these and no others, and reads
the canonical spelling of what it has returned as the same request. -/
theorem buildRequest_range (py : Stdlib) (modelId prompt : String) (request : ContractRequest) :
    ((∃ params toolConfig, buildRequest py modelId prompt params toolConfig = .ok request) ↔
      request.modelId = modelId ∧ request.prompt = prompt ∧ request.Normal) ∧
    ∀ params toolConfig, buildRequest py modelId prompt params toolConfig = .ok request →
      buildRequest py modelId prompt (.dict request.params) (.dict request.toolConfig) = .ok request := by
  have back (h : request.modelId = modelId ∧ request.prompt = prompt ∧ request.Normal) :
      buildRequest py modelId prompt (.dict request.params) (.dict request.toolConfig) = .ok request := by
    obtain ⟨rfl, rfl, hnormal⟩ := h
    exact buildRequest_spelled_back hnormal
  refine ⟨⟨?_, fun h => ⟨_, _, back h⟩⟩, fun params toolConfig h => back (buildRequest_normal h)⟩
  rintro ⟨params, toolConfig, h⟩
  exact buildRequest_normal h

end LlmWorker
