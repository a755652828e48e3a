import LlmWorker.Contract

/-!
# Null fields

What `build_request` makes of an object with null fields, next to the same
object without them. A null `max_output_tokens`, `thinking`, `effort` or
`output_format` stands for an absent one. A null `temperature`, `maxTokens`,
`tools` or `tool_choice` does not: it takes the place of the default, or of
the older spelling.
-/

namespace Python.Json

/-- `value is None` -/
def isNull : Json → Bool
  | .null => true
  | _ => false

theorem isNull_iff : isNull v = true ↔ v = .null := by
  cases v <;> simp [isNull]

def dropNulls (items : List (String × Json)) : List (String × Json) :=
  items.filter fun kv => !kv.2.isNull

theorem dropNulls_cons (k : String) (v : Json) (rest : List (String × Json)) :
    dropNulls ((k, v) :: rest) = if v.isNull then dropNulls rest else (k, v) :: dropNulls rest := by
  cases h : v.isNull <;> simp [dropNulls, h]

theorem lookup_eq_none {items : List (String × Json)} (h : key ∉ items.map (·.1)) : lookup key items = none := by
  induction items with
  | nil => rfl
  | cons kv rest ih =>
    obtain ⟨k, v⟩ := kv
    rw [List.map_cons, List.mem_cons, not_or] at h
    rw [lookup_cons, if_neg (Ne.symm h.1), ih h.2]

theorem lookup_dropNulls {items : List (String × Json)} (hkeys : (items.map (·.1)).Nodup) (key : String) :
    lookup key (dropNulls items) = (lookup key items).filter fun v => !v.isNull := by
  induction items with
  | nil => rfl
  | cons kv rest ih =>
    obtain ⟨k, v⟩ := kv
    obtain ⟨hnot, hrest⟩ := List.nodup_cons.mp hkeys
    have ih := ih hrest
    rw [dropNulls_cons, lookup_cons]
    cases hv : v.isNull with
    | true =>
      by_cases hk : k = key
      · subst hk
        have hnone : lookup k rest = none := lookup_eq_none hnot
        simp [ih, hnone, Option.filter_some, hv]
      · simp [ih, hk]
    | false => by_cases hk : k = key <;> simp [lookup_cons, ih, hk, Option.filter_some, hv]

theorem getD_filter_null (v : Option Json) : (v.filter fun v => !v.isNull).getD .null = v.getD .null := by
  cases v with
  | none => rfl
  | some v => cases v <;> rfl

theorem lookup_dropNulls_null {items : List (String × Json)} (hkeys : (items.map (·.1)).Nodup)
    (h : lookup key items = some .null) : lookup key (dropNulls items) = none := by
  rw [lookup_dropNulls hkeys, h]
  rfl

theorem lookup_dropNulls_ne {items : List (String × Json)} (hkeys : (items.map (·.1)).Nodup)
    (h : lookup key items ≠ some .null) : lookup key (dropNulls items) = lookup key items := by
  rw [lookup_dropNulls hkeys]
  cases hv : lookup key items with
  | none => rfl
  | some v =>
    have hne : v.isNull = false := Bool.eq_false_iff.mpr fun hnull => h (by rw [hv, isNull_iff.mp hnull])
    simp [Option.filter_some, hne]

theorem get_dropNulls {items : List (String × Json)} (hkeys : (items.map (·.1)).Nodup) (key : String) :
    (Json.dict (dropNulls items)).get key = (Json.dict items).get key := by
  simp only [get_dict, lookup_dropNulls hkeys, getD_filter_null]

end Python.Json

namespace LlmWorker

open Python Json

-- ---------------------------------------------------------------------------
-- `build_request` on two objects
-- ---------------------------------------------------------------------------

section
variable (py : Stdlib) (params toolConfig : List (String × Json))

def toolsIn : Result (List Tool) := do
  let specs ← ((lookup "tools" toolConfig).getD (.list [])).iter
  specs.mapM normalizeTool

def bedrockChoice : Json := (lookup "toolChoice" toolConfig).getD .null

def choiceIn : Json := (lookup "tool_choice" toolConfig).getD (bedrockChoice toolConfig)

def maxOutputTokensIn : Json :=
  if (lookup "max_output_tokens" params).getD .null = .null then
    (lookup "maxTokens" params).getD defaultMaxOutputTokens
  else
    (lookup "max_output_tokens" params).getD .null

def temperatureIn : Json := (lookup "temperature" params).getD defaultTemperature

/-- The fields that `build_request` reads after the tools, with its two checks. -/
def optionalParts (tools : List Tool) (forcedTool : Json) :
    Result (Option OutputFormat × Option String × Option String) := do
  let outputFormat ← normalizeOutputFormat py (.dict toolConfig)
  let thinking ← optionalStr py (.dict params) "thinking"
  raiseIf (outputFormat.isSome ∧ tools ≠ []) toolsWithOutputFormat
  raiseIf (thinking.isSome ∧ forcedTool ≠ .null) thinkingWithForcedTool
  let effort ← optionalStr py (.dict params) "effort"
  return (outputFormat, thinking, effort)

end

theorem normalizeTools_dict (toolConfig : List (String × Json)) : normalizeTools (.dict toolConfig) =
    toolsIn toolConfig >>= fun tools => normalizeToolChoice (choiceIn toolConfig) >>= fun forcedTool =>
      .ok (tools, forcedTool) := by
  cases toolConfig with
  | nil => rfl
  | cons item rest =>
    have htruthy : (Json.dict (item :: rest)).truthy = true := by simp [truthy]
    simp only [normalizeTools, htruthy, Bool.not_true, Bool.false_eq_true, if_false, getD_dict, get_dict, ok_bind,
      toolsIn, choiceIn, bedrockChoice, bind_assoc]
    rfl

theorem maxOutputTokensOf_dict (params : List (String × Json)) :
    maxOutputTokensOf (.dict params) = .ok (maxOutputTokensIn params) := by
  simp only [maxOutputTokensOf, maxOutputTokensIn, get_dict, getD_dict, ok_bind, pure_eq_ok]
  split <;> rfl

/-- `build_request` from the checked tools on. -/
def requestOf (py : Stdlib) (modelId prompt : String) (params toolConfig : List (String × Json)) (tools : List Tool)
    (numbers : Json × Json) (choice : Result Json) : Result ContractRequest := do
  let forcedTool ← choice
  let parts ← optionalParts py params toolConfig tools forcedTool
  return ⟨modelId, prompt, numbers.1, numbers.2, tools, forcedTool, parts.1, parts.2.1, parts.2.2⟩

def numbersIn (params : List (String × Json)) : Json × Json := (maxOutputTokensIn params, temperatureIn params)

theorem buildRequest_dict (py : Stdlib) (modelId prompt : String) (params toolConfig : List (String × Json)) :
    buildRequest py modelId prompt (.dict params) (.dict toolConfig) = toolsIn toolConfig >>= fun tools =>
      requestOf py modelId prompt params toolConfig tools (numbersIn params)
        (normalizeToolChoice (choiceIn toolConfig)) := by
  simp only [buildRequest, maxOutputTokensOf_dict, getD_dict, ok_bind, normalizeTools_dict, bind_assoc, optionalParts,
    requestOf, pure_bind]
  rfl

-- ---------------------------------------------------------------------------
-- The same objects without their null fields
-- ---------------------------------------------------------------------------

section
variable {py : Stdlib} {params toolConfig : List (String × Json)}

def noneNotIterable : Exc := typeError "'NoneType' object is not iterable"

theorem toolsIn_null (h : lookup "tools" toolConfig = some .null) : toolsIn toolConfig = .error noneNotIterable := by
  simp [toolsIn, h, iter, noneNotIterable, typeName]

theorem toolsIn_dropNulls_null (hkeys : (toolConfig.map (·.1)).Nodup) (h : lookup "tools" toolConfig = some .null) :
    toolsIn (dropNulls toolConfig) = .ok [] := by
  simp only [toolsIn, lookup_dropNulls_null hkeys h]
  rfl

theorem toolsIn_dropNulls (hkeys : (toolConfig.map (·.1)).Nodup) (h : lookup "tools" toolConfig ≠ some .null) :
    toolsIn (dropNulls toolConfig) = toolsIn toolConfig := by
  simp only [toolsIn, lookup_dropNulls_ne hkeys h]

theorem bedrockChoice_dropNulls (hkeys : (toolConfig.map (·.1)).Nodup) :
    bedrockChoice (dropNulls toolConfig) = bedrockChoice toolConfig := by
  rw [bedrockChoice, lookup_dropNulls hkeys, getD_filter_null]
  rfl

theorem choiceIn_null (h : lookup "tool_choice" toolConfig = some .null) : choiceIn toolConfig = .null := by
  rw [choiceIn, h]
  rfl

theorem choiceIn_dropNulls_null (hkeys : (toolConfig.map (·.1)).Nodup)
    (h : lookup "tool_choice" toolConfig = some .null) :
    choiceIn (dropNulls toolConfig) = bedrockChoice toolConfig := by
  rw [choiceIn, lookup_dropNulls_null hkeys h, bedrockChoice_dropNulls hkeys]
  rfl

theorem choiceIn_dropNulls (hkeys : (toolConfig.map (·.1)).Nodup)
    (h : lookup "tool_choice" toolConfig ≠ some .null) : choiceIn (dropNulls toolConfig) = choiceIn toolConfig := by
  rw [choiceIn, choiceIn, lookup_dropNulls_ne hkeys h, bedrockChoice_dropNulls hkeys]

theorem optionalStr_dropNulls (hkeys : (params.map (·.1)).Nodup) (key : String) :
    optionalStr py (.dict (dropNulls params)) key = optionalStr py (.dict params) key := by
  simp only [optionalStr, get_dropNulls hkeys]

theorem normalizeOutputFormat_dict (toolConfig : List (String × Json)) :
    normalizeOutputFormat py (.dict toolConfig) = (do
      let outputFormat ← (Json.dict toolConfig).get "output_format"
      if outputFormat = .null then
        return none
      else
        return some (← outputFormatOf py outputFormat)) := by
  cases toolConfig with
  | nil => rfl
  | cons item rest =>
    have htruthy : (Json.dict (item :: rest)).truthy = true := by simp [truthy]
    simp only [normalizeOutputFormat, htruthy, if_true]

theorem optionalParts_dropNulls (hparams : (params.map (·.1)).Nodup)
    (htoolConfig : (toolConfig.map (·.1)).Nodup) :
    optionalParts py (dropNulls params) (dropNulls toolConfig) = optionalParts py params toolConfig := by
  funext tools forcedTool
  simp only [optionalParts, optionalStr_dropNulls hparams, normalizeOutputFormat_dict, get_dropNulls htoolConfig]

-- ---------------------------------------------------------------------------
-- When the nulls make no difference
-- ---------------------------------------------------------------------------

/-- No null stands where a default would. -/
def NumbersKept (params : List (String × Json)) : Prop :=
  lookup "temperature" params ≠ some .null ∧
    (lookup "maxTokens" params = some .null → (lookup "max_output_tokens" params).getD .null ≠ .null)

/-- A null `tool_choice` hides no choice in the older spelling. -/
def ChoiceKept (toolConfig : List (String × Json)) : Prop :=
  lookup "tool_choice" toolConfig = some .null → normalizeToolChoice (bedrockChoice toolConfig) = .ok .null

/-- A tool choice that names a tool in the older spelling, which is no object. -/
def NamesNoTool (choice tool : Json) : Prop :=
  ∃ items, choice = .dict items ∧ lookup "tool" items = some tool ∧ tool.isDict = false

/-- Why the nulls of a row make no difference, when `tools` is not among them:
none of them is read, or the row is malformed in a way that they do not touch. -/
inductive Harmless (py : Stdlib) (params toolConfig : List (String × Json)) : Prop
  | unread (hchoice : ChoiceKept toolConfig) (hnumbers : NumbersKept params)
  | tool (h : toolsIn toolConfig = .error e)
  | choice (hchoice : ChoiceKept toolConfig) (h : normalizeToolChoice (choiceIn toolConfig) = .error e)
  -- `get` fails on the tool of the older choice and on the output format in the same words.
  | sameError (hnull : lookup "tool_choice" toolConfig = some .null)
      (hchoice : NamesNoTool (bedrockChoice toolConfig) tool)
      (hformat : lookup "output_format" toolConfig = some format) (hnone : format ≠ .null)
      (htype : tool.typeName = format.typeName)
  | outputFormat (hchoice : normalizeToolChoice (choiceIn (dropNulls toolConfig)) = .ok forced)
      (h : normalizeOutputFormat py (.dict toolConfig) = .error e)
  | thinking (hchoice : normalizeToolChoice (choiceIn (dropNulls toolConfig)) = .ok forced)
      (h : optionalStr py (.dict params) "thinking" = .error e)
  | toolsAndFormat (hchoice : normalizeToolChoice (choiceIn (dropNulls toolConfig)) = .ok forced)
      (hformat : normalizeOutputFormat py (.dict toolConfig) = .ok (some format))
      (htools : toolsIn toolConfig = .ok tools) (h : tools ≠ [])
  | thinkingAndTool (hchoice : ChoiceKept toolConfig)
      (hforced : normalizeToolChoice (choiceIn toolConfig) = .ok forced) (h : forced ≠ .null)
      (hthinking : optionalStr py (.dict params) "thinking" = .ok (some text))
  | effort (hchoice : normalizeToolChoice (choiceIn (dropNulls toolConfig)) = .ok forced)
      (hkept : ChoiceKept toolConfig ∨ optionalStr py (.dict params) "thinking" = .ok none)
      (h : optionalStr py (.dict params) "effort" = .error e)

theorem numbers_dropNulls (hparams : (params.map (·.1)).Nodup) :
    numbersIn params = numbersIn (dropNulls params) ↔ NumbersKept params := by
  have htemperature : temperatureIn (dropNulls params) = temperatureIn params ↔
      lookup "temperature" params ≠ some .null := by
    by_cases h : lookup "temperature" params = some .null
    · simp [temperatureIn, h, lookup_dropNulls_null hparams h, defaultTemperature]
    · simp [temperatureIn, h, lookup_dropNulls_ne hparams h]
  have hmaxTokens : maxOutputTokensIn (dropNulls params) = maxOutputTokensIn params ↔
      (lookup "maxTokens" params = some .null → (lookup "max_output_tokens" params).getD .null ≠ .null) := by
    unfold maxOutputTokensIn
    rw [lookup_dropNulls hparams "max_output_tokens", getD_filter_null]
    by_cases hmax : (lookup "max_output_tokens" params).getD .null = .null
    · by_cases h : lookup "maxTokens" params = some .null
      · simp [hmax, h, lookup_dropNulls_null hparams h, defaultMaxOutputTokens]
      · simp [hmax, h, lookup_dropNulls_ne hparams h]
    · simp [hmax]
  rw [eq_comm, numbersIn, numbersIn, Prod.mk.injEq, hmaxTokens, htemperature, and_comm]
  rfl

theorem choice_dropNulls (htoolConfig : (toolConfig.map (·.1)).Nodup) (h : ChoiceKept toolConfig) :
    normalizeToolChoice (choiceIn (dropNulls toolConfig)) = normalizeToolChoice (choiceIn toolConfig) := by
  by_cases hnull : lookup "tool_choice" toolConfig = some .null
  · rw [choiceIn_dropNulls_null htoolConfig hnull, choiceIn_null hnull, h hnull]
    rfl
  · rw [choiceIn_dropNulls htoolConfig hnull]

theorem choice_ok_of_dropNulls (htoolConfig : (toolConfig.map (·.1)).Nodup)
    (h : normalizeToolChoice (choiceIn (dropNulls toolConfig)) = .ok forced) :
    ∃ forced', normalizeToolChoice (choiceIn toolConfig) = .ok forced' := by
  by_cases hnull : lookup "tool_choice" toolConfig = some .null
  · rw [choiceIn_null hnull]
    exact ⟨.null, rfl⟩
  · rw [choiceIn_dropNulls htoolConfig hnull] at h
    exact ⟨forced, h⟩

theorem get_error {v : Json} (h : v.isDict = false) (key : String) : v.get key = .error (attributeError v "get") := by
  cases v <;> simp_all [Json.get, Json.getD, isDict]

theorem attributeError_inj {v w : Json} (h : attributeError v name = attributeError w name) :
    v.typeName = w.typeName := by
  have htext := congrArg (fun e => e.text.toList) h
  simp only [attributeError, String.toList_append, List.append_cancel_right_eq, List.append_cancel_left_eq] at htext
  exact String.toList_injective htext

theorem isDict_iff_typeName {v : Json} : v.isDict = true ↔ v.typeName = "dict" := by
  cases v <;> simp [isDict, typeName]

theorem normalizeToolChoice_namesNoTool (h : NamesNoTool choice tool) :
    normalizeToolChoice choice = .error (attributeError tool "get") := by
  obtain ⟨items, rfl, htool, hdict⟩ := h
  have htruthy : (Json.dict items).truthy = true := by
    cases items with
    | nil => cases htool
    | cons item rest => simp [truthy]
  simp [normalizeToolChoice, htruthy, isStr, contains_dict, item, htool, ok_bind, get_error hdict]

theorem normalizeToolChoice_error (h : normalizeToolChoice v = .error e) :
    (∃ tool, NamesNoTool v tool ∧ e = attributeError tool "get") ∨ e.type = .typeError ∧ e ≠ noneNotIterable := by
  unfold normalizeToolChoice at h
  split at h
  · cases h
  split at h
  · cases h
  rename_i hstr
  cases v with
  | null => rename_i htruthy; exact absurd rfl htruthy
  | bool | int | float =>
    simp only [contains, typeName, error_bind, Except.error.injEq] at h
    exact .inr (h ▸ ⟨rfl, by decide⟩)
  | str => exact absurd rfl hstr
  | list items =>
    simp only [contains, item, ok_bind, error_bind, decide_eq_true_eq] at h
    split at h
    · exact .inr (Except.error.inj h ▸ ⟨rfl, by decide⟩)
    split at h
    · exact .inr (Except.error.inj h ▸ ⟨rfl, by decide⟩)
    · cases h
  | dict items =>
    simp only [contains_dict, ok_bind, item] at h
    cases htool : lookup "tool" items with
    | some spec =>
      simp only [htool, Option.isSome_some, if_true, ok_bind] at h
      cases hdict : spec.isDict with
      | true => cases spec <;> simp_all [isDict, Json.get, Json.getD]
      | false =>
        rw [get_error hdict] at h
        exact .inl ⟨spec, ⟨items, rfl, htool, hdict⟩, (Except.error.inj h).symm⟩
    | none =>
      cases hname : lookup "name" items <;> simp [htool, hname] at h

theorem optionalStr_error (h : optionalStr py (.dict params) key = .error e) :
    ∃ v, e = notNonEmptyStr py key v := by
  simp only [optionalStr, get_dict, ok_bind] at h
  split at h
  · cases h
  · rename_i s _
    rcases bind_error.mp h with hraise | ⟨_, -, hok⟩
    · by_cases hs : s = ""
      · simp only [raiseIf, hs, if_true, Except.error.injEq] at hraise
        exact ⟨_, hraise.symm⟩
      · simp [raiseIf, hs] at hraise
    · cases hok
  · cases h
    exact ⟨_, rfl⟩

theorem effort_ne_thinkingWithForcedTool (v : Json) : notNonEmptyStr py "effort" v ≠ thinkingWithForcedTool := by
  intro h
  have htext := congrArg (fun e => (e.text.toList.drop 7).head?) h
  simp [notNonEmptyStr, thinkingWithForcedTool, valueError, String.toList_append] at htext

def AttributeOrValue (e : Exc) : Prop :=
  e.type = .attributeError ∨ e.type = .valueError

theorem getD_attributeError (value : Json) (key : String) (d : Json) :
    RaisesOnly AttributeOrValue (value.getD key d) := by
  cases value <;> simp [RaisesOnly, getD, attributeError, AttributeOrValue]

theorem get_attributeError (value : Json) (key : String) : RaisesOnly AttributeOrValue (value.get key) :=
  getD_attributeError value key .null

theorem normalizeOutputFormat_attributeOrValue (toolConfig : Json) :
    RaisesOnly AttributeOrValue (normalizeOutputFormat py toolConfig) := by
  have hvalue (text : String) : AttributeOrValue (valueError text) := .inr rfl
  refine .bind (get_attributeError _ _) fun outputFormat => ?_
  split
  · exact .ok _
  refine .bind ?_ fun _ => .ok _
  refine .bind (get_attributeError _ _) fun _ => .bind (.raiseIf (hvalue _)) fun _ => ?_
  refine .bind (get_attributeError _ _) fun _ => .bind (.raiseIf (hvalue _)) fun _ => ?_
  refine .bind (get_attributeError _ _) fun _ => .bind (.raiseIf (hvalue _)) fun _ => ?_
  exact .bind (getD_attributeError _ _ _) fun _ => .ok _

theorem normalizeOutputFormat_noDict (h : lookup "output_format" toolConfig = some format) (hnone : format ≠ .null)
    (hdict : format.isDict = false) :
    normalizeOutputFormat py (.dict toolConfig) = .error (attributeError format "get") := by
  rw [normalizeOutputFormat_dict]
  simp [get_dict, h, hnone, outputFormatOf, get_error hdict]

theorem normalizeOutputFormat_attributeError (h : normalizeOutputFormat py (.dict toolConfig) = .error e)
    (htype : e.type = .attributeError) : ∃ format, lookup "output_format" toolConfig = some format ∧ format ≠ .null ∧
      e = attributeError format "get" := by
  rw [normalizeOutputFormat_dict, get_dict, ok_bind] at h
  cases hformat : lookup "output_format" toolConfig with
  | none => simp [hformat, pure, Except.pure] at h
  | some format =>
    rw [hformat, Option.getD_some] at h
    split at h
    · cases h
    · rename_i hnone
      refine ⟨format, rfl, hnone, ?_⟩
      cases hdict : format.isDict with
      | false =>
        rw [outputFormatOf, get_error hdict] at h
        exact (Except.error.inj h).symm
      | true =>
        -- An object is asked for three fields, which raises nothing but a `ValueError`.
        have hvalue : RaisesOnly (fun e => e.type = .valueError) (outputFormatOf py format) := by
          obtain ⟨items, rfl⟩ : ∃ items, format = .dict items := by cases format <;> simp_all [isDict]
          simp only [outputFormatOf, get_dict, getD_dict, ok_bind]
          refine .bind (.raiseIf rfl) fun _ => .bind (.raiseIf rfl) fun _ => .bind (.raiseIf rfl) fun _ => .ok _
        rcases bind_error.mp h with h | ⟨_, -, h⟩
        · rw [hvalue e h] at htype
          cases htype
        · cases h

theorem optionalStr_attributeOrValue (key : String) :
    RaisesOnly AttributeOrValue (optionalStr py (.dict params) key) := by
  intro e he
  obtain ⟨v, rfl⟩ := optionalStr_error he
  exact .inr rfl

theorem optionalParts_attributeOrValue (tools : List Tool) (forced : Json) :
    RaisesOnly AttributeOrValue (optionalParts py params toolConfig tools forced) := by
  refine .bind (normalizeOutputFormat_attributeOrValue _) fun _ => ?_
  refine .bind (optionalStr_attributeOrValue _) fun _ => .bind (.raiseIf (.inr rfl)) fun _ => ?_
  exact .bind (.raiseIf (.inr rfl)) fun _ => .bind (optionalStr_attributeOrValue _) fun _ => .ok _

inductive PartsFail (py : Stdlib) (params toolConfig : List (String × Json)) (tools : List Tool) (forced : Json)
    (e : Exc) : Prop
  | outputFormat (h : normalizeOutputFormat py (.dict toolConfig) = .error e)
  | thinking (h : optionalStr py (.dict params) "thinking" = .error e)
  | toolsAndFormat (hformat : normalizeOutputFormat py (.dict toolConfig) = .ok (some format)) (htools : tools ≠ [])
      (h : e = toolsWithOutputFormat)
  | thinkingAndTool (hthinking : optionalStr py (.dict params) "thinking" = .ok (some text))
      (hforced : forced ≠ .null) (h : e = thinkingWithForcedTool)
  | effort (hthinking : optionalStr py (.dict params) "thinking" = .ok none ∨ forced = .null)
      (h : optionalStr py (.dict params) "effort" = .error e)

theorem raiseIf_error {c : Prop} [Decidable c] : raiseIf c e = .error e' ↔ c ∧ e = e' := by
  by_cases h : c <;> simp [raiseIf, h]

theorem optionalParts_fail (h : optionalParts py params toolConfig tools forced = .error e) :
    PartsFail py params toolConfig tools forced e := by
  rcases bind_error.mp h with h | ⟨outputFormat, hformat, h⟩
  · exact .outputFormat h
  rcases bind_error.mp h with h | ⟨thinking, hthinking, h⟩
  · exact .thinking h
  rcases bind_error.mp h with h | ⟨_, -, h⟩
  · obtain ⟨⟨hsome, htools⟩, rfl⟩ := raiseIf_error.mp h
    obtain ⟨format, rfl⟩ := Option.isSome_iff_exists.mp hsome
    exact .toolsAndFormat hformat htools rfl
  rcases bind_error.mp h with h | ⟨_, hcompatible, h⟩
  · obtain ⟨⟨hsome, hforced⟩, rfl⟩ := raiseIf_error.mp h
    obtain ⟨text, rfl⟩ := Option.isSome_iff_exists.mp hsome
    exact .thinkingAndTool hthinking hforced rfl
  rcases bind_error.mp h with h | ⟨_, -, h⟩
  · refine .effort ?_ h
    rw [raiseIf_ok, not_and, Decidable.not_not] at hcompatible
    cases thinking with
    | none => exact .inl hthinking
    | some text => exact .inr (hcompatible rfl)
  · cases h

/-- Checks that fail whatever tool is forced fail with one exception. -/
inductive PartsStuck (py : Stdlib) (params toolConfig : List (String × Json)) (tools : List Tool) : Prop
  | outputFormat (h : normalizeOutputFormat py (.dict toolConfig) = .error e)
  | thinking (h : optionalStr py (.dict params) "thinking" = .error e)
  | toolsAndFormat (hformat : normalizeOutputFormat py (.dict toolConfig) = .ok (some format)) (htools : tools ≠ [])
  | effort (hthinking : optionalStr py (.dict params) "thinking" = .ok none)
      (h : optionalStr py (.dict params) "effort" = .error e)

theorem PartsStuck.raises (h : PartsStuck py params toolConfig tools) :
    ∃ e, ∀ forced, optionalParts py params toolConfig tools forced = .error e := by
  unfold optionalParts
  cases hformat : normalizeOutputFormat py (.dict toolConfig) with
  | error e => exact ⟨e, fun _ => rfl⟩
  | ok outputFormat =>
    simp only [ok_bind]
    cases hthinking : optionalStr py (.dict params) "thinking" with
    | error e => exact ⟨e, fun _ => rfl⟩
    | ok thinking =>
      simp only [ok_bind]
      by_cases hboth : outputFormat.isSome ∧ tools ≠ []
      · exact ⟨toolsWithOutputFormat, fun _ => by simp only [raiseIf, if_pos hboth, error_bind]⟩
      cases h with
      | outputFormat h => rw [h] at hformat; cases hformat
      | thinking h => rw [h] at hthinking; cases hthinking
      | toolsAndFormat h htools =>
        rw [h] at hformat
        cases hformat
        exact absurd ⟨rfl, htools⟩ hboth
      | @effort e hnone h =>
        rw [hnone] at hthinking
        cases hthinking
        exact ⟨e, fun _ => by simp [raiseIf, hboth, h]⟩

theorem optionalParts_ok (h : optionalParts py params toolConfig tools forced = .ok parts) :
    ∃ thinking effort, optionalStr py (.dict params) "thinking" = .ok thinking ∧
      (thinking.isSome → forced = .null) ∧ optionalStr py (.dict params) "effort" = .ok effort := by
  simp only [optionalParts, bind_ok, raiseIf_ok, not_and, Decidable.not_not] at h
  obtain ⟨_, -, thinking, hthinking, _, -, _, hforced, effort, heffort, -⟩ := h
  exact ⟨thinking, effort, hthinking, hforced, heffort⟩

theorem requestOf_eq_iff : requestOf py modelId prompt params toolConfig tools numbers (.ok forced) =
      requestOf py modelId prompt params toolConfig tools numbers' (.ok forced') ↔
    (∃ e, optionalParts py params toolConfig tools forced = .error e ∧
      optionalParts py params toolConfig tools forced' = .error e) ∨ forced = forced' ∧ numbers = numbers' := by
  constructor
  · intro h
    simp only [requestOf, ok_bind] at h
    cases hparts : optionalParts py params toolConfig tools forced with
    | error e =>
      cases hparts' : optionalParts py params toolConfig tools forced' <;> simp_all
    | ok parts =>
      cases hparts' : optionalParts py params toolConfig tools forced' with
      | error e => simp [hparts, hparts'] at h
      | ok parts' =>
        simp only [hparts, hparts', ok_bind, pure_eq_ok, Except.ok.injEq, ContractRequest.mk.injEq] at h
        obtain ⟨-, -, hmax, htemperature, -, hforced, -⟩ := h
        exact .inr ⟨hforced, Prod.ext hmax htemperature⟩
  · rintro (⟨e, h, h'⟩ | ⟨rfl, rfl⟩)
    · simp only [requestOf, ok_bind, h, h', error_bind]
    · rfl

/-- A choice that cannot be read stops the row, unless another check did. -/
theorem requestOf_eq_error_iff : requestOf py modelId prompt params toolConfig tools numbers (.ok forced) =
      requestOf py modelId prompt params toolConfig tools numbers' (.error e) ↔
    optionalParts py params toolConfig tools forced = .error e := by
  simp only [requestOf, ok_bind, error_bind]
  cases optionalParts py params toolConfig tools forced <;> simp

theorem buildRequest_dropNulls_dict (hparams : (params.map (·.1)).Nodup) (htoolConfig : (toolConfig.map (·.1)).Nodup)
    (htools : lookup "tools" toolConfig ≠ some .null) :
    buildRequest py modelId prompt (.dict (dropNulls params)) (.dict (dropNulls toolConfig)) =
      toolsIn toolConfig >>= fun tools =>
        requestOf py modelId prompt params toolConfig tools (numbersIn (dropNulls params))
          (normalizeToolChoice (choiceIn (dropNulls toolConfig))) := by
  simp only [buildRequest_dict, toolsIn_dropNulls htoolConfig htools, requestOf,
    optionalParts_dropNulls hparams htoolConfig]

theorem Harmless.eq (hparams : (params.map (·.1)).Nodup) (htoolConfig : (toolConfig.map (·.1)).Nodup)
    (htools : lookup "tools" toolConfig ≠ some .null) (h : Harmless py params toolConfig) :
    buildRequest py modelId prompt (.dict params) (.dict toolConfig) =
      buildRequest py modelId prompt (.dict (dropNulls params)) (.dict (dropNulls toolConfig)) := by
  rw [buildRequest_dropNulls_dict hparams htoolConfig htools, buildRequest_dict]
  cases hspecs : toolsIn toolConfig with
  | error e => rfl
  | ok tools =>
    simp only [ok_bind]
    have hstuck {forced} (hchoice : normalizeToolChoice (choiceIn (dropNulls toolConfig)) = .ok forced)
        (hparts : PartsStuck py params toolConfig tools) :
        requestOf py modelId prompt params toolConfig tools (numbersIn params)
            (normalizeToolChoice (choiceIn toolConfig)) =
          requestOf py modelId prompt params toolConfig tools (numbersIn (dropNulls params))
            (normalizeToolChoice (choiceIn (dropNulls toolConfig))) := by
      obtain ⟨forced', hforced'⟩ := choice_ok_of_dropNulls htoolConfig hchoice
      obtain ⟨e, he⟩ := hparts.raises
      rw [hchoice, hforced', requestOf_eq_iff]
      exact .inl ⟨e, he _, he _⟩
    cases h with
    | unread hchoice hnumbers => rw [choice_dropNulls htoolConfig hchoice, (numbers_dropNulls hparams).mpr hnumbers]
    | tool h => rw [hspecs] at h; cases h
    | choice hchoice h => rw [choice_dropNulls htoolConfig hchoice, h]; rfl
    | @sameError tool format hnull hchoice hformat hnone htype =>
      have hdict : format.isDict = false := by
        obtain ⟨_, -, -, hdict⟩ := hchoice
        rw [Bool.eq_false_iff, ne_eq, isDict_iff_typeName] at hdict ⊢
        rwa [← htype]
      have hsame : attributeError tool "get" = attributeError format "get" := by
        rw [attributeError, htype, attributeError]
      have hraises := @normalizeOutputFormat_noDict py _ _ hformat hnone hdict
      rw [choiceIn_dropNulls_null htoolConfig hnull, choiceIn_null hnull, normalizeToolChoice_namesNoTool hchoice, hsame]
      exact requestOf_eq_error_iff.mpr (by rw [optionalParts, hraises, error_bind])
    | outputFormat hchoice h => exact hstuck hchoice (.outputFormat h)
    | thinking hchoice h => exact hstuck hchoice (.thinking h)
    | toolsAndFormat hchoice hformat hspecs' h =>
      rw [hspecs] at hspecs'
      cases hspecs'
      exact hstuck hchoice (.toolsAndFormat hformat h)
    | thinkingAndTool hchoice hforced h hthinking =>
      rw [choice_dropNulls htoolConfig hchoice, hforced, requestOf_eq_iff]
      cases hparts : optionalParts py params toolConfig tools _ with
      | error e => exact .inl ⟨e, rfl, rfl⟩
      | ok parts =>
        obtain ⟨_, _, hthinking', hnull, -⟩ := optionalParts_ok hparts
        rw [hthinking] at hthinking'
        cases hthinking'
        exact absurd (hnull rfl) h
    | effort hchoice hkept h =>
      rcases hkept with hkept | hnone
      · rw [choice_dropNulls htoolConfig hkept] at hchoice ⊢
        rw [hchoice, requestOf_eq_iff]
        cases hparts : optionalParts py params toolConfig tools _ with
        | error e => exact .inl ⟨e, rfl, rfl⟩
        | ok parts =>
          obtain ⟨_, _, -, -, heffort⟩ := optionalParts_ok hparts
          rw [h] at heffort
          cases heffort
      · exact hstuck hchoice (.effort hnone h)

theorem harmless_of_eq (hparams : (params.map (·.1)).Nodup) (htoolConfig : (toolConfig.map (·.1)).Nodup)
    (htools : lookup "tools" toolConfig ≠ some .null)
    (h : buildRequest py modelId prompt (.dict params) (.dict toolConfig) =
      buildRequest py modelId prompt (.dict (dropNulls params)) (.dict (dropNulls toolConfig))) :
    Harmless py params toolConfig := by
  rw [buildRequest_dropNulls_dict hparams htoolConfig htools, buildRequest_dict] at h
  cases hspecs : toolsIn toolConfig with
  | error e => exact .tool hspecs
  | ok tools =>
    simp only [hspecs, ok_bind] at h
    by_cases hkept : ChoiceKept toolConfig
    · rw [choice_dropNulls htoolConfig hkept] at h
      cases hchoice : normalizeToolChoice (choiceIn toolConfig) with
      | error e => exact .choice hkept hchoice
      | ok forced =>
        have hchoice' := hchoice
        rw [← choice_dropNulls htoolConfig hkept] at hchoice'
        rw [hchoice, requestOf_eq_iff] at h
        rcases h with ⟨e, hparts, -⟩ | ⟨-, hnumbers⟩
        · cases optionalParts_fail hparts with
          | outputFormat h => exact .outputFormat hchoice' h
          | thinking h => exact .thinking hchoice' h
          | toolsAndFormat hformat htools => exact .toolsAndFormat hchoice' hformat hspecs htools
          | thinkingAndTool hthinking hforced => exact .thinkingAndTool hkept hchoice hforced hthinking
          | effort _ h => exact .effort hchoice' (.inl hkept) h
        · exact .unread hkept ((numbers_dropNulls hparams).mp hnumbers)
    · obtain ⟨hnull, hforced⟩ : lookup "tool_choice" toolConfig = some .null ∧
          normalizeToolChoice (bedrockChoice toolConfig) ≠ .ok .null := by
        simpa only [ChoiceKept, Classical.not_imp] using hkept
      have hchoice : choiceIn (dropNulls toolConfig) = bedrockChoice toolConfig :=
        choiceIn_dropNulls_null htoolConfig hnull
      rw [choiceIn_null hnull, hchoice] at h
      cases hbedrock : normalizeToolChoice (bedrockChoice toolConfig) with
      | error e =>
        rw [hbedrock] at h
        have hparts := requestOf_eq_error_iff.mp h
        have hvalue : e.type ≠ .valueError := by
          rcases normalizeToolChoice_error hbedrock with ⟨tool, -, rfl⟩ | ⟨h, -⟩
          · simp [attributeError]
          · simp [h]
        cases optionalParts_fail hparts with
        | outputFormat h =>
          rcases normalizeToolChoice_error hbedrock with ⟨tool, htool, rfl⟩ | ⟨htype, -⟩
          · obtain ⟨format, hformat, hnone, hsame⟩ := normalizeOutputFormat_attributeError h rfl
            exact .sameError hnull htool hformat hnone (attributeError_inj hsame)
          · rcases normalizeOutputFormat_attributeOrValue _ _ h with h | h <;> simp [h] at htype
        | thinking h =>
          obtain ⟨v, rfl⟩ := optionalStr_error h
          exact absurd rfl hvalue
        | toolsAndFormat _ _ h => exact absurd (h ▸ rfl) hvalue
        | thinkingAndTool _ hforced => exact absurd rfl hforced
        | effort _ h =>
          obtain ⟨v, rfl⟩ := optionalStr_error h
          exact absurd rfl hvalue
      | ok forced =>
        have hchoice' : normalizeToolChoice (choiceIn (dropNulls toolConfig)) = .ok forced := by rw [hchoice, hbedrock]
        rw [hbedrock] at h hforced
        rcases requestOf_eq_iff.mp h with ⟨e, hnone, hparts⟩ | ⟨rfl, -⟩
        · cases optionalParts_fail hparts with
          | outputFormat h => exact .outputFormat hchoice' h
          | thinking h => exact .thinking hchoice' h
          | toolsAndFormat hformat htools => exact .toolsAndFormat hchoice' hformat hspecs htools
          | thinkingAndTool hthinking _ htext =>
            -- with no tool forced, another check raises, and no other has this text
            cases optionalParts_fail hnone with
            | outputFormat h => exact .outputFormat hchoice' h
            | thinking h => exact .thinking hchoice' h
            | toolsAndFormat hformat htools => exact .toolsAndFormat hchoice' hformat hspecs htools
            | thinkingAndTool _ hforced' => exact absurd rfl hforced'
            | effort _ h =>
              obtain ⟨v, hv⟩ := optionalStr_error h
              exact absurd (hv.symm.trans htext) (effort_ne_thinkingWithForcedTool v)
          | effort hthinking h =>
            rcases hthinking with hthinking | rfl
            · exact .effort hchoice' (.inr hthinking) h
            · exact absurd rfl hforced
        · exact absurd rfl hforced

theorem buildRequest_tools_null (htoolConfig : (toolConfig.map (·.1)).Nodup)
    (htools : lookup "tools" toolConfig = some .null) :
    buildRequest py modelId prompt (.dict params) (.dict toolConfig) ≠
      buildRequest py modelId prompt (.dict (dropNulls params)) (.dict (dropNulls toolConfig)) := by
  rw [buildRequest_dict, buildRequest_dict, toolsIn_null htools, toolsIn_dropNulls_null htoolConfig htools]
  simp only [error_bind, ok_bind, requestOf]
  intro h
  rcases bind_error.mp h.symm with h | ⟨forced, -, h⟩
  · rcases normalizeToolChoice_error h with ⟨_, -, h⟩ | ⟨-, h⟩
    · simp [noneNotIterable, typeError, attributeError] at h
    · exact h rfl
  · rcases bind_error.mp h with h | ⟨parts, -, h⟩
    · rcases optionalParts_attributeOrValue _ _ _ h with h | h <;> simp [noneNotIterable, typeError] at h
    · cases h

/-- The law of null fields, and exactly which rows break it: where `tools` is
not null, those with a null that is read, unless they are malformed anyway. -/
theorem buildRequest_dropNulls_iff (py : Stdlib) (modelId prompt : String) {params toolConfig : List (String × Json)}
    (hparams : (params.map (·.1)).Nodup) (htoolConfig : (toolConfig.map (·.1)).Nodup) :
    buildRequest py modelId prompt (.dict params) (.dict toolConfig) =
      buildRequest py modelId prompt (.dict (dropNulls params)) (.dict (dropNulls toolConfig)) ↔
    lookup "tools" toolConfig ≠ some .null ∧ Harmless py params toolConfig := by
  constructor
  · intro h
    have htools : lookup "tools" toolConfig ≠ some .null := fun htools => buildRequest_tools_null htoolConfig htools h
    exact ⟨htools, harmless_of_eq hparams htoolConfig htools h⟩
  · rintro ⟨htools, h⟩
    exact h.eq hparams htoolConfig htools

/-- A row with a null `effort` beside a v0 tool choice. -/
theorem buildRequest_dropNulls_iff_effort :
    buildRequest sampleStdlib "m" "p" (.dict [("effort", .null)]) (.dict [("toolChoice", .dict [("auto", .dict [])])]) =
      buildRequest sampleStdlib "m" "p" (.dict []) (.dict [("toolChoice", .dict [("auto", .dict [])])]) :=
  (buildRequest_dropNulls_iff sampleStdlib "m" "p" (by decide) (by decide)).mpr
    ⟨by decide, .unread (fun h => absurd h (by decide)) ⟨by decide, fun h => absurd h (by decide)⟩⟩

/-- A null temperature reaches the provider; without it, the default would. -/
theorem buildRequest_null_temperature :
    buildRequest sampleStdlib "m" "p" (.dict [("temperature", .null)]) (.dict []) ≠
      buildRequest sampleStdlib "m" "p" (.dict (dropNulls [("temperature", .null)])) (.dict (dropNulls [])) := by
  decide

end

end LlmWorker
