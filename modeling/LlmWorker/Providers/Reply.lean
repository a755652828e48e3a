import LlmWorker.Providers.Bedrock
import LlmWorker.Providers.AnthropicMessages
import Mathlib.Data.List.Induction

/-!
# One reply, rendered for two clouds

A reply as the model gives it, rendered as a Converse response and as a
Messages response, and what each adapter makes of it. Bedrock collects the
texts that are not empty and tells a refusal by its stop details; Messages
collects every text and tells a refusal by its stop reason.
-/

namespace LlmWorker

open Python AnthropicMessages

/-- A content block, whatever the backend. -/
inductive Part
  | text (text : String)
  | thinking (text : String)
  | toolUse (id name : String) (input : Json)

structure Reply where
  parts : List Part
  stopReason : String
  stopDetails : Option StopDetails

def Part.toConverse : Part → Json
  | .text s => .dict [("text", .str s)]
  | .thinking s => .dict [("reasoningContent", .dict [("reasoningText", .dict [("text", .str s)])])]
  | .toolUse id name input =>
    .dict [("toolUse", .dict [("toolUseId", .str id), ("name", .str name), ("input", input)])]

def Part.toBlock : Part → Block
  | .text s => .text s
  | .thinking _ => .other "thinking"
  | .toolUse _ _ input => .toolUse input

def Part.text? : Part → Option String
  | .text s => some s
  | _ => none

def Part.toolInput? : Part → Option Json
  | .toolUse _ _ input => some input
  | _ => none

namespace Reply

/-- A refusal arrives as `content_filtered`, which guardrails use too. -/
def toConverse (reply : Reply) : Json :=
  .dict ([("output", .dict [("message", .dict [("role", .str "assistant"),
      ("content", .list (reply.parts.map Part.toConverse))])]),
    ("stopReason", .str (if reply.stopReason = "refusal" then "content_filtered" else reply.stopReason))] ++
    Json.entry "additionalModelResponseFields" (reply.stopDetails.map fun details =>
      .dict [("stop_details", .dict [("type", .str details.type), ("category", optStr details.category)])]))

def toMessage (reply : Reply) (usage : Option Usage) : Message :=
  ⟨reply.parts.map Part.toBlock, some reply.stopReason, reply.stopDetails, usage⟩

def texts (reply : Reply) : List String := reply.parts.filterMap Part.text?

/-- The texts that Bedrock collects. -/
def spoken (reply : Reply) : List String := reply.texts.filter (· ≠ "")

def toolInputs (reply : Reply) : List Json := reply.parts.filterMap Part.toolInput?

def outputText (reply : Reply) : String := reply.texts.foldr (· ++ ·) ""

def refused (reply : Reply) : Bool := reply.stopDetails.any fun details => details.type = "refusal"

def category (reply : Reply) : Json := optStr (reply.stopDetails.bind (·.category))

end Reply

-- ---------------------------------------------------------------------------
-- What the adapters collect
-- ---------------------------------------------------------------------------

theorem converse_collectBlock (part : Part) (texts toolUses : List Json) :
    Bedrock.collectBlock (texts, toolUses) part.toConverse =
      .ok (texts ++ (part.text?.toList.filter (· ≠ "")).map .str, toolUses ++ part.toolInput?.toList) := by
  cases part with
  | text s =>
    by_cases hs : s = "" <;>
      simp [Bedrock.collectBlock, Part.toConverse, Part.text?, Part.toolInput?, Json.lookup, Json.truthy,
        Json.item, hs]
  | _ =>
    simp [Bedrock.collectBlock, Part.toConverse, Part.text?, Part.toolInput?, Json.lookup, Json.truthy,
      Json.item]

theorem message_collectBlock (part : Part) (texts toolUses : List Json) :
    collectBlock (texts, toolUses) part.toBlock =
      (texts ++ part.text?.toList.map .str, toolUses ++ part.toolInput?.toList) := by
  cases part <;> simp [collectBlock, Part.toBlock, Part.text?, Part.toolInput?]

theorem filterMap_cons_toList (f : α → Option β) (a : α) (l : List α) :
    (a :: l).filterMap f = (f a).toList ++ l.filterMap f := by
  cases h : f a <;> simp [h]

theorem converse_collect (parts : List Part) (texts toolUses : List Json) :
    (parts.map Part.toConverse).foldlM Bedrock.collectBlock (texts, toolUses) =
      .ok (texts ++ ((parts.filterMap Part.text?).filter (· ≠ "")).map .str,
        toolUses ++ parts.filterMap Part.toolInput?) := by
  induction parts generalizing texts toolUses with
  | nil => simp
  | cons part rest ih =>
    rw [List.map_cons, List.foldlM_cons, converse_collectBlock, ok_bind, ih, filterMap_cons_toList,
      filterMap_cons_toList, List.filter_append, List.map_append, List.append_assoc, List.append_assoc]

theorem message_collect (parts : List Part) (texts toolUses : List Json) :
    (parts.map Part.toBlock).foldl collectBlock (texts, toolUses) =
      (texts ++ (parts.filterMap Part.text?).map .str, toolUses ++ parts.filterMap Part.toolInput?) := by
  induction parts generalizing texts toolUses with
  | nil => simp
  | cons part rest ih =>
    rw [List.map_cons, List.foldl_cons, message_collectBlock, ih, filterMap_cons_toList,
      filterMap_cons_toList, List.map_append, List.append_assoc, List.append_assoc]

theorem joinTexts_str (i : Nat) (texts : List String) :
    joinTexts i (texts.map .str) = .ok (texts.foldr (· ++ ·) "") := by
  induction texts generalizing i with
  | nil => rfl
  | cons s rest ih => simp [joinTexts, ih]

theorem outputText_spoken (reply : Reply) : reply.spoken.foldr (· ++ ·) "" = reply.outputText := by
  unfold Reply.spoken Reply.outputText
  induction reply.texts with
  | nil => rfl
  | cons s rest ih => by_cases hs : s = "" <;> simpa [hs] using ih

namespace Reply

variable {py : Stdlib} {reply : Reply}

theorem extractOutput_toConverse (jsonOutput : Bool) :
    Bedrock.extractOutput py reply.toConverse jsonOutput =
      buildOutput py (reply.spoken.map .str) reply.toolInputs jsonOutput
        (.str (if reply.refused then "refusal"
          else if reply.stopReason = "refusal" then "content_filtered" else reply.stopReason))
        (if reply.refused then reply.category else .null) := by
  have hcollect := converse_collect reply.parts [] []
  simp only [List.nil_append] at hcollect
  unfold Bedrock.extractOutput toConverse
  cases hd : reply.stopDetails with
  | none => simp [Json.lookup, hcollect, Json.entry, Bedrock.isRefusal, refused, hd, spoken, texts, toolInputs]
  | some details =>
    by_cases ht : details.type = "refusal" <;>
      simp [Json.lookup, hcollect, Json.entry, Bedrock.isRefusal, refused, category, hd, ht, spoken, texts,
        toolInputs]

theorem toLlmResponse_toMessage (request : ContractRequest) (usage : Option Usage) :
    (toLlmResponse py request (reply.toMessage usage)).map (·.output) =
      buildOutput py (reply.texts.map .str) reply.toolInputs request.outputFormat.isSome
        (.str reply.stopReason) reply.category := by
  have hcollect := message_collect reply.parts [] []
  simp only [List.nil_append] at hcollect
  have hcategory : refusalCategory (reply.toMessage usage) = reply.category := by
    unfold refusalCategory category toMessage
    cases reply.stopDetails <;> rfl
  have houtput : toOutput py (reply.toMessage usage) request.outputFormat.isSome =
      buildOutput py (reply.texts.map .str) reply.toolInputs request.outputFormat.isSome
        (.str reply.stopReason) reply.category := by
    unfold toOutput
    rw [hcategory]
    simp only [toMessage, hcollect, optStr, texts, toolInputs]
  unfold toLlmResponse
  rw [houtput]
  cases buildOutput py (reply.texts.map .str) reply.toolInputs request.outputFormat.isSome
    (.str reply.stopReason) reply.category with
  | error e => rfl
  | ok output => cases usage <;> rfl

end Reply

-- ---------------------------------------------------------------------------
-- With JSON output
-- ---------------------------------------------------------------------------

section
variable (py : Stdlib)

/-- What the last of the texts holds. -/
def parseTexts (texts : List String) : Result Json :=
  match texts.getLast? with
  | some s => loadsOrNone py s
  | none => .ok .null

def resultEnvelope (text : String) (parsed : Json) : Json :=
  .dict [("output_text", .str text), ("tool_uses", .list [parsed])]

def errorEnvelope (text error stopReason : String) (category : Json) : Json :=
  .dict (("output_text", .str text) :: ("result_error", .str error) ::
    stopFields (.str stopReason) category)

def refusalEnvelope (text : String) (category : Json) : Json :=
  .dict (("output_text", .str text) :: stopFields (.str "refusal") category)

def jsonEnvelope (text stopReason : String) (category parsed : Json) : Json :=
  if !parsed.isDict then errorEnvelope text "reply is not a JSON object" stopReason category
  else if stopReason ∈ finishedStopReasons then resultEnvelope text parsed
  else errorEnvelope text "reply did not finish" stopReason category

theorem buildOutput_refusal (texts : List String) (toolUses : List Json) (category : Json) :
    buildOutput py (texts.map .str) toolUses true (.str "refusal") category =
      .ok (refusalEnvelope (texts.foldr (· ++ ·) "") category) := by
  simp [buildOutput, joinTexts_str, refusalEnvelope]

theorem buildOutput_json (texts : List String) (toolUses : List Json) (category : Json)
    (hreason : stopReason ≠ "refusal") :
    buildOutput py (texts.map .str) toolUses true (.str stopReason) category =
      (parseTexts py texts).map (jsonEnvelope (texts.foldr (· ++ ·) "") stopReason category) := by
  have hlast : parseLast py (texts.map .str) = parseTexts py texts := by
    unfold parseLast parseTexts
    rw [List.getLast?_map]
    cases texts.getLast? <;> rfl
  have hfinished : isFinished (.str stopReason) = .ok (decide (stopReason ∈ finishedStopReasons)) := by
    simp [isFinished, finishedStopReasons]
  simp only [buildOutput, joinTexts_str, ok_bind, hlast, Bool.not_true, Json.str.injEq, hreason]
  cases parseTexts py texts with
  | error e => rfl
  | ok parsed =>
    by_cases hd : parsed.isDict <;> by_cases hf : stopReason ∈ finishedStopReasons <;>
      simp [hfinished, jsonEnvelope, errorEnvelope, resultEnvelope, hd, hf, Except.map]

end

theorem jsonEnvelope_ne_refusal (text text' stopReason : String) (category category' parsed : Json) :
    jsonEnvelope text stopReason category parsed ≠ refusalEnvelope text' category' := by
  unfold jsonEnvelope refusalEnvelope errorEnvelope resultEnvelope
  split
  · simp [stopFields]
  · split <;> simp [stopFields]

theorem errorEnvelope_inj {text error error' stopReason : String} {category : Json} :
    errorEnvelope text error stopReason .null = errorEnvelope text error' stopReason category ↔
      error = error' ∧ category.truthy = false := by
  unfold errorEnvelope stopFields
  cases h : category.truthy <;> simp [Json.truthy]

theorem jsonEnvelope_category {text stopReason : String} {category parsed : Json} :
    jsonEnvelope text stopReason .null parsed = jsonEnvelope text stopReason category parsed ↔
      (category.truthy = true → parsed.isDict = true ∧ stopReason ∈ finishedStopReasons) := by
  unfold jsonEnvelope
  cases hd : parsed.isDict
  · simp [errorEnvelope_inj]
  · by_cases hf : stopReason ∈ finishedStopReasons <;> simp [hf, errorEnvelope_inj]

theorem jsonEnvelope_unparsed {text stopReason : String} {category parsed : Json} :
    jsonEnvelope text stopReason .null parsed = jsonEnvelope text stopReason category .null ↔
      parsed.isDict = false ∧ category.truthy = false := by
  unfold jsonEnvelope
  cases hd : parsed.isDict
  · simp [errorEnvelope_inj, Json.isDict]
  · by_cases hf : stopReason ∈ finishedStopReasons
    · simp [hf, Json.isDict, resultEnvelope, errorEnvelope]
    · simp [hf, Json.isDict, errorEnvelope_inj]

namespace Reply

variable {py : Stdlib} {reply : Reply}

/-- The last text block is empty, and another one is not. -/
def TrailsOff (reply : Reply) : Prop := reply.texts.getLast? = some "" ∧ reply.spoken ≠ []

/-- A text that only Bedrock parses is not an answer. -/
def TrailsHarmlessly (py : Stdlib) (reply : Reply) : Prop :=
  reply.TrailsOff → ∃ parsed, parseTexts py reply.spoken = .ok parsed ∧ parsed.isDict = false

/-- A category only comes with a stored result. -/
def CategoryUnread (py : Stdlib) (reply : Reply) : Prop :=
  reply.category.truthy = true → ∀ parsed, parseTexts py reply.spoken = .ok parsed →
    parsed.isDict = true ∧ reply.stopReason ∈ finishedStopReasons

/-- Unless it trails off, the last text block that Bedrock collects is the last one. -/
theorem parseTexts_spoken (hempty : loadsOrNone py "" = .ok .null) (h : ¬reply.TrailsOff) :
    parseTexts py reply.spoken = parseTexts py reply.texts := by
  unfold TrailsOff spoken at h
  unfold spoken parseTexts
  generalize reply.texts = texts at h ⊢
  induction texts using List.reverseRecOn with
  | nil => rfl
  | append_singleton rest s _ =>
    by_cases hs : s = ""
    · subst hs
      have hnil : (rest ++ [""]).filter (· ≠ "") = [] := by simpa using h
      rw [hnil]
      simp [hempty]
    · simp [List.filter_append, hs]

theorem parseTexts_trailsOff (hempty : loadsOrNone py "" = .ok .null) (h : reply.TrailsOff) :
    parseTexts py reply.texts = .ok .null := by
  unfold parseTexts
  rw [h.1]
  exact hempty

theorem answers_equal_iff (hempty : loadsOrNone py "" = .ok .null) (htext : reply.TrailsHarmlessly py) :
    (parseTexts py reply.spoken).map (jsonEnvelope text reply.stopReason .null) =
        (parseTexts py reply.texts).map (jsonEnvelope text reply.stopReason reply.category) ↔
      reply.CategoryUnread py := by
  unfold CategoryUnread
  by_cases ht : reply.TrailsOff
  · obtain ⟨parsed, hparsed, hd⟩ := htext ht
    rw [parseTexts_trailsOff hempty ht, hparsed]
    simp [Except.map, jsonEnvelope_unparsed, hd]
  · rw [← parseTexts_spoken hempty ht]
    cases parseTexts py reply.spoken with
    | error e => simp [Except.map]
    | ok parsed => simp [Except.map, jsonEnvelope_category]

end Reply

/-- No reply is a refusal for one adapter and an answer for the other. -/
theorem map_jsonEnvelope_ne_refusal (parsed : Result Json) :
    parsed.map (jsonEnvelope text stopReason category) ≠ .ok (refusalEnvelope text' category') := by
  cases parsed with
  | error e => simp [Except.map]
  | ok parsed =>
    intro h
    simp only [Except.map, Except.ok.injEq] at h
    exact jsonEnvelope_ne_refusal _ _ _ _ _ _ h

/-- `json.loads("")` raises a `ValueError`. -/
def Stdlib.RejectsEmpty (py : Stdlib) : Prop := ∃ e, py.loads "" = .error e ∧ e.isValueError = true

/-- For a request with an output format, the envelopes of a reply are equal
exactly when the stop details call it a refusal as the stop reason does, and an
answer has no category to tell. -/
theorem json_envelopes_equal_iff {py : Stdlib} (hpy : py.RejectsEmpty) (request : ContractRequest)
    (hjson : request.outputFormat.isSome = true) (reply : Reply) (usage : Option Usage)
    (htext : reply.stopReason ≠ "refusal" → reply.TrailsHarmlessly py) :
    Bedrock.extractOutput py reply.toConverse request.outputFormat.isSome =
        (toLlmResponse py request (reply.toMessage usage)).map (·.output) ↔
      (reply.refused = true ↔ reply.stopReason = "refusal") ∧
        (reply.stopReason ≠ "refusal" → reply.CategoryUnread py) := by
  obtain ⟨e, he, hvalue⟩ := hpy
  have hempty : loadsOrNone py "" = .ok .null := by simp [loadsOrNone, he, hvalue]
  rw [Reply.extractOutput_toConverse, Reply.toLlmResponse_toMessage, hjson]
  by_cases hstop : reply.stopReason = "refusal" <;> cases hr : reply.refused
  · -- Bedrock takes it for a guardrail's stop
    have hne : "content_filtered" ≠ "refusal" := by decide
    simp only [hstop, Bool.false_eq_true, if_false, if_true]
    rw [buildOutput_refusal, buildOutput_json _ _ _ _ hne]
    refine ⟨fun heq => absurd heq (map_jsonEnvelope_ne_refusal _), ?_⟩
    rintro ⟨hrefusal, -⟩
    simp at hrefusal
  · simp only [hstop, if_true]
    rw [buildOutput_refusal, buildOutput_refusal, outputText_spoken]
    simp [Reply.outputText]
  · simp only [hstop, Bool.false_eq_true, if_false]
    rw [buildOutput_json _ _ _ _ hstop, buildOutput_json _ _ _ _ hstop, outputText_spoken, Reply.outputText,
      Reply.answers_equal_iff hempty (htext hstop)]
    simp [hstop]
  · -- only Bedrock takes it for a refusal
    simp only [if_true]
    rw [buildOutput_refusal, buildOutput_json _ _ _ _ hstop]
    refine ⟨fun heq => absurd heq.symm (map_jsonEnvelope_ne_refusal _), ?_⟩
    rintro ⟨hrefusal, -⟩
    simp [hstop] at hrefusal

-- ---------------------------------------------------------------------------
-- Replies that the adapters tell apart
-- ---------------------------------------------------------------------------

def scoreText : String := "\x7b\"score\": 1\x7d"

/-- It knows one JSON text. -/
def scoreStdlib : Stdlib where
  repr _ := "…"
  loads s := if s = scoreText then .ok (.dict [("score", .int 1)])
    else .error ⟨.jsonDecodeError, "Expecting value: line 1 column 1 (char 0)"⟩
  dumps _ := .ok scoreText

theorem scoreStdlib_rejectsEmpty : scoreStdlib.RejectsEmpty := ⟨_, rfl, rfl⟩

def scored (parts : List Part) : Reply := ⟨.thinking "one point" :: .text scoreText :: parts, "end_turn", none⟩

def refusedSilently : Reply := ⟨[.text "No."], "refusal", none⟩

/-- A refusal without stop details, and a result followed by an empty text. -/
theorem json_envelopes_differ :
    Bedrock.extractOutput scoreStdlib refusedSilently.toConverse profiledRequest.outputFormat.isSome ≠
        (toLlmResponse scoreStdlib profiledRequest (refusedSilently.toMessage none)).map (·.output) ∧
      Bedrock.extractOutput scoreStdlib (scored [.text ""]).toConverse profiledRequest.outputFormat.isSome ≠
        (toLlmResponse scoreStdlib profiledRequest ((scored [.text ""]).toMessage none)).map (·.output) := by
  decide

theorem scored_equal :
    Bedrock.extractOutput scoreStdlib (scored []).toConverse profiledRequest.outputFormat.isSome =
      (toLlmResponse scoreStdlib profiledRequest ((scored []).toMessage none)).map (·.output) := by
  refine (json_envelopes_equal_iff scoreStdlib_rejectsEmpty profiledRequest rfl (scored []) none
    fun _ h => ?_).mpr ⟨by decide, fun _ h => ?_⟩
  · exact absurd h.1 (by decide)
  · exact absurd h (by decide)

end LlmWorker
