import LlmWorker.Providers.Reply

/-!
# How a JSON reply is read

The envelope of a reply to a request with an output format has one of three
shapes: a result, a refusal, or a record of why there is no result. Which one
it has is a matter of the stop reason, the refusal details and the last text
that the adapter collects; tool calls play no part.
-/

namespace LlmWorker

open Python AnthropicMessages

-- ---------------------------------------------------------------------------
-- The three shapes
-- ---------------------------------------------------------------------------

/-- The envelope holds the result `obj`. -/
def HoldsResult (envelope : Json) (obj : List (String × Json)) : Prop :=
  envelope.at? ["tool_uses"] = some (.list [.dict obj]) ∧ envelope.at? ["stop_reason"] = none ∧
    envelope.at? ["result_error"] = none

def RecordsRefusal (envelope : Json) : Prop :=
  envelope.at? ["stop_reason"] = some (.str "refusal") ∧ envelope.at? ["tool_uses"] = none ∧
    envelope.at? ["result_error"] = none

def RecordsFailure (envelope : Json) : Prop :=
  (∃ reason, envelope.at? ["stop_reason"] = some (.str reason)) ∧
    (∃ error, envelope.at? ["result_error"] = some (.str error)) ∧ envelope.at? ["tool_uses"] = none

/-- The last of the texts is the JSON object `obj`. -/
def Parses (py : Stdlib) (texts : List String) (obj : List (String × Json)) : Prop :=
  ∃ s, texts.getLast? = some s ∧ py.loads s = .ok (.dict obj)

/-- `json.loads` returns a value for the last text, or raises a `ValueError`. -/
def Readable (py : Stdlib) (texts : List String) : Prop :=
  ∀ s, texts.getLast? = some s → ∀ e, py.loads s = .error e → e.isValueError = true

def Finished (stopReason : Option String) : Prop := ∃ reason ∈ finishedStopReasons, stopReason = some reason

/-- The envelope has the text of the reply and the shape that it calls for. -/
structure Classified (py : Stdlib) (text : String) (collected : List String) (refusal : Prop)
    (stopReason : Option String) (envelope : Json) : Prop where
  text : envelope.at? ["output_text"] = some (.str text)
  result : ∀ obj, HoldsResult envelope obj ↔ ¬refusal ∧ Finished stopReason ∧ Parses py collected obj
  refused : RecordsRefusal envelope ↔ refusal
  failed : RecordsFailure envelope ↔
    ¬refusal ∧ ¬(Finished stopReason ∧ ∃ obj, Parses py collected obj)

section
variable {py : Stdlib} {texts : List String}

theorem Classified.congr (h : Classified py outputText collected refusal stopReason envelope)
    (hrefusal : refusal ↔ refusal') (hstop : ¬refusal' → stopReason = stopReason') :
    Classified py outputText collected refusal' stopReason' envelope := by
  obtain ⟨htext, hresult, hrefused, hfailed⟩ := h
  rw [hrefusal] at hrefused hfailed
  simp only [hrefusal] at hresult
  by_cases hr : refusal'
  · exact ⟨htext, by simpa [hr] using hresult, hrefused, by simpa [hr] using hfailed⟩
  · obtain rfl := hstop hr
    exact ⟨htext, hresult, hrefused, hfailed⟩

theorem parseTexts_readable (h : Readable py texts) :
    ∃ parsed, parseTexts py texts = .ok parsed ∧ ∀ obj, parsed = .dict obj ↔ Parses py texts obj := by
  unfold parseTexts Parses
  cases hlast : texts.getLast? with
  | none => exact ⟨.null, rfl, by simp⟩
  | some s =>
    cases hs : py.loads s with
    | ok v => exact ⟨v, by simp [loadsOrNone, hs], by simp [hs]⟩
    | error e => exact ⟨.null, by simp [loadsOrNone, hs, h s hlast e hs], by simp [hs]⟩

theorem isFinished_optStr (stopReason : Option String) :
    ∃ finished, isFinished (optStr stopReason) = .ok finished ∧ (finished = true ↔ Finished stopReason) := by
  cases stopReason with
  | none => exact ⟨false, by simp [isFinished, optStr, finishedStopReasons], by simp [Finished]⟩
  | some reason =>
    refine ⟨decide (reason ∈ finishedStopReasons), by simp [isFinished, optStr, finishedStopReasons], ?_⟩
    simp [Finished]

theorem orEmpty_str (s : String) : orEmpty (.str s) = .str s := by
  by_cases h : s = "" <;> simp [orEmpty, Json.truthy, h]

theorem orEmpty_optStr (stopReason : Option String) :
    orEmpty (optStr stopReason) = .str (stopReason.getD "") := by
  cases stopReason with
  | none => rfl
  | some reason => exact orEmpty_str reason

-- ---------------------------------------------------------------------------
-- The envelope
-- ---------------------------------------------------------------------------

theorem refusalEnvelope_shape (text : String) (category : Json) :
    (refusalEnvelope text category).at? ["output_text"] = some (.str text) ∧
      RecordsRefusal (refusalEnvelope text category) ∧ ¬RecordsFailure (refusalEnvelope text category) ∧
      ∀ obj, ¬HoldsResult (refusalEnvelope text category) obj := by
  cases h : category.truthy <;>
    simp [refusalEnvelope, stopFields, orEmpty_str, h, RecordsRefusal, RecordsFailure, HoldsResult, Json.lookup]

theorem resultEnvelope_shape (text : String) (obj : List (String × Json)) :
    (resultEnvelope text (.dict obj)).at? ["output_text"] = some (.str text) ∧
      ¬RecordsRefusal (resultEnvelope text (.dict obj)) ∧
      ¬RecordsFailure (resultEnvelope text (.dict obj)) ∧
      ∀ other, HoldsResult (resultEnvelope text (.dict obj)) other ↔ obj = other := by
  simp [resultEnvelope, RecordsRefusal, RecordsFailure, HoldsResult, Json.lookup]

def failureEnvelope (text error : String) (stopReason : Option String) (category : Json) : Json :=
  .dict ([("output_text", .str text), ("result_error", .str error)] ++
    stopFields (optStr stopReason) category)

theorem failureEnvelope_shape (text error : String) (stopReason : Option String) (category : Json) :
    (failureEnvelope text error stopReason category).at? ["output_text"] = some (.str text) ∧
      ¬RecordsRefusal (failureEnvelope text error stopReason category) ∧
      RecordsFailure (failureEnvelope text error stopReason category) ∧
      ∀ obj, ¬HoldsResult (failureEnvelope text error stopReason category) obj := by
  cases h : category.truthy <;>
    simp [failureEnvelope, stopFields, orEmpty_optStr, h, RecordsRefusal, RecordsFailure, HoldsResult,
      Json.lookup]

theorem buildOutput_answer (toolUses : List Json) (category : Json) (hstop : stopReason ≠ some "refusal")
    (hparsed : parseTexts py texts = .ok parsed) (hfinished : isFinished (optStr stopReason) = .ok finished) :
    buildOutput py (texts.map .str) toolUses true (optStr stopReason) category =
      .ok (if !parsed.isDict then
          failureEnvelope (texts.foldr (· ++ ·) "") "reply is not a JSON object" stopReason category
        else if finished then resultEnvelope (texts.foldr (· ++ ·) "") parsed
        else failureEnvelope (texts.foldr (· ++ ·) "") "reply did not finish" stopReason category) := by
  have hlast : parseLast py (texts.map .str) = .ok parsed := by
    rw [← hparsed]
    unfold parseLast parseTexts
    rw [List.getLast?_map]
    cases texts.getLast? <;> rfl
  have hne : optStr stopReason ≠ .str "refusal" := by
    cases stopReason with
    | none => simp [optStr]
    | some reason => simpa [optStr] using hstop
  cases hd : parsed.isDict <;> cases finished <;>
    simp [buildOutput, joinTexts_str, hlast, hne, hfinished, hd, failureEnvelope, resultEnvelope]

/-- One envelope for all lists of tool calls, with the shape that the texts and the stop reason call for. -/
theorem buildOutput_classified (stopReason : Option String) (category : Json) (h : Readable py texts) :
    ∃ envelope, (∀ toolUses, buildOutput py (texts.map .str) toolUses true (optStr stopReason) category =
        .ok envelope) ∧
      Classified py (texts.foldr (· ++ ·) "") texts (stopReason = some "refusal") stopReason envelope := by
  by_cases hstop : stopReason = some "refusal"
  · subst hstop
    obtain ⟨htext, hrefusal, hfailure, hresult⟩ :=
      refusalEnvelope_shape (texts.foldr (· ++ ·) "") category
    refine ⟨_, fun toolUses => buildOutput_refusal py texts toolUses category, htext, ?_, ?_, ?_⟩
    · simp [hresult]
    · simp [hrefusal]
    · simp [hfailure]
  · obtain ⟨parsed, hparsed, hobj⟩ := parseTexts_readable h
    obtain ⟨finished, hfinished, hiff⟩ := isFinished_optStr stopReason
    refine ⟨_, fun toolUses => buildOutput_answer toolUses category hstop hparsed hfinished, ?_⟩
    have classified_failure (error : String) (hno : ¬(Finished stopReason ∧ ∃ obj, Parses py texts obj)) :
        Classified py (texts.foldr (· ++ ·) "") texts (stopReason = some "refusal") stopReason
          (failureEnvelope (texts.foldr (· ++ ·) "") error stopReason category) := by
      obtain ⟨htext, hrefusal, hfailure, hresult⟩ :=
        failureEnvelope_shape (texts.foldr (· ++ ·) "") error stopReason category
      refine ⟨htext, fun obj => ?_, by simp [hrefusal, hstop], by simp [hfailure, hstop, hno]⟩
      simpa [hresult, hstop] using fun hf hp => hno ⟨hf, obj, hp⟩
    cases parsed with
    | dict obj =>
      have hparses : Parses py texts obj := (hobj obj).mp rfl
      cases finished with
      | true =>
        obtain ⟨htext, hrefusal, hfailure, hresult⟩ :=
          resultEnvelope_shape (texts.foldr (· ++ ·) "") obj
        refine ⟨htext, fun other => ?_, by simp [hrefusal, hstop], ?_⟩
        · simp [hresult, hstop, hiff.mp rfl, ← hobj]
        · simp [hfailure, hstop, hiff.mp rfl]
          exact ⟨obj, hparses⟩
      | false => exact classified_failure _ fun h => by simpa using hiff.mpr h.1
    | _ =>
      refine classified_failure _ fun h => ?_
      obtain ⟨-, obj, hp⟩ := h
      simpa using (hobj obj).mpr hp

end

-- ---------------------------------------------------------------------------
-- A Messages reply
-- ---------------------------------------------------------------------------

namespace AnthropicMessages

def Block.text? : Block → Option String
  | .text s => some s
  | _ => none

def Block.toolInput? : Block → Option Json
  | .toolUse input => some input
  | _ => none

def Message.texts (message : Message) : List String := message.content.filterMap Block.text?

def Message.withoutTools (message : Message) : Message :=
  { message with content := message.content.filter fun block => block.toolInput?.isNone }

theorem Message.texts_withoutTools (message : Message) : message.withoutTools.texts = message.texts := by
  unfold texts withoutTools
  rw [List.filterMap_filter]
  congr 1
  funext block
  cases block <;> rfl

theorem collect_content (content : List Block) (texts toolUses : List Json) :
    content.foldl collectBlock (texts, toolUses) =
      (texts ++ (content.filterMap Block.text?).map .str, toolUses ++ content.filterMap Block.toolInput?) := by
  induction content generalizing texts toolUses with
  | nil => simp
  | cons block rest ih => cases block <;> simp [collectBlock, ih, List.filterMap_cons, Block.text?, Block.toolInput?]

theorem output_eq_buildOutput (request : ContractRequest) (message : Message) :
    (toLlmResponse py request message).map (·.output) =
      buildOutput py (message.texts.map .str) (message.content.filterMap Block.toolInput?)
        request.outputFormat.isSome (optStr message.stopReason) (refusalCategory message) := by
  have houtput : toOutput py message request.outputFormat.isSome =
      buildOutput py (message.texts.map .str) (message.content.filterMap Block.toolInput?)
        request.outputFormat.isSome (optStr message.stopReason) (refusalCategory message) := by
    simp [toOutput, collect_content, Message.texts]
  rw [toLlmResponse, ← houtput]
  cases toOutput py message request.outputFormat.isSome with
  | error e => rfl
  | ok output => cases message.usage <;> rfl

end AnthropicMessages

-- ---------------------------------------------------------------------------
-- A Converse reply
-- ---------------------------------------------------------------------------

/-- A reply as Converse sends it: the stop details are any value, if there. -/
structure ConverseReply where
  parts : List Part
  stopReason : Option String
  stopDetails : Option Json

namespace ConverseReply

def response (reply : ConverseReply) : Json :=
  .dict ([("output", .dict [("message", .dict [("role", .str "assistant"),
      ("content", .list (reply.parts.map Part.toConverse))])])] ++
    Json.entry "stopReason" (reply.stopReason.map .str) ++
    Json.entry "additionalModelResponseFields"
      (reply.stopDetails.map fun details => .dict [("stop_details", details)]))

def texts (reply : ConverseReply) : List String := reply.parts.filterMap Part.text?

def collected (reply : ConverseReply) : List String := reply.texts.filter (· ≠ "")

def outputText (reply : ConverseReply) : String := reply.texts.foldr (· ++ ·) ""

def Refuses (reply : ConverseReply) : Prop :=
  reply.stopReason = some "refusal" ∨ ∃ details ∈ reply.stopDetails, Bedrock.isRefusal details = true

def withoutTools (reply : ConverseReply) : ConverseReply :=
  { reply with parts := reply.parts.filter fun part => part.toolInput?.isNone }

variable {reply : ConverseReply}

theorem texts_withoutTools (reply : ConverseReply) : reply.withoutTools.texts = reply.texts := by
  unfold texts withoutTools
  rw [List.filterMap_filter]
  congr 1
  funext part
  cases part <;> rfl

theorem collected_text (reply : ConverseReply) : reply.collected.foldr (· ++ ·) "" = reply.outputText := by
  unfold collected outputText
  induction reply.texts with
  | nil => rfl
  | cons s rest ih => by_cases hs : s = "" <;> simpa [hs] using ih

/-- The stop reason and the category that the adapter goes on with. -/
def verdict (reply : ConverseReply) : Option String × Json :=
  match reply.stopDetails with
  | some (.dict items) =>
    if Bedrock.isRefusal (.dict items) then (some "refusal", (Json.lookup "category" items).getD .null)
    else (reply.stopReason, .null)
  | _ => (reply.stopReason, .null)

theorem verdict_refuses (reply : ConverseReply) :
    reply.verdict.1 = some "refusal" ↔ reply.Refuses := by
  unfold verdict Refuses
  cases reply.stopDetails with
  | none => simp
  | some details =>
    cases details with
    | dict items => cases h : Bedrock.isRefusal (.dict items) <;> simp [h]
    | _ => simp [Bedrock.isRefusal]

theorem verdict_stopReason (h : ¬reply.Refuses) : reply.verdict.1 = reply.stopReason := by
  unfold verdict
  unfold Refuses at h
  cases hd : reply.stopDetails with
  | none => rfl
  | some details =>
    cases details with
    | dict items =>
      have hno : ¬Bedrock.isRefusal (.dict items) = true := fun hr => h (.inr ⟨_, hd, hr⟩)
      simp [hno]
    | _ => rfl

theorem extractOutput_response (jsonOutput : Bool) :
    Bedrock.extractOutput py reply.response jsonOutput =
      buildOutput py (reply.collected.map .str) (reply.parts.filterMap Part.toolInput?) jsonOutput
        (optStr reply.verdict.1) reply.verdict.2 := by
  have hcollect := converse_collect reply.parts [] []
  simp only [List.nil_append] at hcollect
  have hstop : (reply.stopReason.map Json.str).getD .null = optStr reply.stopReason := by
    cases reply.stopReason <;> rfl
  have hrefusal : optStr (some "refusal") = .str "refusal" := rfl
  unfold Bedrock.extractOutput response verdict
  cases reply.stopDetails with
  | none => simp [Json.lookup_append, Json.lookup, hcollect, Bedrock.isRefusal, collected, texts, hstop]
  | some details =>
    cases details with
    | dict items =>
      cases h : Bedrock.isRefusal (.dict items) <;>
        simp [Json.lookup_append, Json.lookup, hcollect, h, collected, texts, hstop, hrefusal]
    | _ => simp [Json.lookup_append, Json.lookup, hcollect, Bedrock.isRefusal, collected, texts, hstop]

end ConverseReply

/-- The envelope of a JSON reply is classified by its texts and its stop reason
alone, whichever adapter reads it: it is the same without the tool calls. -/
theorem json_replies_classified (py : Stdlib) (request : ContractRequest)
    (hjson : request.outputFormat.isSome = true) :
    (∀ reply : ConverseReply, Readable py reply.collected → ∃ envelope,
      Bedrock.extractOutput py reply.response request.outputFormat.isSome = .ok envelope ∧
      Bedrock.extractOutput py reply.withoutTools.response request.outputFormat.isSome = .ok envelope ∧
      Classified py reply.outputText reply.collected reply.Refuses reply.stopReason envelope) ∧
    ∀ message : Message, Readable py message.texts → ∃ envelope,
      (toLlmResponse py request message).map (·.output) = .ok envelope ∧
      (toLlmResponse py request message.withoutTools).map (·.output) = .ok envelope ∧
      Classified py (message.texts.foldr (· ++ ·) "") message.texts (message.stopReason = some "refusal")
        message.stopReason envelope := by
  constructor
  · intro reply hreadable
    obtain ⟨envelope, hbuild, hclassified⟩ :=
      buildOutput_classified reply.verdict.1 reply.verdict.2 hreadable
    have hsame : reply.withoutTools.verdict = reply.verdict := rfl
    have hcollected : reply.withoutTools.collected = reply.collected := by
      unfold ConverseReply.collected
      rw [ConverseReply.texts_withoutTools]
    refine ⟨envelope, ?_, ?_, ?_⟩
    · rw [ConverseReply.extractOutput_response, hjson, hbuild]
    · rw [ConverseReply.extractOutput_response, hjson, hsame, hcollected, hbuild]
    · rw [ConverseReply.collected_text] at hclassified
      exact hclassified.congr reply.verdict_refuses ConverseReply.verdict_stopReason
  · intro message hreadable
    obtain ⟨envelope, hbuild, hclassified⟩ :=
      buildOutput_classified message.stopReason (refusalCategory message) hreadable
    refine ⟨envelope, ?_, ?_, hclassified⟩
    · rw [output_eq_buildOutput, hjson, hbuild]
    · rw [output_eq_buildOutput, Message.texts_withoutTools, hjson]
      exact hbuild _

def scoredWithTool : ConverseReply where
  parts := [.thinking "one point", .text scoreText, .toolUse "id" "t" (.dict [("score", .int 2)])]
  stopReason := some "end_turn"
  stopDetails := none

theorem scoredWithTool_holds_score :
    ∃ envelope, Bedrock.extractOutput scoreStdlib scoredWithTool.response true = .ok envelope ∧
      HoldsResult envelope [("score", .int 1)] := by
  have hreadable : Readable scoreStdlib scoredWithTool.collected := by
    intro s hs e he
    obtain rfl : scoreText = s := Option.some.inj hs
    cases he
  obtain ⟨envelope, hextract, -, hclassified⟩ :=
    (json_replies_classified scoreStdlib profiledRequest rfl).1 scoredWithTool hreadable
  refine ⟨envelope, hextract, (hclassified.result _).mpr ⟨?_, ⟨"end_turn", by decide, rfl⟩, scoreText, rfl, rfl⟩⟩
  simp [ConverseReply.Refuses, scoredWithTool]

end LlmWorker
