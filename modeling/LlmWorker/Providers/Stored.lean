import LlmWorker.Executor.Invoke
import LlmWorker.Providers.Bedrock
import LlmWorker.Providers.AnthropicMessages
import LlmWorker.Python.JsonDumps

/-!
# Responses as they are stored

The `response` column of a completed row is the envelope as `json.dumps` writes
it. Neither adapter keeps NaN or an infinity out of the envelope: a tool call's
input or the object that `json.loads` reads off the last text can hold one, and
then the column is not JSON.
-/

namespace LlmWorker

open Python JsonText

/-- `json.dumps` writes what the encoder writes, when it returns. -/
def Stdlib.DumpsEncodes (py : Stdlib) (F : FloatText) : Prop :=
  ∀ v text, py.dumps v = .ok text → text = String.ofList (JsonText.dumps F v)

-- ---------------------------------------------------------------------------
-- What the envelope takes from a reply
-- ---------------------------------------------------------------------------

/-- The arguments of `build_output` that a reply gives. -/
structure Pieces where
  texts : List Json
  toolUses : List Json
  stopReason : Json
  category : Json

namespace Pieces

variable (py : Stdlib) (p : Pieces) (jsonOutput : Bool)

def envelope : Result Json := buildOutput py p.texts p.toolUses jsonOutput p.stopReason p.category

/-- The object that is stored as the result of a reply to a request with an output format. -/
def Answers (obj : Json) : Prop :=
  p.stopReason ≠ .str "refusal" ∧ parseLast py p.texts = .ok obj ∧ obj.isDict = true ∧
    isFinished p.stopReason = .ok true

/-- What the envelope takes over can be written as JSON. -/
def Writable : Prop :=
  (jsonOutput = false → ∀ input ∈ p.toolUses, input.Finite) ∧
  (jsonOutput = true → (∀ obj, p.Answers py obj → obj.Finite) ∧
    ((¬∃ obj, p.Answers py obj) → p.stopReason.Finite ∧ p.category.Finite))

variable {py p jsonOutput}

theorem finite_of_not_truthy {v : Json} (h : v.truthy = false) : v.Finite := by
  cases v with
  | float x =>
    simp only [Json.truthy, decide_eq_false_iff_not, not_and, not_not] at h
    by_cases hz : x = .ofInt 0
    · exact hz ▸ .finite
    · exact h hz ▸ .negZero
  | list items =>
    obtain rfl : items = [] := by simpa [Json.truthy] using h
    exact .list (by simp)
  | dict items =>
    obtain rfl : items = [] := by simpa [Json.truthy] using h
    exact .dict (by simp)
  | _ => constructor

theorem finite_orEmpty (v : Json) : (orEmpty v).Finite ↔ v.Finite := by
  unfold orEmpty
  cases h : v.truthy with
  | true => simp
  | false =>
    simp only [Bool.false_eq_true, if_false]
    exact ⟨fun _ => finite_of_not_truthy h, fun _ => .str⟩

theorem finite_stopped (head : List (String × Json)) (hhead : ∀ kv ∈ head, kv.2.Finite)
    (stopReason category : Json) :
    (Json.dict (head ++ stopFields stopReason category)).Finite ↔ stopReason.Finite ∧ category.Finite := by
  rw [finite_dict, stopFields]
  simp only [List.mem_append]
  constructor
  · intro h
    refine ⟨(finite_orEmpty stopReason).mp (h ("stop_reason", orEmpty stopReason) (by simp)), ?_⟩
    cases ht : category.truthy with
    | true => exact h ("refusal_category", category) (by simp [ht])
    | false => exact finite_of_not_truthy ht
  · rintro ⟨hstop, hcategory⟩ kv (hkv | hkv | hkv)
    · exact hhead kv hkv
    · obtain rfl := List.mem_singleton.mp hkv
      exact (finite_orEmpty stopReason).mpr hstop
    · split at hkv
      · obtain rfl := List.mem_singleton.mp hkv
        exact hcategory
      · cases hkv

theorem writable_stopped (h : ¬∃ obj, p.Answers py obj) :
    p.Writable py true ↔ p.stopReason.Finite ∧ p.category.Finite := by
  constructor
  · intro hw
    exact (hw.2 rfl).2 h
  · intro hstop
    exact ⟨by simp, fun _ => ⟨fun obj ha => absurd ⟨obj, ha⟩ h, fun _ => hstop⟩⟩

theorem envelope_finite_iff {out : Json} (h : p.envelope py jsonOutput = .ok out) :
    out.Finite ↔ p.Writable py jsonOutput := by
  unfold envelope buildOutput at h
  obtain ⟨text, -, h⟩ := bind_ok.mp h
  cases jsonOutput with
  | false =>
    obtain rfl := pure_ok.mp h
    have hplain : p.Writable py false ↔ ∀ input ∈ p.toolUses, input.Finite := by simp [Writable]
    rw [hplain, finite_dict]
    constructor
    · intro hout input hinput
      have hne : p.toolUses ≠ [] := List.ne_nil_of_mem hinput
      have hlist := hout ("tool_uses", .list p.toolUses) (by simp [hne])
      exact finite_list.mp hlist input hinput
    · intro hinputs kv hkv
      rcases List.mem_append.mp hkv with htext | huses
      · obtain rfl := List.mem_singleton.mp htext
        exact .str
      · split at huses
        · cases huses
        · obtain rfl := List.mem_singleton.mp huses
          exact .list hinputs
  | true =>
    by_cases hrefusal : p.stopReason = .str "refusal"
    · rw [if_neg (by simp), if_pos hrefusal] at h
      obtain rfl := pure_ok.mp h
      rw [writable_stopped (by rintro ⟨obj, hne, -⟩; exact hne hrefusal)]
      exact finite_stopped _ (by simpa using .str) _ _
    · rw [if_neg (by simp), if_neg hrefusal] at h
      obtain ⟨parsed, hparsed, h⟩ := bind_ok.mp h
      have hother {obj : Json} (hobj : parseLast py p.texts = .ok obj) : obj = parsed := by
        rw [hparsed] at hobj
        exact (Except.ok.inj hobj).symm
      cases hdict : parsed.isDict with
      | false =>
        rw [if_pos (by simp [hdict])] at h
        obtain rfl := pure_ok.mp h
        rw [writable_stopped (by rintro ⟨obj, -, hobj, hd, -⟩; rw [hother hobj, hdict] at hd; cases hd)]
        exact finite_stopped _ (by simpa using ⟨.str, .str⟩) _ _
      | true =>
        rw [if_neg (by simp [hdict])] at h
        obtain ⟨finished, hfinished, h⟩ := bind_ok.mp h
        cases finished with
        | false =>
          obtain rfl := pure_ok.mp h
          rw [writable_stopped (by rintro ⟨_, -, -, -, hf⟩; rw [hfinished] at hf; cases hf)]
          exact finite_stopped _ (by simpa using ⟨.str, .str⟩) _ _
        | true =>
          obtain rfl := pure_ok.mp h
          have hanswers : p.Answers py parsed := ⟨hrefusal, hparsed, hdict, hfinished⟩
          have hresult : p.Writable py true ↔ parsed.Finite := by
            constructor
            · intro hw
              exact (hw.2 rfl).1 parsed hanswers
            · intro hfinite
              exact ⟨by simp, fun _ => ⟨fun obj ha => hother ha.2.1 ▸ hfinite, fun hno => absurd ⟨parsed, hanswers⟩ hno⟩⟩
          rw [hresult, finite_dict]
          constructor
          · intro hout
            exact finite_list.mp (hout ("tool_uses", .list [parsed]) (by simp)) parsed (by simp)
          · intro hfinite
            simpa using ⟨.str, .list (by simpa using hfinite)⟩

end Pieces

/-- What `_extract_output` passes to `build_output`. -/
def Bedrock.pieces (response : Json) : Result Pieces := do
  let outputMessage ← (← response.getD "output" (.dict [])).getD "message" (.dict [])
  let content ← outputMessage.getD "content" (.list [])
  let (texts, toolUses) ← (← content.iter).foldlM collectBlock ([], [])
  let stopReason ← response.get "stopReason"
  let stopDetails ← (← response.getD "additionalModelResponseFields" (.dict [])).get "stop_details"
  if isRefusal stopDetails then
    return ⟨texts, toolUses, .str "refusal", ← stopDetails.get "category"⟩
  else
    return ⟨texts, toolUses, stopReason, .null⟩

theorem Bedrock.extractOutput_eq (py : Stdlib) (response : Json) (jsonOutput : Bool) :
    extractOutput py response jsonOutput = pieces response >>= fun p => p.envelope py jsonOutput := by
  simp only [extractOutput, pieces, bind_assoc]
  refine bind_congr fun _ => bind_congr fun _ => bind_congr fun _ => bind_congr fun _ => bind_congr fun _ =>
    bind_congr fun _ => bind_congr fun _ => bind_congr fun stopDetails => ?_
  split
  · simp only [bind_assoc, pure_bind, Pieces.envelope]
  · simp only [pure_bind, Pieces.envelope]

/-- What `_to_llm_response` passes to `build_output`. -/
def AnthropicMessages.pieces (response : Message) : Pieces :=
  let (texts, toolUses) := response.content.foldl collectBlock ([], [])
  ⟨texts, toolUses, optStr response.stopReason, refusalCategory response⟩

-- ---------------------------------------------------------------------------
-- A provider
-- ---------------------------------------------------------------------------

/-- One of the adapters, with its backend. -/
inductive Provider
  | bedrock (backend : Backend Json) (clock : Nat → Rat) (inferenceProfiles : List (String × String))
  | messages (backend : Backend AnthropicMessages.Message)

namespace Provider

def complete (py : Stdlib) : Provider → ContractRequest → Effect LLMResponse
  | .bedrock backend clock inferenceProfiles, request =>
    Bedrock.complete py backend clock inferenceProfiles request
  | .messages backend, request => AnthropicMessages.complete py backend request

/-- The outcomes of the attempts, each made in the world it finds. -/
def answers (py : Stdlib) (provider : Provider) (worlds : ContractRequest → Nat → World)
    (request : ContractRequest) : Stream' (Result LLMResponse) :=
  fun n => (provider.complete py request (worlds request n)).1

/-- The backend answered some call with a reply of these pieces. -/
def Replied (p : Pieces) : Provider → Prop
  | .bedrock backend _ _ => ∃ calls kwargs response, backend calls kwargs = .ok response ∧
      Bedrock.pieces response = .ok p
  | .messages backend => ∃ calls kwargs response, backend calls kwargs = .ok response ∧
      AnthropicMessages.pieces response = p

end Provider

/-- Whatever `x` returns satisfies `P`. -/
def Effect.Returns (P : α → Prop) (x : Effect α) : Prop := ∀ w a, (x w).1 = .ok a → P a

namespace Effect.Returns

variable {P : α → Prop}

theorem raise (e : Exc) : (Effect.raise e : Effect α).Returns P := by
  rintro w a ⟨⟩

theorem lift (h : ∀ a, r = .ok a → P a) : (Effect.lift r).Returns P := fun _ a ha => h a ha

theorem call {backend : Backend ρ} (kwargs : Json) :
    (backend.call kwargs).Returns fun r => ∃ calls kwargs, backend calls kwargs = .ok r :=
  fun w _ h => ⟨w.calls, kwargs, h⟩

theorem bind {x : Effect β} {f : β → Effect α} {Q : β → Prop} (hx : x.Returns Q)
    (hf : ∀ b, Q b → (f b).Returns P) : (x >>= f).Returns P := by
  intro w a h
  rw [Effect.bind_apply] at h
  split at h
  · rename_i b w' hb
    exact hf b (hx w b (congrArg Prod.fst hb)) w' a h
  · cases h

theorem tryCatch {x : Effect α} {handle : Exc → Effect α} (hx : x.Returns P)
    (hh : ∀ e, (handle e).Returns P) : (Effect.tryCatch x handle).Returns P := by
  intro w a h
  unfold Effect.tryCatch at h
  split at h
  · rename_i b w' hb
    exact hx w a ((congrArg Prod.fst hb).trans h)
  · rename_i e w' _
    exact hh e w' a h

theorem completeWithTemperatureFallback {call : Bool → Effect α} {isRejection : Exc → Bool}
    (h : ∀ b, (call b).Returns P) :
    (completeWithTemperatureFallback model call isRejection omitTemperature).Returns P := by
  intro w
  unfold LlmWorker.completeWithTemperatureFallback
  split
  · exact h false w
  · refine tryCatch (h _) ?_ w
    intro e
    split
    · exact raise e
    · exact bind (Q := fun _ => True) (fun _ _ _ => trivial) fun _ _ => h false

end Effect.Returns

namespace Provider

theorem complete_returns (py : Stdlib) (provider : Provider) (request : ContractRequest) :
    (provider.complete py request).Returns fun response => ∃ p, provider.Replied p ∧
      p.envelope py request.outputFormat.isSome = .ok response.output := by
  cases provider with
  | bedrock backend clock inferenceProfiles =>
    have hconverse (model resolvedModel : String) :
        (Bedrock.converse py backend request model resolvedModel).Returns
          fun r => ∃ calls kwargs, backend calls kwargs = .ok r :=
      .completeWithTemperatureFallback fun b => .bind (Q := fun _ => True) (fun _ _ _ => trivial)
        fun kwargs _ => .call kwargs
    refine .bind (Q := fun _ => True) (fun _ _ _ => trivial) fun resolvedModel _ =>
      .bind (.tryCatch (hconverse _ _) fun e => ?_) fun response hreply => .lift fun out hout => ?_
    · split
      · exact .raise e
      · exact .bind (Q := fun _ => True) (fun _ _ _ => trivial) fun _ _ => hconverse _ _
    · obtain ⟨calls, kwargs, hcall⟩ := hreply
      simp only [Bedrock.toLlmResponse, bind_ok, Bedrock.extractOutput_eq, pure_ok] at hout
      obtain ⟨usage, -, envelope, ⟨p, hp, henvelope⟩, _, -, _, -, rfl⟩ := hout
      exact ⟨p, ⟨calls, kwargs, response, hcall, hp⟩, henvelope⟩
  | messages backend =>
    refine .bind (.completeWithTemperatureFallback fun b => .call _) fun response hreply => .lift fun out hout => ?_
    obtain ⟨calls, kwargs, hcall⟩ := hreply
    obtain ⟨envelope, henvelope, hpair⟩ := bind_ok.mp hout
    refine ⟨AnthropicMessages.pieces response, ⟨calls, kwargs, response, hcall, rfl⟩, ?_⟩
    obtain rfl := pure_ok.mp hpair
    cases response.usage <;> exact henvelope

end Provider

-- ---------------------------------------------------------------------------
-- The stored response
-- ---------------------------------------------------------------------------

theorem BatchExecutor.attempts_get (x : BatchExecutor) (left : Nat) (answers : Stream' (Result LLMResponse)) :
    ∃ n, x.attempts left answers = answers.get n := by
  induction left generalizing answers with
  | zero => exact ⟨0, rfl⟩
  | succ left ih =>
    rw [attempts]
    split
    · obtain ⟨n, hn⟩ := ih answers.tail
      exact ⟨n + 1, hn⟩
    · exact ⟨0, rfl⟩

/-- A completed row has been parsed and holds the envelope of the response of one of its attempts. -/
theorem BatchExecutor.completed_reply {x : BatchExecutor} (provider : Provider)
    (worlds : ContractRequest → Nat → World) (row : LLMInput) (abortEvent : Option Bool)
    (h : (x.invoke row abortEvent (provider.answers x.py worlds)).1 = .ok result)
    (hcomplete : result.status = .complete) :
    ∃ request n response p, x.parseRow row = .ok request ∧
      (provider.complete x.py request (worlds request n)).1 = .ok response ∧ provider.Replied p ∧
      p.envelope x.py request.outputFormat.isSome = .ok response.output ∧
      x.py.dumps response.output = .ok result.response := by
  unfold invoke at h
  split at h
  · cases h
    cases hcomplete
  · cases hrow : x.parseRow row with
    | error e =>
      simp only [hrow] at h
      cases hrowError : rowError e with
      | none =>
        simp only [hrowError] at h
        cases h
      | some text =>
        simp only [hrowError] at h
        cases h
        cases hcomplete
    | ok request =>
      rw [hrow] at h
      obtain ⟨n, hn⟩ := x.attempts_get (x.retryMaxAttempts - 1) (provider.answers x.py worlds request)
      simp only [completeWithRetry, hn, conclude] at h
      split at h
      · rename_i text htext
        cases h
        obtain ⟨response, hresponse, hdumps⟩ := bind_ok.mp htext
        obtain ⟨p, hp, henvelope⟩ := provider.complete_returns x.py request (worlds request n) response hresponse
        exact ⟨request, n, response, p, rfl, hresponse, hp, henvelope, hdumps⟩
      · cases h
        cases hcomplete

/-- The response of a completed row is a JSON text that denotes the envelope that
the adapter built, exactly when what the envelope takes over from the reply holds
neither NaN nor an infinity; otherwise it is not a JSON text. -/
theorem stored_response_json_iff {x : BatchExecutor} {F : FloatText} (hpy : x.py.DumpsEncodes F)
    (provider : Provider) (worlds : ContractRequest → Nat → World) (row : LLMInput) (abortEvent : Option Bool)
    (h : (x.invoke row abortEvent (provider.answers x.py worlds)).1 = .ok result)
    (hcomplete : result.status = .complete) :
    ∃ request n response p, x.parseRow row = .ok request ∧
      (provider.complete x.py request (worlds request n)).1 = .ok response ∧ provider.Replied p ∧
      p.envelope x.py request.outputFormat.isSome = .ok response.output ∧
      (Denotes F result.response response.output ↔ p.Writable x.py request.outputFormat.isSome) ∧
      ((∃ v, Denotes F result.response v) ↔ p.Writable x.py request.outputFormat.isSome) := by
  obtain ⟨request, n, response, p, hrow, hresponse, hp, henvelope, hdumps⟩ :=
    BatchExecutor.completed_reply provider worlds row abortEvent h hcomplete
  have hfinite := Pieces.envelope_finite_iff henvelope
  refine ⟨request, n, response, p, hrow, hresponse, hp, henvelope, ?_, ?_⟩
  · rw [hpy _ _ hdumps, denotes_dumps_iff, hfinite]
    simp
  · rw [hpy _ _ hdumps, ← hfinite]
    simp [denotes_dumps_iff]

-- ---------------------------------------------------------------------------
-- A score that is not a number
-- ---------------------------------------------------------------------------

def outputFormatText : String :=
  "\x7b\"output_format\": \x7b\"type\": \"json_schema\", \"name\": \"evaluation_result\", \"schema\": \x7b\"type\": \"object\"\x7d\x7d\x7d"

noncomputable def replyStdlib (text : String) (score : Json) : Stdlib where
  repr _ := "…"
  loads s :=
    if s = outputFormatText then .ok profiledToolConfig
    else if s = text then .ok (.dict [("score", score)])
    else .error ⟨.jsonDecodeError, "Expecting value: line 1 column 1 (char 0)"⟩
  dumps v := .ok (String.ofList (JsonText.dumps exactFloats v))

noncomputable def replyExecutor (text : String) (score : Json) : BatchExecutor where
  py := replyStdlib text score
  classifyError := AnthropicMessages.classifyError
  maxWorkers := 1
  retryMaxAttempts := 5
  maxWorkers_pos := Nat.one_pos

def formatRow : LLMInput := ⟨1, 1, "m", "p", "", outputFormatText⟩

def replying (text : String) : Provider := .messages fun _ _ => .ok ⟨[.text text], some "end_turn", none, none⟩

def idleWorld : World := ⟨[], [], [], 0, []⟩

def scoreEnvelope (text : String) (score : Json) : Json :=
  .dict [("output_text", .str text), ("tool_uses", .list [.dict [("score", score)]])]

theorem complete_replying (request : ContractRequest) {text : String} (score : Json) (htext : text ≠ outputFormatText)
    (hformat : request.outputFormat.isSome = true) :
    ((replying text).complete (replyStdlib text score) request idleWorld).1 =
      .ok ⟨scoreEnvelope text score, .int 0, .int 0⟩ := by
  simp [Provider.complete, replying, AnthropicMessages.complete, Effect.bind_apply,
    completeWithTemperatureFallback, omitsTemperature, hformat, Backend.call, Effect.lift,
    AnthropicMessages.toLlmResponse, AnthropicMessages.toOutput, AnthropicMessages.collectBlock, buildOutput,
    joinTexts, parseLast, loadsOrNone, replyStdlib, htext, AnthropicMessages.optStr, isFinished,
    finishedStopReasons, scoreEnvelope]

theorem invoke_replying {text : String} (score : Json) (htext : text ≠ outputFormatText) :
    ((replyExecutor text score).invoke formatRow (some false)
      ((replying text).answers (replyExecutor text score).py fun _ _ => idleWorld)).1 =
        .ok (formatRow.completed (String.ofList (JsonText.dumps exactFloats (scoreEnvelope text score)))) := by
  have hrow : (replyExecutor text score).parseRow formatRow =
      .ok { profiledRequest with maxOutputTokens := defaultMaxOutputTokens, thinking := none } := rfl
  obtain ⟨n, hn⟩ := (replyExecutor text score).attempts_get 4
    ((replying text).answers (replyExecutor text score).py (fun _ _ => idleWorld)
      { profiledRequest with maxOutputTokens := defaultMaxOutputTokens, thinking := none })
  have hanswer := complete_replying { profiledRequest with
    maxOutputTokens := defaultMaxOutputTokens, thinking := none } score htext rfl
  have houtcome := hn.trans hanswer
  have hattempts : (replyExecutor text score).retryMaxAttempts - 1 = 4 := rfl
  simp only [BatchExecutor.invoke, hrow, BatchExecutor.completeWithRetry, hattempts, houtcome,
    BatchExecutor.conclude]
  rfl

def nanText : String := "\x7b\"score\": NaN\x7d"

/-- The worker completes the row with a response that is not JSON. -/
theorem nan_response_is_not_json :
    ∃ result, ((replyExecutor nanText (.float .nan)).invoke formatRow (some false)
        ((replying nanText).answers (replyExecutor nanText (.float .nan)).py fun _ _ => idleWorld)).1 = .ok result ∧
      result.status = .complete ∧ ¬∃ v, Denotes exactFloats result.response v := by
  refine ⟨_, invoke_replying (.float .nan) (by decide), rfl, ?_⟩
  rintro ⟨v, hv⟩
  obtain ⟨hfinite, -⟩ := denotes_dumps_iff.mp hv
  have huses := finite_dict.mp hfinite ("tool_uses", .list [.dict [("score", .float .nan)]]) (by simp)
  have hresult := finite_list.mp huses (.dict [("score", .float .nan)]) (by simp)
  cases finite_dict.mp hresult ("score", .float .nan) (by simp)

def pointText : String := "\x7b\"score\": 1\x7d"

/-- The same row with a score is stored as JSON. -/
theorem scored_response_is_json :
    ∃ result envelope, ((replyExecutor pointText (.int 1)).invoke formatRow (some false)
        ((replying pointText).answers (replyExecutor pointText (.int 1)).py fun _ _ => idleWorld)).1 = .ok result ∧
      Denotes exactFloats result.response envelope := by
  have hpy : (replyExecutor pointText (.int 1)).py.DumpsEncodes exactFloats := by
    rintro v text ⟨⟩
    rfl
  obtain ⟨request, n, response, p, -, -, ⟨_, _, _, ⟨⟩, rfl⟩, -, hjson, -⟩ := stored_response_json_iff hpy
    (replying pointText) (fun _ _ => idleWorld) formatRow (some false) (invoke_replying (.int 1) (by decide)) rfl
  refine ⟨_, response.output, invoke_replying (.int 1) (by decide), hjson.mpr ⟨fun _ input hinput => ?_, fun _ => ⟨?_, ?_⟩⟩⟩
  · cases hinput
  · rintro obj ⟨-, hobj, -⟩
    obtain rfl : Json.dict [("score", .int 1)] = obj := Except.ok.inj hobj
    exact .dict (by simpa using .int)
  · exact fun _ => ⟨.str, .null⟩

end LlmWorker
