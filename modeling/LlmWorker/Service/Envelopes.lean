import LlmWorker.Providers.Stored
import LlmWorker.Service.Provenance

/-!
# From a row to its stored envelope

The service on top of either adapter. A completed row holds the envelope of a
reply to a call that sent the request of that very row, under its own model or a
profile of its own model, whichever worker stored it.
-/

namespace LlmWorker

open Python JsonText Transition

namespace Provider

/-- The ids that a completion may call for a model. -/
def Serves (model id : String) : Provider → Prop
  | .bedrock _ _ inferenceProfiles => id = model ∨ Bedrock.profileOf inferenceProfiles model = some id
  | .messages _ => id = model

def Sends (py : Stdlib) (request : ContractRequest) (kwargs : Json) (provider : Provider) : Prop :=
  ∃ id includeTemperature, provider.Serves (resolveModelRef request.modelId) id ∧
    match provider with
    | .bedrock .. => Bedrock.buildConverseKwargs py request (some id) includeTemperature = .ok kwargs
    | .messages _ => kwargs = AnthropicMessages.buildKwargs request id includeTemperature

/-- The backend answers the call with a reply of these pieces. -/
def RepliesTo (kwargs : Json) (p : Pieces) : Provider → Prop
  | .bedrock backend _ _ => ∃ calls response, backend calls kwargs = .ok response ∧ Bedrock.pieces response = .ok p
  | .messages backend => ∃ calls response, backend calls kwargs = .ok response ∧
      AnthropicMessages.pieces response = p

theorem call_returns (backend : Backend ρ) (kwargs : Json) :
    (backend.call kwargs).Returns fun r => ∃ calls, backend calls kwargs = .ok r := fun w _ h => ⟨w.calls, h⟩

theorem lookupProfile_serves (inferenceProfiles : List (String × String)) (model : String) :
    (Bedrock.lookupProfile inferenceProfiles model).Returns fun id =>
      id = model ∨ Bedrock.profileOf inferenceProfiles model = some id := by
  intro w id h
  unfold Bedrock.lookupProfile at h
  cases hp : Bedrock.profileOf inferenceProfiles model with
  | some arn =>
    rw [hp] at h
    cases h
    exact .inr rfl
  | none =>
    rw [hp] at h
    cases h
    exact .inl rfl

theorem resolveProfile_serves (clock : Nat → Rat) (inferenceProfiles : List (String × String)) (model : String) :
    (Bedrock.resolveProfile clock inferenceProfiles model).Returns fun id =>
      id = model ∨ Bedrock.profileOf inferenceProfiles model = some id := by
  intro w
  unfold Bedrock.resolveProfile
  cases Bedrock.invalidSince w model with
  | none => exact lookupProfile_serves inferenceProfiles model w
  | some since =>
    refine Effect.Returns.bind (Q := fun _ => True) (fun _ _ _ => trivial) (fun now _ => ?_) w
    split
    · rintro _ _ ⟨⟩
      exact .inl rfl
    · exact lookupProfile_serves inferenceProfiles model

theorem complete_sends (py : Stdlib) (provider : Provider) (request : ContractRequest) :
    (provider.complete py request).Returns fun response => ∃ kwargs p, provider.Sends py request kwargs ∧
      provider.RepliesTo kwargs p ∧ p.envelope py request.outputFormat.isSome = .ok response.output := by
  cases provider with
  | bedrock backend clock inferenceProfiles =>
    have hconverse {id : String} (hid : Serves (resolveModelRef request.modelId) id
        (.bedrock backend clock inferenceProfiles)) :
        (Bedrock.converse py backend request (resolveModelRef request.modelId) id).Returns fun r => ∃ kwargs calls,
          Sends py request kwargs (.bedrock backend clock inferenceProfiles) ∧ backend calls kwargs = .ok r := by
      refine .completeWithTemperatureFallback fun b => .bind (Q := fun kwargs =>
        Bedrock.buildConverseKwargs py request (some id) b = .ok kwargs) (.lift fun _ h => h) fun kwargs hk => ?_
      intro w r hr
      obtain ⟨calls, hcall⟩ := call_returns backend kwargs w r hr
      exact ⟨kwargs, calls, ⟨id, b, hid, hk⟩, hcall⟩
    refine .bind (resolveProfile_serves clock inferenceProfiles _) fun id hid =>
      .bind (.tryCatch (hconverse hid) fun e => ?_) fun response hreply => .lift fun out hout => ?_
    · split
      · exact .raise e
      · exact .bind (Q := fun _ => True) (fun _ _ _ => trivial) fun _ _ => hconverse (.inl rfl)
    · obtain ⟨kwargs, calls, hsends, hcall⟩ := hreply
      simp only [Bedrock.toLlmResponse, bind_ok, Bedrock.extractOutput_eq, pure_ok] at hout
      obtain ⟨usage, -, envelope, ⟨p, hp, henvelope⟩, _, -, _, -, rfl⟩ := hout
      exact ⟨kwargs, p, hsends, ⟨calls, response, hcall, hp⟩, henvelope⟩
  | messages backend =>
    refine .bind (Q := fun r => ∃ kwargs calls, Sends py request kwargs (.messages backend) ∧
      backend calls kwargs = .ok r) (.completeWithTemperatureFallback fun b => ?_) fun response hreply =>
        .lift fun out hout => ?_
    · intro w r hr
      obtain ⟨calls, hcall⟩ := call_returns backend _ w r hr
      exact ⟨_, calls, ⟨_, b, rfl, rfl⟩, hcall⟩
    · obtain ⟨kwargs, calls, hsends, hcall⟩ := hreply
      obtain ⟨envelope, henvelope, hpair⟩ := bind_ok.mp hout
      refine ⟨kwargs, AnthropicMessages.pieces response, hsends, ⟨calls, response, hcall, rfl⟩, ?_⟩
      obtain rfl := pure_ok.mp hpair
      cases response.usage <;> exact henvelope

def mayAnswer (py : Stdlib) (provider : Provider) : BatchExecutor.MayAnswer :=
  fun request outcome => ∃ world, (provider.complete py request world).1 = outcome

end Provider

def helloEnvelope : Json := .dict [("output_text", .str "hello")]

def helloResponse : LLMResponse := ⟨helloEnvelope, .int 0, .int 0⟩

def helloStdlib : Stdlib where
  repr _ := "…"
  loads _ := .error ⟨.jsonDecodeError, "Expecting value: line 1 column 1 (char 0)"⟩
  dumps v := if v = helloEnvelope then .ok "\x7b\"output_text\": \"hello\"\x7d" else .error (valueError "")

def helloConfig : ServiceConfig :=
  sampleConfig ⟨helloStdlib, AnthropicMessages.classifyError, 1, 5, Nat.one_pos⟩ 1 Nat.one_pos

def hello : Provider := .messages fun _ _ => .ok ⟨[.text "hello"], some "end_turn", none, none⟩

theorem hello_answers (h : request.outputFormat.isSome = false) :
    hello.mayAnswer helloStdlib request (.ok helloResponse) := by
  refine ⟨idleWorld, ?_⟩
  cases homit : omitsTemperature request <;>
    simp [hello, Provider.complete, AnthropicMessages.complete, Effect.bind_apply, completeWithTemperatureFallback,
      homit, Effect.tryCatch, Backend.call, Effect.lift, AnthropicMessages.toLlmResponse, AnthropicMessages.toOutput,
      AnthropicMessages.collectBlock, h, buildOutput, joinTexts, helloResponse, helloEnvelope]

theorem helloStdlib_dumps : helloStdlib.DumpsEncodes exactFloats := by
  intro v text h
  simp only [helloStdlib] at h
  split at h
  · rename_i hv
    cases h
    subst hv
    decide +kernel
  · cases h

end LlmWorker
