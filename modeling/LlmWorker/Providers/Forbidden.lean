import LlmWorker.Providers.Bedrock
import LlmWorker.Providers.AnthropicMessages

/-!
# Combinations no backend accepts

A temperature next to thinking or an output format, an output format next to
tools, and thinking next to a forced tool. `buildRequest` rules out the last
two, `omitsTemperature` the first; both encoders send what the request holds
and nothing else, so no call of a completion carries one, retries included.
-/

namespace LlmWorker

open Python

/-- The fields of a request that exclude one another, as a backend call carries them. -/
structure Features where
  temperature : Bool
  thinking : Bool
  outputFormat : Bool
  tools : Bool
  forcedTool : Bool
  deriving DecidableEq

def Features.Forbidden (f : Features) : Prop :=
  f.temperature ∧ (f.thinking ∨ f.outputFormat) ∨ f.outputFormat ∧ f.tools ∨
    f.thinking ∧ f.forcedTool

instance (f : Features) : Decidable f.Forbidden := by
  unfold Features.Forbidden
  infer_instance

/-- What a request asks for, with or without its temperature. -/
def ContractRequest.features (request : ContractRequest) (includeTemperature : Bool) : Features where
  temperature := includeTemperature
  thinking := request.thinking.isSome
  outputFormat := request.outputFormat.isSome
  tools := request.tools ≠ []
  forcedTool := request.tools ≠ [] && request.forcedTool.truthy

theorem ContractRequest.Compatible.not_forbidden {request : ContractRequest}
    (hc : request.Compatible) (ht : omitsTemperature request = true → b = false) :
    ¬(request.features b).Forbidden := by
  have hformat := hc.outputFormat_tools
  have hthinking := hc.thinking_forcedTool
  rintro (⟨hb, hor⟩ | ⟨hf, htools⟩ | ⟨hth, hforced⟩)
  · simp only [ContractRequest.features] at hb hor
    have homits : omitsTemperature request = true := by simpa [omitsTemperature] using hor
    simp [ht homits] at hb
  · have hnil : request.tools = [] := hformat hf
    simp [ContractRequest.features, hnil] at htools
  · have hnull : request.forcedTool = .null := hthinking hth
    simp [ContractRequest.features, hnull, Json.truthy] at hforced

namespace Bedrock

/-- The features of a Converse call. -/
def features (kwargs : Json) : Features where
  temperature := (kwargs.at? ["inferenceConfig", "temperature"]).isSome
  thinking := (kwargs.at? ["additionalModelRequestFields", "thinking"]).isSome
  outputFormat := (kwargs.at? ["outputConfig"]).isSome
  tools := (kwargs.at? ["toolConfig"]).isSome
  forcedTool := (kwargs.at? ["toolConfig", "toolChoice"]).isSome

theorem outputConfigOf_isSome (h : outputConfigOf py request = .ok outputConfig) :
    outputConfig.isSome = request.outputFormat.isSome := by
  unfold outputConfigOf at h
  split at h
  · rename_i outputFormat hof
    simp only [bind_ok, pure_ok] at h
    obtain ⟨_, -, rfl⟩ := h
    simp [hof]
  · rename_i hof
    cases h
    simp [hof]

theorem features_kwargs (h : buildConverseKwargs py request model b = .ok kwargs) :
    features kwargs = request.features b := by
  simp only [buildConverseKwargs, bind_ok, pure_ok] at h
  obtain ⟨outputConfig, ho, rfl⟩ := h
  have hsome := outputConfigOf_isSome ho
  simp [features, ContractRequest.features, Json.lookup_append, additionalFields, buildToolConfig,
    hsome, Json.at?_dictIf]
  cases b <;> by_cases ht : request.tools = [] <;> cases hf : request.forcedTool.truthy <;>
    simp [ht, Json.lookup_append]

theorem complete_calls {backend : Backend Json} (hc : request.Compatible) :
    (complete py backend clock inferenceProfiles request).CallsOnly
      fun kwargs => ¬(features kwargs).Forbidden := by
  have hconverse (model resolvedModel : String) :
      (converse py backend request model resolvedModel).CallsOnly
        fun kwargs => ¬(features kwargs).Forbidden := by
    refine .completeWithTemperatureFallback fun b hb => ?_
    cases hk : buildConverseKwargs py request (some resolvedModel) b with
    | error e => exact .of_silent fun _ => rfl
    | ok kwargs =>
      refine Effect.CallsOnly.call ?_
      rw [features_kwargs hk]
      exact hc.not_forbidden hb
  have hresolve (model : String) : (resolveProfile clock inferenceProfiles model).CallsOnly
      fun kwargs => ¬(features kwargs).Forbidden := .of_silent (resolveProfile_calls _ _ model)
  refine .bind (hresolve _) fun resolvedModel => .bind (.tryCatch (hconverse _ _) ?_) fun _ => .lift _
  intro e
  split
  · exact .raise e
  · exact .bind (.of_silent fun _ => rfl) fun _ => hconverse _ _

end Bedrock

namespace AnthropicMessages

/-- The features of a Messages call. -/
def features (kwargs : Json) : Features where
  temperature := (kwargs.at? ["temperature"]).isSome
  thinking := (kwargs.at? ["thinking"]).isSome
  outputFormat := (kwargs.at? ["output_config", "format"]).isSome
  tools := (kwargs.at? ["tools"]).isSome
  forcedTool := (kwargs.at? ["tool_choice"]).isSome

theorem features_kwargs : features (buildKwargs request model b) = request.features b := by
  simp [features, ContractRequest.features, buildKwargs, outputConfig, Json.lookup_append,
    Json.at?_dictIf]
  cases b <;> by_cases ht : request.tools = [] <;> cases hf : request.forcedTool.truthy <;>
    simp [ht]

theorem complete_calls {backend : Backend Message} (hc : request.Compatible) :
    (complete py backend request).CallsOnly fun kwargs => ¬(features kwargs).Forbidden := by
  refine .bind (.completeWithTemperatureFallback fun b hb => ?_) fun _ => .lift _
  refine Effect.CallsOnly.call ?_
  rw [features_kwargs]
  exact hc.not_forbidden hb

end AnthropicMessages

/-- No backend call made for a row that `buildRequest` accepts carries a
forbidden combination: whatever the adapter has learned, whatever the backend
answers, on the first call and on both retries. -/
theorem never_sends_forbidden
    (h : buildRequest py modelId prompt params toolConfig = .ok request)
    (bedrock : Backend Json) (messages : Backend AnthropicMessages.Message) (clock : Nat → Rat)
    (inferenceProfiles : List (String × String)) :
    ((Bedrock.complete py bedrock clock inferenceProfiles request).CallsOnly
      fun kwargs => ¬(Bedrock.features kwargs).Forbidden) ∧
    ((AnthropicMessages.complete py messages request).CallsOnly
      fun kwargs => ¬(AnthropicMessages.features kwargs).Forbidden) :=
  ⟨Bedrock.complete_calls (buildRequest_compatible h),
    AnthropicMessages.complete_calls (buildRequest_compatible h)⟩

theorem profiled_row_never_sends_forbidden :
    (Bedrock.complete sampleStdlib (fun _ _ => .ok (.dict [])) (fun _ => 0) []
      profiledRequest).CallsOnly (fun kwargs => ¬(Bedrock.features kwargs).Forbidden) ∧
    (AnthropicMessages.complete sampleStdlib (fun _ _ => .ok ⟨[], none, none, none⟩)
      profiledRequest).CallsOnly (fun kwargs => ¬(AnthropicMessages.features kwargs).Forbidden) :=
  never_sends_forbidden buildRequest_profiled _ _ _ _

end LlmWorker
