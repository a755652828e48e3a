import LlmWorker.Providers.Operations

/-!
# Learning which models reject a temperature

Any number of completions on one provider, of either adapter, that take turns
on its memory. Each pass through the temperature fallback is read off what the
completion asked for.
-/

namespace LlmWorker.Operations

open Python Transition

inductive Adapter
  | bedrock (inferenceProfiles : List (String × String))
  | messages

namespace Adapter

def Reply : Adapter → Type
  | .bedrock _ => Json
  | .messages => LlmWorker.AnthropicMessages.Message

def complete (py : Stdlib) : (a : Adapter) → ContractRequest → Code a.Reply LLMResponse
  | .bedrock inferenceProfiles => Bedrock.complete py inferenceProfiles
  | .messages => AnthropicMessages.complete py

def isRejection : Adapter → Exc → Bool
  | .bedrock _ => LlmWorker.Bedrock.isTemperatureRejection
  | .messages => LlmWorker.AnthropicMessages.isTemperatureRejection

def carriesTemperature : Adapter → Json → Bool
  | .bedrock _, kwargs => LlmWorker.Bedrock.carriesTemperature kwargs
  | .messages, kwargs => (kwargs.at? ["temperature"]).isSome

def read (py : Stdlib) : (a : Adapter) → ContractRequest → a.Reply → Result LLMResponse
  | .bedrock _ => LlmWorker.Bedrock.toLlmResponse py
  | .messages => LlmWorker.AnthropicMessages.toLlmResponse py

def Writes (py : Stdlib) : Adapter → ContractRequest → Prop
  | .bedrock _, request => ∃ outputConfig, LlmWorker.Bedrock.outputConfigOf py request = .ok outputConfig
  | .messages, _ => True

/-- An answer of a backend that has no objection but to the temperature. -/
def Obliging (a : Adapter) (py : Stdlib) (request : ContractRequest) (kwargs : Json) (answer : Result a.Reply) : Prop :=
  (∃ reply response, answer = .ok reply ∧ a.read py request reply = .ok response) ∨
    ∃ e, answer = .error e ∧ a.isRejection e = true ∧ a.carriesTemperature kwargs = true

end Adapter

-- ---------------------------------------------------------------------------
-- Passes
-- ---------------------------------------------------------------------------

/-- One call of `_complete_with_temperature_fallback`: its membership tests
with what they found, and its backend calls with their answers. -/
structure Pass (ρ : Type) where
  model : String
  omitTemperature : Bool
  tests : List (String × Bool)
  sends : List (Json × Result ρ)

def Pass.test (model : String) (learned : Bool) (pass : Pass ρ) : Pass ρ :=
  { pass with tests := pass.tests ++ [(model, learned)] }

def Pass.send (kwargs : Json) (answer : Result ρ) (pass : Pass ρ) : Pass ρ :=
  { pass with sends := pass.sends ++ [(kwargs, answer)] }

/-- The passes so far after one more operation, the last one first. -/
def note (passes : List (Pass ρ)) : Event (Answer ρ) → List (Pass ρ)
  | ⟨.enter model omitTemperature, _⟩ => ⟨model, omitTemperature, [], []⟩ :: passes
  | ⟨.isLearned model, learned⟩ => passes.modifyHead (Pass.test model learned)
  | ⟨.send kwargs, answer⟩ => passes.modifyHead (Pass.send kwargs answer)
  | _ => passes

def passes (h : History ρ) : List (Pass ρ) := h.foldl note []

theorem passes_concat (h : History ρ) (e : Event (Answer ρ)) : passes (h ++ [e]) = note (passes h) e := by
  simp [passes]

/-- A pass as the fallback makes it. -/
structure Pass.Sound (isRejection : Exc → Bool) (carries : Json → Bool) (model : String) (pass : Pass ρ) : Prop where
  model_eq : pass.model = model
  calls : pass.sends.length ≤ 2
  tested : pass.omitTemperature = false → pass.sends ≠ [] → ∃ learned, pass.tests = [(model, learned)]
  first : ∀ call ∈ pass.sends.head?,
    (carries call.1 = true ↔ pass.omitTemperature = false ∧ pass.tests = [(model, false)])
  second : ∀ first second rest, pass.sends = first :: second :: rest →
    carries first.1 = true ∧ (∃ e, first.2 = .error e ∧ isRejection e = true) ∧ carries second.1 = false

/-- What holds of a completion's log all along: its passes are sound and hold
all its calls, and it learns its own model only, after a rejection. -/
structure Learns (isRejection : Exc → Bool) (carries : Json → Bool) (model : String) (h : History ρ) : Prop where
  passes : ∀ pass ∈ passes h, pass.Sound isRejection carries model
  calls : (Operations.passes h).reverse.flatMap (·.sends) = sends h
  learned : ∀ e ∈ h, ∀ other, e.op = .learn other → other = model ∧
    ∃ kwargs e, ⟨.send kwargs, .error e⟩ ∈ h ∧ carries kwargs = true ∧ isRejection e = true

section
variable {isRejection : Exc → Bool} {carries : Json → Bool} {model : String} {h : History ρ}

theorem learns_nil : Learns isRejection carries model ([] : History ρ) :=
  ⟨by simp [passes], by simp [passes, sends], by simp⟩

theorem sends_concat (h : History ρ) (e : Event (Answer ρ)) : sends (h ++ [e]) = sends h ++ sends [e] :=
  List.filterMap_append

theorem Learns.concat (hl : Learns isRejection carries model h) (hop : ∀ other, e.op ≠ .learn other)
    (hpasses : ∀ pass ∈ note (Operations.passes h) e, pass.Sound isRejection carries model)
    (hcalls : (note (Operations.passes h) e).reverse.flatMap (·.sends) = sends h ++ sends [e]) :
    Learns isRejection carries model (h ++ [e]) := by
  refine ⟨by rwa [passes_concat], by rwa [passes_concat, sends_concat], fun e' he' other heq => ?_⟩
  rcases List.mem_append.mp he' with hold | hnew
  · obtain ⟨hother, kwargs, exc, hsent, hcarries⟩ := hl.learned e' hold other heq
    exact ⟨hother, kwargs, exc, List.mem_append_left _ hsent, hcarries⟩
  · obtain rfl := List.mem_singleton.mp hnew
    exact absurd heq (hop other)

theorem Learns.learn (hl : Learns isRejection carries model h) (hop : e.op = .learn model)
    (hsent : ⟨.send kwargs, .error exc⟩ ∈ h) (hcarries : carries kwargs = true) (hexc : isRejection exc = true) :
    Learns isRejection carries model (h ++ [e]) := by
  obtain ⟨o, r⟩ := e
  obtain rfl : o = .learn model := hop
  refine ⟨by rw [passes_concat]; exact hl.passes, ?_, fun e' he' other heq => ?_⟩
  · rw [passes_concat, sends_concat]
    simpa [note, sends] using hl.calls
  rcases List.mem_append.mp he' with hold | hnew
  · obtain ⟨hother, kwargs', exc', hsent', hcarries'⟩ := hl.learned e' hold other heq
    exact ⟨hother, kwargs', exc', List.mem_append_left _ hsent', hcarries'⟩
  · obtain rfl := List.mem_singleton.mp hnew
    exact ⟨(Op.learn.inj heq).symm, kwargs, exc, List.mem_append_left _ hsent, hcarries, hexc⟩

def Op.InPass : Op → Prop
  | .enter _ _ | .isLearned _ | .learn _ | .send _ => True
  | _ => False

theorem Learns.outside (hl : Learns isRejection carries model h) (hop : ¬e.op.InPass) :
    Learns isRejection carries model (h ++ [e]) := by
  obtain ⟨o, r⟩ := e
  cases o with
  | enter | isLearned | learn | send => exact absurd trivial hop
  | _ => exact hl.concat (by simp) hl.passes (by simpa [note, sends] using hl.calls)

theorem Learns.of_passes (hl : Learns isRejection carries model h) (hpasses : Operations.passes h = p :: rest) :
    (∀ pass ∈ rest, pass.Sound isRejection carries model) ∧
      rest.reverse.flatMap (·.sends) ++ p.sends = sends h := by
  have hall := hl.passes
  have hcalls := hl.calls
  rw [hpasses] at hall hcalls
  exact ⟨(List.forall_mem_cons.mp hall).2, by simpa using hcalls⟩

-- ---------------------------------------------------------------------------
-- The fallback
-- ---------------------------------------------------------------------------

variable {ok : Event (Answer ρ) → Prop} {build : Bool → Result Json}

theorem callWith_learns {s : History ρ × Unit} (b : Bool) (hl : Learns isRejection carries model s.1)
    (hpasses : passes s.1 = p :: rest)
    (hsound : ∀ kwargs answer, build b = .ok kwargs → (p.send kwargs answer).Sound isRejection carries model) :
    Program.Ensures (LTS.free ok).logged (fun s => Learns isRejection carries model s.1)
      (fun t r => (∃ e, build b = .error e ∧ r = .error e) ∨
        ∃ kwargs, build b = .ok kwargs ∧ t.1 = s.1 ++ [⟨.send kwargs, r⟩])
      (callWith build b).run s := by
  unfold callWith
  cases hb : build b with
  | error e => exact ⟨hl, .inl ⟨e, rfl, rfl⟩⟩
  | ok kwargs =>
    refine .ask hl fun answer t hstep => ⟨?_, .inr ⟨kwargs, rfl, hstep.1⟩⟩
    show Learns isRejection carries model t.1
    rw [hstep.1]
    obtain ⟨hrest, hcalls⟩ := hl.of_passes hpasses
    refine hl.concat (by simp) ?_ ?_
    · rw [hpasses]
      exact List.forall_mem_cons.mpr ⟨hsound kwargs answer hb, hrest⟩
    · rw [hpasses, ← hcalls]
      simp [note, Pass.send, sends]

/-- Every pass is sound, and the model is learned only after its rejection. -/
theorem fallback_learns {s : History ρ × Unit} (omitTemperature : Bool)
    (hrejection : ∀ b e, build b = .error e → isRejection e = false)
    (hcarries : ∀ b kwargs, build b = .ok kwargs → carries kwargs = b)
    (hl : Learns isRejection carries model s.1) :
    Program.Ensures (LTS.free ok).logged (fun s => Learns isRejection carries model s.1) (fun _ _ => True)
      (completeWithTemperatureFallback model (callWith build) isRejection omitTemperature).run s := by
  refine ask_ensures (.enter model omitTemperature) hl fun _ s₁ henter => ?_
  have hl₁ : Learns isRejection carries model s₁.1 := by
    rw [henter.1]
    refine hl.concat (by simp) (List.forall_mem_cons.mpr ⟨?_, hl.passes⟩) ?_
    · constructor <;> simp
    · simpa [note, sends] using hl.calls
  have hpasses₁ : passes s₁.1 = ⟨model, omitTemperature, [], []⟩ :: passes s.1 := by
    rw [henter.1, passes_concat]
    rfl
  cases omitTemperature with
  | true =>
    refine (callWith_learns false hl₁ hpasses₁ fun kwargs answer hb => ?_).mono fun _ _ _ _ => trivial
    constructor <;> simp [Pass.send, hcarries false kwargs hb]
  | false =>
    refine ask_ensures (.isLearned model) hl₁ fun (learned : Bool) s₂ htest => ?_
    have hpasses₂ : passes s₂.1 = ⟨model, false, [(model, learned)], []⟩ :: passes s.1 := by
      rw [htest.1, passes_concat, hpasses₁]
      rfl
    have hl₂ : Learns isRejection carries model s₂.1 := by
      rw [htest.1]
      refine hl₁.concat (by simp) ?_ ?_
      · rw [← passes_concat, ← htest.1, hpasses₂]
        refine List.forall_mem_cons.mpr ⟨?_, hl.passes⟩
        constructor <;> simp
      · rw [← passes_concat, ← htest.1, hpasses₂, ← (hl₁.of_passes hpasses₁).2]
        simp [sends]
    refine Program.Ensures.tryCatch (callWith_learns (!learned) hl₂ hpasses₂ fun kwargs answer hb => ?_) ?_ ?_
    · constructor <;> simp [Pass.send, hcarries (!learned) kwargs hb]
    · exact fun _ _ _ _ => trivial
    · rintro t e hlt hsent
      cases learned with
      | true => exact ⟨hlt, trivial⟩
      | false =>
        cases hexc : isRejection e with
        | false => exact ⟨hlt, trivial⟩
        | true =>
          rcases hsent with ⟨e', hb, ⟨⟩⟩ | ⟨kwargs, hb, ht⟩
          · simp [hrejection true e hb] at hexc
          · refine ask_ensures (.learn model) hlt fun _ s₃ hlearn => ?_
            have hl₃ : Learns isRejection carries model s₃.1 := by
              rw [hlearn.1]
              exact hlt.learn rfl (by simp [ht]) (hcarries true kwargs hb) hexc
            have hpasses₃ : passes s₃.1 = ⟨model, false, [(model, false)], [(kwargs, .error e)]⟩ :: passes s.1 := by
              rw [hlearn.1, passes_concat, ht, passes_concat, hpasses₂]
              rfl
            refine (callWith_learns false hl₃ hpasses₃ fun kwargs' answer hb' => ?_).mono fun _ _ _ _ => trivial
            refine ⟨rfl, by simp [Pass.send], by simp [Pass.send], by simp [Pass.send, hcarries true kwargs hb], ?_⟩
            rintro _ _ _ ⟨⟩
            exact ⟨hcarries true kwargs hb, ⟨e, rfl, hexc⟩, hcarries false kwargs' hb'⟩

end

-- ---------------------------------------------------------------------------
-- A whole completion
-- ---------------------------------------------------------------------------

section
variable {py : Stdlib} {model : String} {inferenceProfiles : List (String × String)} {request : ContractRequest}

/-- The log of a completion for `model`, all along. -/
abbrev Adapter.Keeps (a : Adapter) (model : String) (s : History a.Reply × Unit) : Prop :=
  Learns a.isRejection a.carriesTemperature model s.1

/-- A provider whose memory and backend answer anything. -/
abbrev anyone (ρ : Type) : LTS (History ρ × Unit) (Event (Answer ρ)) := (LTS.free fun _ => True).logged

theorem Learns.outside_step {s t : History ρ × Unit} (hl : Learns isRejection carries model s.1)
    (h : (anyone ρ).step s e t) (hop : ¬e.op.InPass) : Learns isRejection carries model t.1 := by
  rw [h.1]
  exact hl.outside hop

namespace Bedrock

open LlmWorker.Bedrock (buildConverseKwargs_error outputConfigOf outputConfigOf_noFallback
  carriesTemperature_kwargs buildConverseKwargs_ok)

theorem lookupProfile_keeps {s : History Json × Unit} (hl : (Adapter.bedrock inferenceProfiles).Keeps model s) :
    Program.Ensures (anyone Json) ((Adapter.bedrock inferenceProfiles).Keeps model) (fun _ _ => True)
      (lookupProfile inferenceProfiles other).run s := by
  unfold lookupProfile
  cases LlmWorker.Bedrock.profileOf inferenceProfiles other with
  | some arn => exact ⟨hl, trivial⟩
  | none =>
    exact ask_ensures (.warnUnmapped other) hl fun _ t hwarn => ⟨hl.outside_step hwarn (fun h => h), trivial⟩

theorem resolveProfile_keeps {s : History Json × Unit} (hl : (Adapter.bedrock inferenceProfiles).Keeps model s) :
    Program.Ensures (anyone Json) ((Adapter.bedrock inferenceProfiles).Keeps model) (fun _ _ => True)
      (resolveProfile inferenceProfiles other).run s := by
  refine ask_ensures (.invalidSince other) hl fun (since : Option Rat) s₁ hget => ?_
  have hl₁ : (Adapter.bedrock inferenceProfiles).Keeps model s₁ := hl.outside_step hget fun h => h
  cases since with
  | none => exact lookupProfile_keeps hl₁
  | some since =>
    refine ask_ensures .monotonic hl₁ fun (now : Rat) s₂ hread => ?_
    have hl₂ : (Adapter.bedrock inferenceProfiles).Keeps model s₂ := hl₁.outside_step hread fun h => h
    split
    · exact ⟨hl₂, trivial⟩
    · exact lookupProfile_keeps hl₂

theorem converse_keeps (hpy : py.DumpsRaises) {s : History Json × Unit}
    (hl : (Adapter.bedrock inferenceProfiles).Keeps model s) :
    Program.Ensures (anyone Json) ((Adapter.bedrock inferenceProfiles).Keeps model) (fun _ _ => True)
      (converse py request model resolved).run s := by
  refine fallback_learns _ (fun b e hb => ?_) (fun b kwargs hb => carriesTemperature_kwargs hb) hl
  cases hc : outputConfigOf py request with
  | ok outputConfig =>
    obtain ⟨kwargs, hk⟩ := buildConverseKwargs_ok hc (some resolved) b
    simp [hk] at hb
  | error e' =>
    rw [buildConverseKwargs_error hc] at hb
    cases hb
    exact (outputConfigOf_noFallback hpy hc).1

theorem complete_keeps (hpy : py.DumpsRaises) :
    Program.Ensures (anyone Json) ((Adapter.bedrock inferenceProfiles).Keeps (resolveModelRef request.modelId))
      (fun _ _ => True) (complete py inferenceProfiles request).run ([], ()) := by
  refine Program.Ensures.bindExcept (resolveProfile_keeps learns_nil) (fun s₁ resolved hl₁ _ => ?_) fun _ _ _ _ => trivial
  refine Program.Ensures.bindExcept (Q := fun _ _ => True) ?_ (fun t reply hl _ => ⟨hl, trivial⟩) fun _ _ _ _ => trivial
  refine Program.Ensures.tryCatch (converse_keeps hpy hl₁) (fun _ _ _ _ => trivial) fun t e hl _ => ?_
  split
  · exact ⟨hl, trivial⟩
  · refine ask_ensures .monotonic hl fun (now : Rat) s₂ hread => ?_
    have hl₂ := hl.outside_step hread fun h => h
    refine ask_ensures (.recordInvalid _ now) hl₂ fun _ s₃ hrecord => ?_
    exact converse_keeps hpy (hl₂.outside_step hrecord fun h => h)

end Bedrock

theorem AnthropicMessages.carries_kwargs (b : Bool) :
    Adapter.messages.carriesTemperature (LlmWorker.AnthropicMessages.buildKwargs request model b) = b := by
  cases b <;> simp [Adapter.carriesTemperature, LlmWorker.AnthropicMessages.buildKwargs, Json.lookup_append]

theorem AnthropicMessages.complete_keeps :
    Program.Ensures (anyone LlmWorker.AnthropicMessages.Message)
      (Adapter.messages.Keeps (resolveModelRef request.modelId)) (fun _ _ => True)
      (complete py request).run ([], ()) := by
  refine Program.Ensures.bindExcept (Q := fun _ _ => True) ?_ (fun t reply hl _ => ⟨hl, trivial⟩) fun _ _ _ _ => trivial
  refine fallback_learns _ (by simp) (fun b kwargs hb => ?_) learns_nil
  cases hb
  exact carries_kwargs b

theorem Adapter.complete_keeps (a : Adapter) (hpy : py.DumpsRaises) (request : ContractRequest) :
    Program.Ensures (anyone a.Reply) (a.Keeps (resolveModelRef request.modelId)) (fun _ _ => True)
      (a.complete py request).run ([], ()) := by
  cases a with
  | bedrock inferenceProfiles => exact Bedrock.complete_keeps hpy
  | messages => exact AnthropicMessages.complete_keeps

-- ---------------------------------------------------------------------------
-- Against an obliging backend
-- ---------------------------------------------------------------------------

/-- A backend that only answers obligingly. -/
abbrev obliging (a : Adapter) (py : Stdlib) (request : ContractRequest) : LTS Unit (Event (Answer a.Reply)) :=
  LTS.free fun e => ∀ kwargs answer, e = ⟨.send kwargs, answer⟩ → a.Obliging py request kwargs answer

section
variable {a : Adapter} {build : Bool → Result Json}

def Adapter.Gives (a : Adapter) (py : Stdlib) (request : ContractRequest) (r : Result a.Reply) : Prop :=
  ∃ reply response, r = .ok reply ∧ a.read py request reply = .ok response

theorem callWith_succeeds (hbuild : ∀ b, ∃ kwargs, build b = .ok kwargs ∧ a.carriesTemperature kwargs = b) (b : Bool) :
    Program.Ensures (obliging a py request) (fun _ => True)
      (fun _ r => a.Gives py request r ∨ b = true ∧ ∃ e, r = .error e ∧ a.isRejection e = true)
      (callWith build b).run () := by
  obtain ⟨kwargs, hb, hcarries⟩ := hbuild b
  unfold callWith
  rw [hb]
  refine .ask trivial fun answer _ hstep => ⟨trivial, ?_⟩
  rcases hstep kwargs answer rfl with hreply | ⟨e, he, hexc, hc⟩
  · exact .inl hreply
  · exact .inr ⟨hcarries ▸ hc, e, he, hexc⟩

theorem fallback_succeeds (model : String) (omitTemperature : Bool)
    (hbuild : ∀ b, ∃ kwargs, build b = .ok kwargs ∧ a.carriesTemperature kwargs = b) :
    Program.Ensures (obliging a py request) (fun _ => True) (fun _ r => a.Gives py request r)
      (completeWithTemperatureFallback model (callWith build) a.isRejection omitTemperature).run () := by
  have hwithout : Program.Ensures (obliging a py request) (fun _ => True) (fun _ r => a.Gives py request r)
      (callWith build false).run () :=
    (callWith_succeeds hbuild false).mono fun _ r _ h => h.resolve_right (by simp)
  refine ask_ensures (.enter model omitTemperature) trivial fun _ _ _ => ?_
  cases omitTemperature with
  | true => exact hwithout
  | false =>
    refine ask_ensures (.isLearned model) trivial fun (learned : Bool) _ _ => ?_
    refine Program.Ensures.tryCatch (callWith_succeeds hbuild (!learned)) (fun _ reply _ h => ?_) fun _ e _ h => ?_
    · exact h.resolve_right (by simp)
    · obtain ⟨hlearned, e', ⟨⟩, hexc⟩ := h.resolve_left (by simp [Adapter.Gives])
      obtain rfl : learned = false := by simpa using hlearned
      rw [if_neg (by simp [hexc])]
      exact ask_ensures (.learn model) trivial fun _ _ _ => hwithout

end

namespace Bedrock

open LlmWorker.Bedrock (buildConverseKwargs_ok carriesTemperature_kwargs)

theorem lookupProfile_returns {E : LTS Unit (Event (Answer Json))} :
    Program.Ensures E (fun _ => True) (fun _ r => ∃ resolved, r = .ok resolved)
      (lookupProfile inferenceProfiles model).run () := by
  unfold lookupProfile
  cases LlmWorker.Bedrock.profileOf inferenceProfiles model with
  | some arn => exact ⟨trivial, arn, rfl⟩
  | none => exact ask_ensures (.warnUnmapped model) trivial fun _ _ _ => ⟨trivial, model, rfl⟩

theorem resolveProfile_returns {E : LTS Unit (Event (Answer Json))} :
    Program.Ensures E (fun _ => True) (fun _ r => ∃ resolved, r = .ok resolved)
      (resolveProfile inferenceProfiles model).run () := by
  refine ask_ensures (.invalidSince model) trivial fun (since : Option Rat) _ _ => ?_
  cases since with
  | none => exact lookupProfile_returns
  | some since =>
    refine ask_ensures .monotonic trivial fun (now : Rat) _ _ => ?_
    split
    · exact ⟨trivial, model, rfl⟩
    · exact lookupProfile_returns

theorem converse_succeeds (hc : (Adapter.bedrock inferenceProfiles).Writes py request) :
    Program.Ensures (obliging (.bedrock inferenceProfiles) py request) (fun _ => True)
      (fun _ r => (Adapter.bedrock inferenceProfiles).Gives py request r)
      (converse py request model resolved).run () := by
  obtain ⟨outputConfig, hc⟩ := hc
  refine fallback_succeeds (a := .bedrock inferenceProfiles) model _ fun b => ?_
  obtain ⟨kwargs, hk⟩ := buildConverseKwargs_ok hc (some resolved) b
  exact ⟨kwargs, hk, carriesTemperature_kwargs hk⟩

theorem complete_succeeds (hc : (Adapter.bedrock inferenceProfiles).Writes py request) :
    Program.Ensures (obliging (.bedrock inferenceProfiles) py request) (fun _ => True)
      (fun _ r => ∃ response, r = .ok response) (complete py inferenceProfiles request).run () := by
  refine Program.Ensures.bindExcept resolveProfile_returns (fun _ resolved _ _ => ?_) (fun _ _ _ h => by simp at h)
  refine Program.Ensures.bindExcept (Q := fun _ r => (Adapter.bedrock inferenceProfiles).Gives py request r)
    (Program.Ensures.tryCatch (converse_succeeds hc) (fun _ _ _ h => h)
      (fun _ _ _ h => by simp [Adapter.Gives] at h)) ?_ (fun _ _ _ h => by simp [Adapter.Gives] at h)
  rintro _ reply - ⟨_, response, ⟨⟩, hread⟩
  exact ⟨trivial, response, hread⟩

end Bedrock

theorem AnthropicMessages.complete_succeeds :
    Program.Ensures (obliging .messages py request) (fun _ => True)
      (fun _ r => ∃ response, r = .ok response) (complete py request).run () := by
  refine Program.Ensures.bindExcept (fallback_succeeds (a := .messages) _ _ fun b => ⟨_, rfl, carries_kwargs b⟩) ?_
    (fun _ _ _ h => by simp [Adapter.Gives] at h)
  rintro _ reply - ⟨_, response, ⟨⟩, hread⟩
  exact ⟨trivial, response, hread⟩

theorem Adapter.complete_succeeds (a : Adapter) (h : a.Writes py request) :
    Program.Ensures (obliging a py request) (fun _ => True) (fun _ r => ∃ response, r = .ok response)
      (a.complete py request).run () := by
  cases a with
  | bedrock inferenceProfiles => exact Bedrock.complete_succeeds h
  | messages => exact AnthropicMessages.complete_succeeds

-- ---------------------------------------------------------------------------
-- How many operations a completion asks for
-- ---------------------------------------------------------------------------

theorem callWith_within (build : Bool → Result Json) (b : Bool) : (callWith build b : Code ρ ρ).run.Within 1 := by
  unfold callWith
  cases build b with
  | error e => trivial
  | ok kwargs => exact fun _ => trivial

theorem fallback_within (model : String) (build : Bool → Result Json) (isRejection : Exc → Bool)
    (omitTemperature : Bool) :
    (completeWithTemperatureFallback model (callWith build) isRejection omitTemperature : Code ρ ρ).run.Within 5 := by
  refine ask_within (.enter model omitTemperature) fun _ => ?_
  cases omitTemperature with
  | true => exact (callWith_within build false).mono (by decide)
  | false =>
    refine ask_within (n := 3) (.isLearned model) fun (learned : Bool) => ?_
    refine Program.Within.tryCatch (n := 2) (callWith_within build (!learned)) fun e => ?_
    split
    · exact .done 2 _
    · exact ask_within (.learn model) fun _ => callWith_within build false

theorem Bedrock.lookupProfile_within (inferenceProfiles : List (String × String)) (model : String) :
    (lookupProfile inferenceProfiles model).run.Within 1 := by
  unfold lookupProfile
  cases LlmWorker.Bedrock.profileOf inferenceProfiles model with
  | some arn => exact .done 1 _
  | none => exact ask_within (.warnUnmapped model) fun _ => .done 0 _

theorem Bedrock.resolveProfile_within (inferenceProfiles : List (String × String)) (model : String) :
    (resolveProfile inferenceProfiles model).run.Within 3 := by
  refine ask_within (.invalidSince model) fun (since : Option Rat) => ?_
  cases since with
  | none => exact (lookupProfile_within inferenceProfiles model).mono (by decide)
  | some since =>
    refine ask_within .monotonic fun (now : Rat) => ?_
    split
    · exact .done 1 _
    · exact lookupProfile_within inferenceProfiles model

theorem Bedrock.complete_within (py : Stdlib) (inferenceProfiles : List (String × String)) (request : ContractRequest) :
    (complete py inferenceProfiles request).run.Within 15 := by
  refine Program.Within.bindExcept (n := 12) (resolveProfile_within inferenceProfiles _) fun resolved => ?_
  refine Program.Within.bindExcept (n := 0) ?_ fun reply => .done 0 _
  refine Program.Within.tryCatch (n := 7) (fallback_within _ _ _ _) fun e => ?_
  split
  · exact .done 7 _
  · refine ask_within .monotonic fun (now : Rat) => ?_
    exact ask_within (.recordInvalid _ now) fun _ => fallback_within _ _ _ _

theorem Adapter.complete_within (a : Adapter) (py : Stdlib) (request : ContractRequest) :
    (a.complete py request).run.Within 15 := by
  cases a with
  | bedrock inferenceProfiles => exact Bedrock.complete_within py inferenceProfiles request
  | messages =>
    exact Program.Within.bindExcept (n := 10) (fallback_within _ _ _ _) fun reply => .done 10 _

-- ---------------------------------------------------------------------------
-- What the memory has learned
-- ---------------------------------------------------------------------------

theorem memory_step {mem mem' : Memory} {e : Event (Answer ρ)} (h : (memory ρ).step mem e mem') :
    (∀ model ∈ mem.omitTemperature, model ∈ mem'.omitTemperature) ∧
      ∀ model ∈ mem'.omitTemperature, model ∈ mem.omitTemperature ∨ e.op = .learn model := by
  obtain ⟨o, r⟩ := e
  cases o with
  | learn other =>
    obtain rfl : mem' = _ := h
    refine ⟨fun model hmem => mem_add.mpr (.inr hmem), fun model hmem => ?_⟩
    rcases mem_add.mp hmem with rfl | hold
    · exact .inr rfl
    · exact .inl hold
  | isLearned | invalidSince =>
    obtain ⟨-, rfl⟩ := h
    exact ⟨fun _ hmem => hmem, fun _ hmem => .inl hmem⟩
  | _ =>
    obtain rfl : mem' = _ := h
    exact ⟨fun _ hmem => hmem, fun _ hmem => .inl hmem⟩

theorem memory_permanent {es : History ρ} (h : (memory ρ).Run mem es mem') :
    ∀ model ∈ mem.omitTemperature, model ∈ mem'.omitTemperature := by
  induction h with
  | nil => exact fun _ hmem => hmem
  | snoc _ hstep ih => exact fun model hmem => (memory_step hstep).1 model (ih model hmem)

theorem memory_learned {es : History ρ} (h : (memory ρ).Run mem es mem') :
    ∀ model ∈ mem'.omitTemperature, model ∈ mem.omitTemperature ∨ ∃ e ∈ es, e.op = .learn model := by
  induction h with
  | nil => exact fun _ hmem => .inl hmem
  | snoc _ hstep ih =>
    intro model hmem
    rcases (memory_step hstep).2 model hmem with hold | hnew
    · rcases ih model hold with hstart | ⟨e, he, hop⟩
      · exact .inl hstart
      · exact .inr ⟨e, List.mem_append_left _ he, hop⟩
    · exact .inr ⟨_, List.mem_append_right _ List.mem_cons_self, hnew⟩

-- ---------------------------------------------------------------------------
-- Completions that take turns
-- ---------------------------------------------------------------------------

abbrev completions (ι : Type) [DecidableEq ι] (a : Adapter) :
    LTS (Memory × (ι → Program Op (Answer a.Reply) (Result LLMResponse))) (ι × Event (Answer a.Reply)) :=
  Program.threads (memory a.Reply) (Result LLMResponse)

/-- However the completions take turns, and whatever the backend answers: every
call belongs to a pass through the temperature fallback, every pass is sound, a model is learned only after a
call for it was rejected for its temperature, it stays learned, and a
completion whose calls are answered by an obliging backend ends with a response. -/
theorem temperature_learning {ι : Type} [DecidableEq ι] (a : Adapter) (hpy : py.DumpsRaises)
    (requests : ι → ContractRequest) {as : List (ι × Event (Answer a.Reply))} {mem : Memory}
    {code : ι → Program Op (Answer a.Reply) (Result LLMResponse)}
    (h : (completions ι a).Run (.fresh, fun i => (a.complete py (requests i)).run) as (mem, code)) :
    (∀ i, (passes (Program.eventsOf i as)).reverse.flatMap (·.sends) = sends (Program.eventsOf i as) ∧
      ∀ pass ∈ passes (Program.eventsOf i as),
        pass.Sound a.isRejection a.carriesTemperature (resolveModelRef (requests i).modelId)) ∧
    (∀ model ∈ mem.omitTemperature, ∃ i kwargs e, resolveModelRef (requests i).modelId = model ∧
      (i, ⟨.send kwargs, .error e⟩) ∈ as ∧ a.carriesTemperature kwargs = true ∧ a.isRejection e = true) ∧
    (∀ bs later, (completions ι a).Run (mem, code) bs later →
      ∀ model ∈ mem.omitTemperature, model ∈ later.1.omitTemperature) ∧
    (∀ i, a.Writes py (requests i) →
      (∀ kwargs answer, (i, ⟨.send kwargs, answer⟩) ∈ as → a.Obliging py (requests i) kwargs answer) →
      (Program.eventsOf i as).length ≤ 15 ∧
        ((∃ response, code i = .done (.ok response)) ∨
          ∃ e next, (completions ι a).step (mem, code) (i, e) next)) := by
  obtain ⟨hmem, hthread⟩ := Program.threads_run h
  have hlearns (i : ι) : Learns a.isRejection a.carriesTemperature (resolveModelRef (requests i).modelId)
      (Program.eventsOf i as) :=
    ((a.complete_keeps hpy (requests i)).run (hthread i) ((LTS.run_free fun _ _ => trivial).logged [])).holds
  refine ⟨fun i => ⟨(hlearns i).calls, (hlearns i).passes⟩, fun model hmodel => ?_, fun bs later hrun => ?_, fun i hwrites hobliging => ?_⟩
  · rcases memory_learned hmem model hmodel with hfresh | ⟨e, he, hop⟩
    · cases hfresh
    · obtain ⟨⟨i, e⟩, hie, rfl⟩ := List.mem_map.mp he
      obtain ⟨rfl, kwargs, exc, hsent, hrejected⟩ := (hlearns i).learned e (Program.mem_eventsOf.mpr hie) model hop
      exact ⟨i, kwargs, exc, rfl, Program.mem_eventsOf.mp hsent, hrejected⟩
  · exact memory_permanent (Program.threads_run hrun).1
  · refine ⟨((a.complete_within py (requests i)).run (hthread i)).1, ?_⟩
    have hok : ∀ e ∈ Program.eventsOf i as, ∀ kwargs answer, e = ⟨.send kwargs, answer⟩ →
        a.Obliging py (requests i) kwargs answer := by
      rintro _ he kwargs answer rfl
      exact hobliging kwargs answer (Program.mem_eventsOf.mp he)
    have hends := (a.complete_succeeds hwrites).run (hthread i) (LTS.run_free hok)
    rcases Program.threads_progress (fun s o => memory_answers s o (.error (valueError ""))) mem code i with
      ⟨r, hdone⟩ | hstep
    · rw [hdone] at hends
      obtain ⟨response, rfl⟩ := hends.2
      exact .inl ⟨response, hdone⟩
    · exact .inr hstep

end

-- ---------------------------------------------------------------------------
-- Two completions that learn the same model at once
-- ---------------------------------------------------------------------------

namespace AnthropicMessages

open LlmWorker.AnthropicMessages (buildKwargs)

def warmRequest : ContractRequest :=
  ⟨"m", "p", .int 512, .float (.ofInt 1), [], .null, none, none, none⟩

def coldOnly : Exc := ⟨.badRequestError, "temperature is deprecated for this model"⟩

def greeting : LlmWorker.AnthropicMessages.Message := ⟨[.text "hi"], some "end_turn", none, none⟩

def greetingResponse : LLMResponse := ⟨.dict [("output_text", .str "hi")], .int 0, .int 0⟩

def warmEvents : History LlmWorker.AnthropicMessages.Message :=
  [⟨.enter "m" false, ()⟩, ⟨.isLearned "m", false⟩, ⟨.send (buildKwargs warmRequest "m" true), .error coldOnly⟩,
    ⟨.learn "m", ()⟩, ⟨.send (buildKwargs warmRequest "m" false), .ok greeting⟩]

/-- Both test before either learns. -/
def inStep : List (Bool × Event (Answer Adapter.messages.Reply)) :=
  warmEvents.flatMap fun e => [(false, e), (true, e)]

theorem warm_run : (Program.steps Op (Answer Adapter.messages.Reply) (Result LLMResponse)).Run
    (complete sampleStdlib warmRequest).run warmEvents (.done (.ok greetingResponse)) := by
  have hrejection : LlmWorker.AnthropicMessages.isTemperatureRejection coldOnly = true := by decide +kernel
  refine .cons ⟨_, rfl, rfl⟩ (.cons ⟨_, rfl, rfl⟩ (.cons ⟨_, rfl, rfl⟩ ?_))
  simp only [Program.bind, hrejection, Bool.not_false, Bool.not_true, Bool.or_false, Bool.false_eq_true, if_false]
  exact .cons ⟨_, rfl, rfl⟩ (.cons ⟨_, rfl, rfl⟩ .nil)

theorem inStep_run : (completions Bool .messages).Run
    (.fresh, fun _ => (complete sampleStdlib warmRequest).run) inStep
    (⟨["m"], [], []⟩, fun _ => .done (.ok greetingResponse)) := by
  refine Program.run_threads ?_ fun i => ?_
  · exact .cons rfl (.cons rfl (.cons ⟨rfl, rfl⟩ (.cons ⟨rfl, rfl⟩ (.cons rfl (.cons rfl (.cons rfl (.cons rfl
      (.cons rfl (.cons rfl .nil)))))))))
  · cases i with
    | false => exact warm_run
    | true => exact warm_run

theorem inStep_learns :
    (∀ i, (passes (Program.eventsOf i inStep)).reverse.flatMap (·.sends) = sends (Program.eventsOf i inStep) ∧
      ∀ pass ∈ passes (Program.eventsOf i inStep),
        pass.Sound Adapter.messages.isRejection Adapter.messages.carriesTemperature "m") ∧
    ∀ model ∈ ["m"], ∃ i kwargs e, "m" = model ∧ (i, ⟨.send kwargs, .error e⟩) ∈ inStep ∧
      Adapter.messages.carriesTemperature kwargs = true ∧ Adapter.messages.isRejection e = true := by
  obtain ⟨hpasses, hlearned, -, -⟩ :=
    temperature_learning .messages (by simp [Stdlib.DumpsRaises, sampleStdlib]) (fun _ => warmRequest) inStep_run
  exact ⟨hpasses, hlearned⟩

end AnthropicMessages

end LlmWorker.Operations
