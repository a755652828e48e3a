import LlmWorker.Providers.Operations

/-!
# One Bedrock completion

What a completion sends, reads off the clock and records, from any memory of
the provider and whatever the backend answers.
-/

namespace LlmWorker.Operations

open Python Transition

def readings (h : History ρ) : List Rat :=
  h.filterMap fun e => match e with
    | ⟨.monotonic, now⟩ => some now
    | _ => none

def recorded (h : History ρ) : List (String × Rat) :=
  h.filterMap fun e => match e with
    | ⟨.recordInvalid model now, _⟩ => some (model, now)
    | _ => none

/-- The memory answers, and every operation is logged. -/
abbrev provider (ρ : Type) : LTS (History ρ × Memory) (Event (Answer ρ)) := (memory ρ).logged

/-- What a piece of code adds to the log. -/
structure Adds (s t : History ρ × Memory) (sent : List (Json × Result ρ)) (times : List Rat)
    (rejected : List (String × Rat)) : Prop where
  sends_eq : sends t.1 = sends s.1 ++ sent
  readings_eq : readings t.1 = readings s.1 ++ times
  recorded_eq : recorded t.1 = recorded s.1 ++ rejected

theorem Adds.refl (s : History ρ × Memory) : Adds s s [] [] [] := by constructor <;> simp

theorem Adds.trans (h : Adds s t sent times rejected) (h' : Adds t u sent' times' rejected') :
    Adds s u (sent ++ sent') (times ++ times') (rejected ++ rejected') :=
  ⟨by rw [h'.sends_eq, h.sends_eq, List.append_assoc],
    by rw [h'.readings_eq, h.readings_eq, List.append_assoc],
    by rw [h'.recorded_eq, h.recorded_eq, List.append_assoc]⟩

theorem Adds.trans_quiet (h : Adds s t sent times rejected) (h' : Adds t u [] [] []) :
    Adds s u sent times rejected := by
  simpa using h.trans h'

theorem Adds.step {e : Event (Answer ρ)} (h : (provider ρ).step s e t) :
    Adds s t (sends [e]) (readings [e]) (recorded [e]) := by
  constructor <;> simp [h.1, sends, readings, recorded]

-- ---------------------------------------------------------------------------
-- A call and its fallback
-- ---------------------------------------------------------------------------

/-- One call, if its keyword arguments can be built. -/
inductive Exchange (build : Bool → Result Json) (b : Bool) : List (Json × Result ρ) → Result ρ → Prop
  | unbuilt : build b = .error e → Exchange build b [] (.error e)
  | sent : build b = .ok kwargs → Exchange build b [(kwargs, answer)] answer

/-- One call with its temperature fallback, and whether the model is learned before and after. -/
inductive Attempt (build : Bool → Result Json) (isRejection : Exc → Bool) (omitTemperature : Bool) :
    Bool → List (Json × Result ρ) → Result ρ → Bool → Prop
  | once : Exchange build (!omitTemperature && !learned) sent r →
      (omitTemperature = false → learned = false → ∀ e, r = .error e → isRejection e = false) →
      Attempt build isRejection omitTemperature learned sent r learned
  | again : omitTemperature = false → Exchange build true first (.error e) → isRejection e = true →
      Exchange build false second r → Attempt build isRejection omitTemperature false (first ++ second) r true

section
variable {build : Bool → Result Json} {isRejection : Exc → Bool}

theorem callWith_ensures (b : Bool) (s : History ρ × Memory) :
    Program.Ensures (provider ρ) (fun _ => True)
      (fun t r => ∃ sent, Exchange build b sent r ∧ Adds s t sent [] [] ∧ t.2 = s.2)
      (callWith build b).run s := by
  unfold callWith
  cases h : build b with
  | error e => exact ⟨trivial, [], .unbuilt h, .refl s, rfl⟩
  | ok kwargs =>
    refine .ask trivial fun answer t hstep => ⟨trivial, [(kwargs, answer)], .sent h, .step hstep, hstep.2⟩

/-- The learned set only gains the model, when its temperature was rejected. -/
theorem fallback_ensures (model : String) (build : Bool → Result Json) (isRejection : Exc → Bool)
    (omitTemperature : Bool) (s : History ρ × Memory) :
    Program.Ensures (provider ρ) (fun _ => True)
      (fun t r => ∃ sent, Attempt build isRejection omitTemperature (decide (model ∈ s.2.omitTemperature)) sent r
        (decide (model ∈ t.2.omitTemperature)) ∧ Adds s t sent [] [] ∧
        t.2.profileInvalidSince = s.2.profileInvalidSince)
      (completeWithTemperatureFallback model (callWith build) isRejection omitTemperature).run s := by
  refine ask_ensures (.enter model omitTemperature) trivial fun _ s₁ henter => ?_
  have hadds₁ := Adds.step henter
  obtain ⟨-, heq₁⟩ := henter
  cases omitTemperature with
  | true =>
    refine (callWith_ensures false s₁).mono fun t r _ ⟨sent, hsent, hadds, heq⟩ => ?_
    rw [heq, heq₁]
    exact ⟨sent, .once hsent (by simp), hadds₁.trans hadds, rfl⟩
  | false =>
    refine ask_ensures (.isLearned model) trivial fun (learned : Bool) s₂ htest => ?_
    have hadds₂ := hadds₁.trans (Adds.step htest)
    obtain ⟨-, hlearned, heq₂⟩ := htest
    rw [heq₁] at hlearned heq₂
    rw [← hlearned]
    refine Program.Ensures.tryCatch (callWith_ensures (!learned) s₂) ?_ ?_
    · rintro t response - ⟨sent, hsent, hadds, heq⟩
      rw [heq, heq₂, ← hlearned]
      exact ⟨sent, .once hsent (by simp), hadds₂.trans hadds, rfl⟩
    · rintro t e - ⟨sent, hsent, hadds, heq⟩
      rw [heq₂] at heq
      have hfailed (hstays : learned = false → isRejection e = false) : ∃ sent,
          Attempt build isRejection false learned sent (.error e : Result ρ)
            (decide (model ∈ t.2.omitTemperature)) ∧ Adds s t sent [] [] ∧
            t.2.profileInvalidSince = s.2.profileInvalidSince := by
        rw [heq, ← hlearned]
        exact ⟨sent, .once hsent (fun _ hl e' he => by cases he; exact hstays hl), hadds₂.trans hadds, rfl⟩
      cases learned with
      | true => exact ⟨trivial, hfailed (by simp)⟩
      | false =>
        cases hrejection : isRejection e with
        | false => exact ⟨trivial, hfailed fun _ => hrejection⟩
        | true =>
          refine ask_ensures (.learn model) trivial fun _ s₃ hlearn => ?_
          have hadds₃ := (hadds₂.trans hadds).trans_quiet (Adds.step hlearn)
          obtain ⟨-, heq₃⟩ := hlearn
          refine (callWith_ensures false s₃).mono fun u r _ ⟨second, hsecond, hadds', heq'⟩ => ?_
          have hmem : decide (model ∈ u.2.omitTemperature) = true := by
            rw [heq', heq₃, decide_eq_true_eq]
            exact mem_add_self model t.2.omitTemperature
          rw [hmem]
          refine ⟨sent ++ second, .again rfl hsent hrejection hsecond, hadds₃.trans hadds', ?_⟩
          rw [heq', heq₃, heq]

end

-- ---------------------------------------------------------------------------
-- A whole completion
-- ---------------------------------------------------------------------------

namespace Bedrock

open LlmWorker.Bedrock (profileOf profileArnCooldownSeconds outputConfigOf buildConverseKwargs
  isTemperatureRejection isProfileArnError toLlmResponse errorCode modelIdOf buildConverseKwargs_ok
  buildConverseKwargs_error modelIdOf_kwargs isProfileArnError_iff
  outputConfigOf_noFallback)

section
variable (inferenceProfiles : List (String × String)) (mem : Memory) (model : String)

/-- The configured profile of a model, or the model itself. -/
def configured : String := (profileOf inferenceProfiles model).getD model

/-- The id on which a completion starts, and what it read off the clock to choose it. -/
inductive Starts : String → List Rat → Prop
  | unrecorded : find model mem.profileInvalidSince = none → Starts (configured inferenceProfiles model) []
  | recent : find model mem.profileInvalidSince = some since → Double.sub now since < profileArnCooldownSeconds →
      Starts model [now]
  | expired : find model mem.profileInvalidSince = some since → ¬Double.sub now since < profileArnCooldownSeconds →
      Starts (configured inferenceProfiles model) [now]

end

theorem lookupProfile_ensures (inferenceProfiles : List (String × String)) (model : String)
    (s : History Json × Memory) :
    Program.Ensures (provider Json) (fun _ => True)
      (fun t r => r = .ok (configured inferenceProfiles model) ∧ Adds s t [] [] [] ∧
        t.2.profileInvalidSince = s.2.profileInvalidSince ∧ t.2.omitTemperature = s.2.omitTemperature)
      (lookupProfile inferenceProfiles model).run s := by
  unfold lookupProfile configured
  cases profileOf inferenceProfiles model with
  | some arn => exact ⟨trivial, rfl, .refl s, rfl, rfl⟩
  | none =>
    refine ask_ensures (.warnUnmapped model) trivial fun _ t hwarn => ⟨trivial, rfl, .step hwarn, ?_⟩
    rw [hwarn.2]
    exact ⟨rfl, rfl⟩

theorem resolveProfile_ensures (inferenceProfiles : List (String × String)) (model : String)
    (s : History Json × Memory) :
    Program.Ensures (provider Json) (fun _ => True)
      (fun t r => ∃ id times, r = .ok id ∧ Starts inferenceProfiles s.2 model id times ∧ Adds s t [] times [] ∧
        t.2.profileInvalidSince = s.2.profileInvalidSince ∧ t.2.omitTemperature = s.2.omitTemperature)
      (resolveProfile inferenceProfiles model).run s := by
  refine ask_ensures (.invalidSince model) trivial fun (invalidSince : Option Rat) s₁ hget => ?_
  have hadds₁ := Adds.step hget
  obtain ⟨-, hfind, heq₁⟩ := hget
  cases invalidSince with
  | none =>
    refine (lookupProfile_ensures inferenceProfiles model s₁).mono fun t r _ ⟨hr, hadds, hpis, homit⟩ => ?_
    rw [heq₁] at hpis homit
    exact ⟨_, [], hr, .unrecorded hfind.symm, hadds₁.trans hadds, hpis, homit⟩
  | some since =>
    refine ask_ensures .monotonic trivial fun (now : Rat) s₂ hread => ?_
    have hadds₂ := hadds₁.trans (Adds.step hread)
    obtain ⟨-, heq₂⟩ := hread
    have heq : s₂.2 = s.2 := heq₂.trans heq₁
    by_cases hrecent : Double.sub now since < profileArnCooldownSeconds
    · rw [if_pos hrecent]
      exact ⟨trivial, model, [now], rfl, .recent hfind.symm hrecent, hadds₂, by rw [heq], by rw [heq]⟩
    · rw [if_neg hrecent]
      refine (lookupProfile_ensures inferenceProfiles model s₂).mono fun t r _ ⟨hr, hadds, hpis, homit⟩ => ?_
      rw [heq] at hpis homit
      exact ⟨_, [now], hr, .expired hfind.symm hrecent, hadds₂.trans_quiet hadds, hpis, homit⟩

/-- One call on an id, with its temperature fallback. -/
abbrev Attempted (py : Stdlib) (request : ContractRequest) (id : String) :
    Bool → List (Json × Result Json) → Result Json → Bool → Prop :=
  Attempt (buildConverseKwargs py request (some id)) isTemperatureRejection (omitsTemperature request)

/-- What a completion for `model` sends, reads off the clock and records, and what it gives. -/
inductive Completes (py : Stdlib) (inferenceProfiles : List (String × String)) (request : ContractRequest)
    (model : String) (mem mem' : Memory) :
    List (Json × Result Json) → List Rat → List (String × Rat) → Result LLMResponse → Prop
  | stayed : Starts inferenceProfiles mem model resolved times →
      Attempted py request resolved (decide (model ∈ mem.omitTemperature)) sent r learned →
      (∀ e, r = .error e → resolved = model ∨ isProfileArnError e = false) →
      mem'.profileInvalidSince = mem.profileInvalidSince →
      Completes py inferenceProfiles request model mem mem' sent times [] (r >>= toLlmResponse py request)
  | moved : Starts inferenceProfiles mem model resolved times →
      Attempted py request resolved (decide (model ∈ mem.omitTemperature)) first (.error e) learned →
      resolved ≠ model → isProfileArnError e = true →
      Attempted py request model learned second r learned' →
      mem'.profileInvalidSince = set model now mem.profileInvalidSince →
      Completes py inferenceProfiles request model mem mem' (first ++ second) (times ++ [now]) [(model, now)]
        (r >>= toLlmResponse py request)

theorem reply_ensures (py : Stdlib) (request : ContractRequest) {s s₁ : History Json × Memory}
    (hstart : Starts inferenceProfiles s.2 model resolved times) (hadds₁ : Adds s s₁ [] times [])
    (hpis₁ : s₁.2.profileInvalidSince = s.2.profileInvalidSince)
    (homit₁ : s₁.2.omitTemperature = s.2.omitTemperature) :
    Program.Ensures (provider Json) (fun _ => True)
      (fun t r => ∃ sent times rejected,
        Completes py inferenceProfiles request model s.2 t.2 sent times rejected (r >>= toLlmResponse py request) ∧
          Adds s t sent times rejected)
      (tryCatch (converse py request model resolved) fun exc =>
        if resolved = model ∨ isProfileArnError exc = false then
          throw exc
        else do
          let now ← monotonic
          recordInvalid model now
          converse py request model model : Code Json Json).run s₁ := by
  refine Program.Ensures.tryCatch (fallback_ensures model _ isTemperatureRejection _ s₁) ?_ ?_
  · rintro t response - ⟨sent, hattempt, hadds, hpis⟩
    rw [homit₁] at hattempt
    exact ⟨sent, times, [], .stayed hstart hattempt (by simp) (hpis.trans hpis₁), by simpa using hadds₁.trans hadds⟩
  · rintro t e - ⟨first, hattempt, hadds, hpis⟩
    rw [homit₁] at hattempt
    split
    · rename_i hstays
      refine ⟨trivial, first, times, [], .stayed hstart hattempt ?_ (hpis.trans hpis₁), by simpa using hadds₁.trans hadds⟩
      rintro e' ⟨⟩
      exact hstays
    · rename_i hmoves
      obtain ⟨hne, harn⟩ := not_or.mp hmoves
      refine ask_ensures .monotonic trivial fun (now : Rat) s₂ hread => ?_
      refine ask_ensures (.recordInvalid model now) trivial fun _ s₃ hrecord => ?_
      have hadds₃ : Adds t s₃ [] [now] [(model, now)] := (Adds.step hread).trans (Adds.step hrecord)
      obtain ⟨-, heq₂⟩ := hread
      obtain ⟨-, heq₃⟩ := hrecord
      rw [heq₂] at heq₃
      refine (fallback_ensures model _ isTemperatureRejection _ s₃).mono fun u r _ ⟨second, hsecond, hadds', hpis'⟩ => ?_
      rw [heq₃] at hsecond hpis'
      refine ⟨first ++ second, times ++ [now], [(model, now)],
        .moved hstart hattempt hne (by simpa using harn) hsecond ?_, ?_⟩
      · rw [hpis', hpis, hpis₁]
      · simpa using ((hadds₁.trans hadds).trans hadds₃).trans hadds'

theorem complete_ensures (py : Stdlib) (inferenceProfiles : List (String × String)) (request : ContractRequest)
    (s : History Json × Memory) :
    Program.Ensures (provider Json) (fun _ => True)
      (fun t outcome => ∃ sent times rejected,
        Completes py inferenceProfiles request (resolveModelRef request.modelId) s.2 t.2 sent times rejected outcome ∧
          Adds s t sent times rejected)
      (complete py inferenceProfiles request).run s := by
  refine Program.Ensures.bindExcept (resolveProfile_ensures inferenceProfiles _ s) ?_ ?_
  · rintro s₁ resolved - ⟨_, times, ⟨⟩, hstart, hadds₁, hpis₁, homit₁⟩
    refine Program.Ensures.bindExcept (reply_ensures py request hstart hadds₁ hpis₁ homit₁) ?_ ?_
    · rintro t response - h
      exact ⟨trivial, h⟩
    · rintro t e - h
      exact h
  · rintro t e - ⟨_, _, ⟨⟩, _⟩

-- ---------------------------------------------------------------------------
-- Completions one after the other
-- ---------------------------------------------------------------------------

structure Session where
  request : ContractRequest
  events : History Json
  outcome : Result LLMResponse

def Session.model (x : Session) : String := resolveModelRef x.request.modelId

def sessions (py : Stdlib) (inferenceProfiles : List (String × String)) : LTS Memory Session where
  init mem := mem = .fresh
  step mem x mem' :=
    (Program.steps Op (Answer Json) (Result LLMResponse)).Run (complete py inferenceProfiles x.request).run x.events
      (.done x.outcome) ∧ (memory Json).Run mem x.events mem'

theorem complete_session (py : Stdlib) (backend : Backend Json) (clock : Nat → Rat)
    (inferenceProfiles : List (String × String)) (request : ContractRequest) (w : World) :
    ∃ events, (sessions py inferenceProfiles).step (World.memory w)
      ⟨request, events, (LlmWorker.Bedrock.complete py backend clock inferenceProfiles request w).1⟩
      (World.memory (LlmWorker.Bedrock.complete py backend clock inferenceProfiles request w).2) := by
  rw [← complete_effect]
  obtain ⟨events, hrun, hmem⟩ :=
    Program.interp_run (serve_step backend clock) (complete py inferenceProfiles request).run w
  exact ⟨events, hrun, hmem⟩

theorem session_completes (h : (sessions py inferenceProfiles).step mem x mem') :
    Completes py inferenceProfiles x.request x.model mem mem' (sends x.events)
      (readings x.events) (recorded x.events) x.outcome := by
  obtain ⟨hrun, hmem⟩ := h
  obtain ⟨-, sent, times, rejected, hcompletes, hadds⟩ :=
    (complete_ensures py inferenceProfiles x.request ([], mem)).run hrun (hmem.logged [])
  obtain ⟨hsends, hreadings, hrecorded⟩ := hadds
  simp only [List.nil_append, sends, readings, recorded, List.filterMap_nil] at hsends hreadings hrecorded
  subst hsends hreadings hrecorded
  exact hcompletes

-- ---------------------------------------------------------------------------
-- The calls of one completion
-- ---------------------------------------------------------------------------

section
variable {py : Stdlib} {request : ContractRequest} {resolved : String}

theorem exchange_ids {sent : List (Json × Result ρ)}
    (h : Exchange (buildConverseKwargs py request (some resolved)) b sent r) :
    ∀ call ∈ sent, modelIdOf call.1 = some (.str resolved) := by
  cases h with
  | unbuilt => simp
  | sent hk => simpa using modelIdOf_kwargs hk

theorem attempt_ids (h : Attempted py request resolved learned sent r learned') :
    ∀ call ∈ sent, modelIdOf call.1 = some (.str resolved) := by
  cases h with
  | once hsent => exact exchange_ids hsent
  | again _ hfirst _ hsecond =>
    intro call hcall
    rcases List.mem_append.mp hcall with hf | hs
    · exact exchange_ids hfirst call hf
    · exact exchange_ids hsecond call hs

theorem exchange_ok {sent : List (Json × Result ρ)} (hc : outputConfigOf py request = .ok outputConfig)
    (h : Exchange (buildConverseKwargs py request (some resolved)) b sent r) :
    ∃ kwargs, sent = [(kwargs, r)] := by
  cases h with
  | unbuilt he =>
    obtain ⟨kwargs, hk⟩ := buildConverseKwargs_ok hc (some resolved) b
    simp [hk] at he
  | sent hk => exact ⟨_, rfl⟩

theorem attempt_ok (hc : outputConfigOf py request = .ok outputConfig)
    (h : Attempted py request resolved learned sent r learned') :
    (∃ kwargs, sent.getLast? = some (kwargs, r)) ∧
      (sent.length = 1 ∨ sent.length = 2 ∧ learned = false ∧ learned' = true) := by
  cases h with
  | once hsent =>
    obtain ⟨kwargs, rfl⟩ := exchange_ok hc hsent
    exact ⟨⟨kwargs, rfl⟩, .inl rfl⟩
  | again _ hfirst _ hsecond =>
    obtain ⟨kwargs, rfl⟩ := exchange_ok hc hfirst
    obtain ⟨kwargs', rfl⟩ := exchange_ok hc hsecond
    exact ⟨⟨kwargs', rfl⟩, .inr ⟨rfl, rfl, rfl⟩⟩

theorem exchange_unbuilt {sent : List (Json × Result ρ)} (hc : outputConfigOf py request = .error e)
    (h : Exchange (buildConverseKwargs py request (some resolved)) b sent r) :
    sent = [] ∧ r = .error e := by
  have hbuild := buildConverseKwargs_error hc (some resolved) b
  cases h with
  | unbuilt he =>
    rw [hbuild] at he
    obtain rfl := Except.error.inj he
    exact ⟨rfl, rfl⟩
  | sent hk => simp [hbuild] at hk

theorem attempt_unbuilt (hc : outputConfigOf py request = .error e)
    (h : Attempted py request resolved learned sent r learned') : sent = [] ∧ r = .error e := by
  cases h with
  | once hsent => exact exchange_unbuilt hc hsent
  | again _ hfirst _ hsecond =>
    obtain ⟨rfl, -⟩ := exchange_unbuilt hc hfirst
    exact exchange_unbuilt hc hsecond

theorem starts_id (h : Starts inferenceProfiles mem model resolved times) :
    resolved = model ∨ profileOf inferenceProfiles model = some resolved := by
  have hconfigured : configured inferenceProfiles model = model ∨
      profileOf inferenceProfiles model = some (configured inferenceProfiles model) := by
    unfold configured
    cases profileOf inferenceProfiles model with
    | none => exact .inl rfl
    | some arn => exact .inr rfl
  cases h with
  | recent => exact .inl rfl
  | unrecorded | expired => exact hconfigured

end

/-- One completion, end to end. Its calls are those on one id and then, exactly
when the last of these on a configured profile was not found, some on the bare
model id: three at most. The last call decides what it gives, and only the move
changes the record of rejected profiles, under its own model. -/
theorem completion_end_to_end (hpy : py.DumpsRaises) (h : (sessions py inferenceProfiles).step mem x mem') :
    ∃ resolved first second, sends x.events = first ++ second ∧
      (resolved = x.model ∨ profileOf inferenceProfiles x.model = some resolved) ∧
      (∀ call ∈ first, modelIdOf call.1 = some (.str resolved)) ∧
      (∀ call ∈ second, modelIdOf call.1 = some (.str x.model)) ∧
      (first ++ second).length ≤ 3 ∧
      (second ≠ [] ↔ resolved ≠ x.model ∧ ∃ kwargs e, first.getLast? = some (kwargs, .error e) ∧
        errorCode e = some "ResourceNotFoundException") ∧
      (∀ kwargs answer, (first ++ second).getLast? = some (kwargs, answer) →
        x.outcome = answer >>= toLlmResponse py x.request) ∧
      (first ++ second = [] → ∃ e, outputConfigOf py x.request = .error e ∧ x.outcome = .error e) ∧
      (second = [] → mem'.profileInvalidSince = mem.profileInvalidSince) ∧
      (second ≠ [] → ∃ now, mem'.profileInvalidSince = set x.model now mem.profileInvalidSince) := by
  have hcompletes := session_completes h
  generalize sends x.events = sent, readings x.events = times, recorded x.events = rejected,
    x.outcome = outcome at hcompletes
  cases hc : outputConfigOf py x.request with
  | error e =>
    cases hcompletes with
    | stayed hstart hattempt _ hpis =>
      obtain ⟨rfl, rfl⟩ := attempt_unbuilt hc hattempt
      exact ⟨_, [], [], rfl, starts_id hstart, by simp, by simp, by simp, by simp, by simp, fun _ => ⟨e, rfl, rfl⟩,
        fun _ => hpis, by simp⟩
    | moved _ hattempt _ harn =>
      obtain ⟨-, ⟨⟩⟩ := attempt_unbuilt hc hattempt
      simp [(outputConfigOf_noFallback hpy hc).2] at harn
  | ok outputConfig =>
    cases hcompletes with
    | @stayed resolved _ _ r _ hstart hattempt hstays hpis =>
      obtain ⟨⟨kwargs, hlast⟩, hlength⟩ := attempt_ok hc hattempt
      refine ⟨resolved, sent, [], (List.append_nil _).symm, starts_id hstart, attempt_ids hattempt, by simp, by simp; omega, ?_, ?_, ?_,
        fun _ => hpis, by simp⟩
      · simp only [ne_eq, not_true_eq_false, false_iff, hlast, Option.some.injEq, Prod.mk.injEq]
        rintro ⟨hne, _, e, ⟨-, rfl⟩, hcode⟩
        rcases hstays e rfl with heq | harn
        · exact hne heq
        · simp [isProfileArnError_iff.mpr hcode] at harn
      · rw [List.append_nil, hlast]
        rintro _ _ ⟨⟩
        rfl
      · intro hnil
        simp [(List.append_eq_nil_iff.mp hnil).1] at hlength
    | @moved resolved _ first e _ second r _ now hstart hattempt hne harn hattempt' hpis =>
      obtain ⟨⟨kwargs, hlast⟩, hlength⟩ := attempt_ok hc hattempt
      obtain ⟨⟨kwargs', hlast'⟩, hlength'⟩ := attempt_ok hc hattempt'
      have hsecond : second ≠ [] := by
        rintro rfl
        simp at hlength'
      refine ⟨resolved, first, second, rfl, starts_id hstart, attempt_ids hattempt, attempt_ids hattempt', ?_, ?_, ?_, ?_, ?_,
        fun _ => ⟨now, hpis⟩⟩
      · -- a learned rejection leaves a single call for the bare id
        rw [List.length_append]
        rcases hlength with hone | ⟨htwo, -, rfl⟩
        · omega
        · have hsingle : second.length = 1 := hlength'.resolve_right (by simp)
          omega
      · exact ⟨fun _ => ⟨hne, kwargs, e, hlast, isProfileArnError_iff.mp harn⟩, fun _ => hsecond⟩
      · rw [List.getLast?_append, hlast']
        rintro _ _ ⟨⟩
        rfl
      · exact fun hnil => absurd (List.append_eq_nil_iff.mp hnil).2 hsecond
      · exact fun hnil => absurd hnil hsecond

-- ---------------------------------------------------------------------------
-- Both fallbacks in one completion
-- ---------------------------------------------------------------------------

def mappedRequest : ContractRequest :=
  ⟨"m", "p", .int 512, defaultTemperature, [], .null, none, none, none⟩

def mappedCall (id : String) (includeTemperature : Bool) : Json :=
  match buildConverseKwargs sampleStdlib mappedRequest (some id) includeTemperature with
  | .ok kwargs => kwargs
  | .error _ => .null

def noTemperature : Exc :=
  ⟨.clientError (some "ValidationException") (some "temperature is deprecated"), "no temperature"⟩
def noSuchProfile : Exc := ⟨.clientError (some "ResourceNotFoundException") none, "no such profile"⟩

/-- The profile rejects the temperature and is then not found; the model itself answers. -/
def mappedSession : Session where
  request := mappedRequest
  events := [⟨.invalidSince "m", none⟩, ⟨.enter "m" false, ()⟩, ⟨.isLearned "m", false⟩,
    ⟨.send (mappedCall "arn:m" true), .error noTemperature⟩, ⟨.learn "m", ()⟩,
    ⟨.send (mappedCall "arn:m" false), .error noSuchProfile⟩, ⟨.monotonic, (7 : Rat)⟩, ⟨.recordInvalid "m" 7, ()⟩,
    ⟨.enter "m" false, ()⟩, ⟨.isLearned "m", true⟩, ⟨.send (mappedCall "m" false), .ok (.dict [])⟩]
  outcome := .ok ⟨.dict [("output_text", .str "")], .int 0, .int 0⟩

theorem mappedSession_step :
    (sessions sampleStdlib [("m", "arn:m")]).step .fresh mappedSession ⟨["m"], [("m", 7)], []⟩ := by
  have hrejection : isTemperatureRejection noTemperature = true := by decide +kernel
  constructor
  · refine .cons ⟨_, rfl, rfl⟩ (.cons ⟨_, rfl, rfl⟩ (.cons ⟨_, rfl, rfl⟩ (.cons ⟨_, rfl, rfl⟩ ?_)))
    simp only [Program.bind, hrejection, Bool.not_false, Bool.not_true, Bool.or_false, Bool.false_eq_true, if_false]
    exact .cons ⟨_, rfl, rfl⟩ (.cons ⟨_, rfl, rfl⟩ (.cons ⟨_, rfl, rfl⟩ (.cons ⟨_, rfl, rfl⟩
      (.cons ⟨_, rfl, rfl⟩ (.cons ⟨_, rfl, rfl⟩ (.cons ⟨_, rfl, rfl⟩ .nil))))))
  · exact .cons ⟨rfl, rfl⟩ (.cons rfl (.cons ⟨rfl, rfl⟩ (.cons rfl (.cons rfl (.cons rfl (.cons rfl (.cons rfl
      (.cons rfl (.cons ⟨rfl, rfl⟩ (.cons rfl .nil))))))))))

/-- Three calls, of which the last decides. -/
theorem mappedSession_end_to_end :
    ∃ resolved first second, sends mappedSession.events = first ++ second ∧
      (resolved = "m" ∨ profileOf [("m", "arn:m")] "m" = some resolved) ∧
      (∀ call ∈ first, modelIdOf call.1 = some (.str resolved)) ∧
      (∀ call ∈ second, modelIdOf call.1 = some (.str "m")) ∧
      (first ++ second).length ≤ 3 ∧
      (second ≠ [] ↔ resolved ≠ "m" ∧ ∃ kwargs e, first.getLast? = some (kwargs, .error e) ∧
        errorCode e = some "ResourceNotFoundException") ∧
      (∀ kwargs answer, (first ++ second).getLast? = some (kwargs, answer) →
        mappedSession.outcome = answer >>= toLlmResponse sampleStdlib mappedRequest) ∧
      (first ++ second = [] → ∃ e, outputConfigOf sampleStdlib mappedRequest = .error e ∧
        mappedSession.outcome = .error e) ∧
      (second = [] → [("m", (7 : Rat))] = []) ∧
      (second ≠ [] → ∃ now, [("m", (7 : Rat))] = set "m" now []) :=
  completion_end_to_end (by simp [Stdlib.DumpsRaises, sampleStdlib]) mappedSession_step

end Bedrock

end LlmWorker.Operations
