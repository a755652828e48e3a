import LlmWorker.Providers.Bedrock

/-!
# What a provider has learned never shows

Against a backend that answers a call by its keyword arguments alone, a
completion gives what the same completion gives on a new provider, whatever
the provider has learned before and whatever its clock reads.
-/

namespace LlmWorker.Bedrock

open Python

def fresh : World := ⟨[], [], [], 0, []⟩

def outcomes (py : Stdlib) (backend : Backend Json) (clock : Nat → Rat)
    (inferenceProfiles : List (String × String)) : List ContractRequest → World → List (Result LLMResponse)
  | [], _ => []
  | request :: rest, w =>
    let (outcome, w') := complete py backend clock inferenceProfiles request w
    outcome :: outcomes py backend clock inferenceProfiles rest w'

/-- The backend is a function of the call: the ids in `gone` are never found,
the others always are, and of these the ones in `rejects` reject a temperature. -/
structure Steady (answer : Json → Result Json) (inferenceProfiles : List (String × String))
    (gone rejects : String → Prop) : Prop where
  missing : ∀ kwargs id, modelIdOf kwargs = some (.str id) → gone id →
    ∃ e, answer kwargs = .error e ∧ errorCode e = some "ResourceNotFoundException"
  found : ∀ kwargs id e, modelIdOf kwargs = some (.str id) → ¬gone id → answer kwargs = .error e →
    errorCode e ≠ some "ResourceNotFoundException"
  rejection : ∀ kwargs id, modelIdOf kwargs = some (.str id) → ¬gone id →
    ((∃ e, answer kwargs = .error e ∧ isTemperatureRejection e = true) ↔
      carriesTemperature kwargs = true ∧ rejects id)
  profile : ∀ model arn, profileOf inferenceProfiles model = some arn → ¬gone arn →
    (rejects arn ↔ rejects model)

section
variable {py : Stdlib} {answer : Json → Result Json} {clock : Nat → Rat}
  {inferenceProfiles : List (String × String)} {gone rejects : String → Prop}

open Classical in
/-- The id that ends up answering for a model. -/
noncomputable def settled (inferenceProfiles : List (String × String)) (gone : String → Prop)
    (model : String) : String :=
  match profileOf inferenceProfiles model with
  | some arn => if gone arn then model else arn
  | none => model

open Classical in
/-- What a completion gives without any memory. -/
noncomputable def steadyReply (py : Stdlib) (answer : Json → Result Json)
    (inferenceProfiles : List (String × String)) (gone rejects : String → Prop)
    (request : ContractRequest) : Result Json := do
  let model := resolveModelRef request.modelId
  let id := settled inferenceProfiles gone model
  let kwargs ← buildConverseKwargs py request (some id)
    (!omitsTemperature request && decide (gone id ∨ ¬rejects model))
  answer kwargs

/-- A profile that is configured for a model and never found. -/
def GoneProfile (inferenceProfiles : List (String × String)) (gone : String → Prop)
    (model arn : String) : Prop :=
  profileOf inferenceProfiles model = some arn ∧ arn ≠ model ∧ gone arn

structure Learned (inferenceProfiles : List (String × String)) (gone rejects : String → Prop)
    (w : World) : Prop where
  omits : ∀ model ∈ w.omitTemperature, rejects model ∧ ¬gone (settled inferenceProfiles gone model)
  invalid : ∀ model since, invalidSince w model = some since →
    ∃ arn, GoneProfile inferenceProfiles gone model arn

theorem learned_fresh : Learned inferenceProfiles gone rejects fresh :=
  ⟨by simp [fresh], by simp [fresh, invalidSince]⟩

/-- The outcome of a call and the provider's memory depend on nothing that a call leaves behind. -/
theorem Learned.of_calls (h : Learned inferenceProfiles gone rejects w)
    (homit : w'.omitTemperature = w.omitTemperature)
    (hinvalid : w'.profileInvalidSince = w.profileInvalidSince) :
    Learned inferenceProfiles gone rejects w' := by
  obtain ⟨ho, hi⟩ := h
  refine ⟨by rwa [homit], ?_⟩
  unfold invalidSince at hi ⊢
  rwa [hinvalid]

-- ---------------------------------------------------------------------------
-- A call and its fallback
-- ---------------------------------------------------------------------------

def reply (py : Stdlib) (answer : Json → Result Json) (request : ContractRequest) (id : String) (b : Bool) :
    Result Json := do
  let kwargs ← buildConverseKwargs py request (some id) b
  answer kwargs

theorem call_reply (py : Stdlib) (answer : Json → Result Json) (request : ContractRequest)
    (id : String) (b : Bool) (w : World) :
    ∃ w', (do
        let kwargs ← Effect.lift (buildConverseKwargs py request (some id) b)
        Backend.call (fun _ => answer) kwargs : Effect Json) w = (reply py answer request id b, w') ∧
      w'.omitTemperature = w.omitTemperature ∧ w'.profileInvalidSince = w.profileInvalidSince := by
  show ∃ w', Effect.bind _ _ w = _ ∧ _
  unfold Effect.bind Effect.lift reply
  cases buildConverseKwargs py request (some id) b with
  | error e => exact ⟨w, rfl, rfl, rfl⟩
  | ok kwargs => exact ⟨_, rfl, rfl, rfl⟩

theorem converse_reply (py : Stdlib) (answer : Json → Result Json) (request : ContractRequest)
    (model id : String) (w : World) :
    ∃ w', converse py (fun _ => answer) request model id w =
        (if omitsTemperature request = true ∨ model ∈ w.omitTemperature then
          reply py answer request id false
        else match reply py answer request id true with
          | .ok response => .ok response
          | .error e => if isTemperatureRejection e then reply py answer request id false else .error e, w') ∧
      w'.profileInvalidSince = w.profileInvalidSince ∧
      ∀ other ∈ w'.omitTemperature, other ∈ w.omitTemperature ∨ other = model ∧
        ∃ e, reply py answer request id true = .error e ∧ isTemperatureRejection e = true := by
  unfold converse completeWithTemperatureFallback
  by_cases homits : omitsTemperature request = true
  · obtain ⟨w', hcall, ho, hi⟩ := call_reply py answer request id false w
    exact ⟨w', by simp [homits, hcall], hi, fun other h => .inl (ho ▸ h)⟩
  by_cases hmem : model ∈ w.omitTemperature
  · obtain ⟨w', hcall, ho, hi⟩ := call_reply py answer request id false w
    refine ⟨w', ?_, hi, fun other h => .inl (ho ▸ h)⟩
    cases hr : reply py answer request id false <;>
      simp [homits, hmem, Effect.tryCatch, hcall, hr, Effect.raise]
  · obtain ⟨w', hcall, ho, hi⟩ := call_reply py answer request id true w
    cases hr : reply py answer request id true with
    | ok response =>
      refine ⟨w', ?_, hi, fun other h => .inl (ho ▸ h)⟩
      simp [homits, hmem, Effect.tryCatch, hcall, hr]
    | error e =>
      by_cases hrejection : isTemperatureRejection e = true
      · obtain ⟨l, hl⟩ : ∃ l, learnOmitTemperature model w' = (.ok (), l) := ⟨_, rfl⟩
        obtain ⟨w'', hcall', ho', hi'⟩ := call_reply py answer request id false l
        have hlearn : l.profileInvalidSince = w'.profileInvalidSince ∧
            ∀ other ∈ l.omitTemperature, other ∈ w'.omitTemperature ∨ other = model := by
          cases hl
          refine ⟨rfl, fun other h => ?_⟩
          simp only at h
          split at h
          · exact .inl h
          · exact (List.mem_cons.mp h).symm
        refine ⟨w'', ?_, hi'.trans (hlearn.1.trans hi), fun other h => ?_⟩
        · simp [homits, hmem, Effect.tryCatch, hcall, hr, hrejection, Effect.bind, hl, hcall']
        · rcases hlearn.2 other (ho' ▸ h) with hold | hnew
          · exact .inl (ho ▸ hold)
          · exact .inr ⟨hnew, e, rfl, hrejection⟩
      · refine ⟨w', ?_, hi, fun other h => .inl (ho ▸ h)⟩
        simp [homits, hmem, Effect.tryCatch, hcall, hr, hrejection, Effect.raise]

-- ---------------------------------------------------------------------------
-- Against a steady backend
-- ---------------------------------------------------------------------------

variable {request : ContractRequest} {id : String}

theorem reply_error (h : outputConfigOf py request = .error e) (id : String) (b : Bool) :
    reply py answer request id b = .error e := by
  simp [reply, buildConverseKwargs_error h]

theorem reply_gone (hs : Steady answer inferenceProfiles gone rejects)
    (h : outputConfigOf py request = .ok outputConfig) (hgone : gone id) (b : Bool) :
    ∃ e, reply py answer request id b = .error e ∧ errorCode e = some "ResourceNotFoundException" := by
  obtain ⟨kwargs, hk⟩ := buildConverseKwargs_ok h (some id) b
  obtain ⟨e, he, hcode⟩ := hs.missing kwargs id (modelIdOf_kwargs hk) hgone
  exact ⟨e, by simp [reply, hk, he], hcode⟩

theorem reply_found (hs : Steady answer inferenceProfiles gone rejects)
    (h : outputConfigOf py request = .ok outputConfig) (hfound : ¬gone id) (b : Bool) :
    (∀ e, reply py answer request id b = .error e → isProfileArnError e = false) ∧
      ((∃ e, reply py answer request id b = .error e ∧ isTemperatureRejection e = true) ↔
        b = true ∧ rejects id) := by
  obtain ⟨kwargs, hk⟩ := buildConverseKwargs_ok h (some id) b
  have hreply : reply py answer request id b = answer kwargs := by simp [reply, hk]
  rw [hreply]
  refine ⟨fun e he => ?_, ?_⟩
  · exact not_profileArnError_of_code (hs.found kwargs id e (modelIdOf_kwargs hk) hfound he)
  · rw [hs.rejection kwargs id (modelIdOf_kwargs hk) hfound, carriesTemperature_kwargs hk]

theorem rejects_settled (hs : Steady answer inferenceProfiles gone rejects) (model : String) :
    rejects (settled inferenceProfiles gone model) ↔ rejects model := by
  unfold settled
  cases hp : profileOf inferenceProfiles model with
  | none => exact Iff.rfl
  | some arn =>
    by_cases hg : gone arn
    · simp [hg]
    · simpa [hg] using hs.profile model arn hp hg

open Classical in
theorem settled_reply (hs : Steady answer inferenceProfiles gone rejects) (hpy : py.DumpsRaises)
    (hw : Learned inferenceProfiles gone rejects w) (hid : settled inferenceProfiles gone model = id) :
    (if omitsTemperature request = true ∨ model ∈ w.omitTemperature then reply py answer request id false
      else match reply py answer request id true with
        | .ok response => .ok response
        | .error e => if isTemperatureRejection e then reply py answer request id false else .error e) =
      reply py answer request id (!omitsTemperature request && decide (gone id ∨ ¬rejects model)) := by
  have hrejects : rejects id ↔ rejects model := hid ▸ rejects_settled hs model
  cases hc : outputConfigOf py request with
  | error e =>
    have hno := (outputConfigOf_noFallback hpy hc).1
    simp [reply_error hc, hno]
  | ok outputConfig =>
    by_cases homits : omitsTemperature request = true
    · simp [homits]
    by_cases hmem : model ∈ w.omitTemperature
    · obtain ⟨hr, hfound⟩ := hw.omits model hmem
      rw [hid] at hfound
      simp [hmem, hr, hfound]
    by_cases hgone : gone id
    · obtain ⟨e, he, hcode⟩ := reply_gone hs hc hgone true
      have hno : isTemperatureRejection e = false := not_rejection_of_code (by simp [hcode])
      simp [homits, hmem, hgone, he, hno]
    · obtain ⟨-, hiff⟩ := reply_found hs hc hgone true
      by_cases hr : rejects model
      · obtain ⟨e, he, hrejection⟩ := hiff.mpr ⟨rfl, hrejects.mpr hr⟩
        simp [homits, hmem, hgone, hr, he, hrejection]
      · cases hreply : reply py answer request id true with
        | ok response => simp [homits, hmem, hr, hreply]
        | error e =>
          have hno : ¬isTemperatureRejection e = true :=
            fun hrejection => hr (hrejects.mp (hiff.mp ⟨e, hreply, hrejection⟩).2)
          simp [homits, hmem, hr, hreply, hno]

theorem learned_converse (hs : Steady answer inferenceProfiles gone rejects) (hpy : py.DumpsRaises)
    (hw : Learned inferenceProfiles gone rejects w)
    (hid : gone id ∨ settled inferenceProfiles gone model = id)
    (hi : w'.profileInvalidSince = w.profileInvalidSince)
    (ho : ∀ other ∈ w'.omitTemperature, other ∈ w.omitTemperature ∨ other = model ∧
      ∃ e, reply py answer request id true = .error e ∧ isTemperatureRejection e = true) :
    Learned inferenceProfiles gone rejects w' := by
  refine ⟨fun other h => ?_, ?_⟩
  · rcases ho other h with hold | ⟨rfl, e, he, hrejection⟩
    · exact hw.omits other hold
    cases hc : outputConfigOf py request with
    | error e' =>
      obtain rfl : e' = e := by simpa [reply_error hc] using he
      simp [(outputConfigOf_noFallback hpy hc).1] at hrejection
    | ok outputConfig =>
      have hfound : ¬gone id := by
        intro hgone
        obtain ⟨e', he', hcode⟩ := reply_gone hs hc hgone true
        obtain rfl : e' = e := by simpa [he'] using he
        simp [not_rejection_of_code (e := e') (by simp [hcode])] at hrejection
      have hsettled : settled inferenceProfiles gone other = id := hid.resolve_left hfound
      obtain ⟨-, hiff⟩ := reply_found hs hc hfound true
      refine ⟨(rejects_settled hs other).mp ?_, hsettled ▸ hfound⟩
      rw [hsettled]
      exact (hiff.mp ⟨e, he, hrejection⟩).2
  · have hinvalid := hw.invalid
    unfold invalidSince at hinvalid ⊢
    rwa [hi]

-- ---------------------------------------------------------------------------
-- A whole completion
-- ---------------------------------------------------------------------------

theorem lookupProfile_eq (inferenceProfiles : List (String × String)) (model : String) (w : World) :
    ∃ w', lookupProfile inferenceProfiles model w =
        (.ok ((profileOf inferenceProfiles model).getD model), w') ∧
      w'.omitTemperature = w.omitTemperature ∧ w'.profileInvalidSince = w.profileInvalidSince := by
  unfold lookupProfile
  cases profileOf inferenceProfiles model with
  | none => exact ⟨_, rfl, rfl, rfl⟩
  | some arn => exact ⟨w, rfl, rfl, rfl⟩

theorem settled_of_gone (h : GoneProfile inferenceProfiles gone model arn) :
    settled inferenceProfiles gone model = model := by
  obtain ⟨hp, -, hg⟩ := h
  simp [settled, hp, hg]

theorem settled_or_gone (model : String) :
    settled inferenceProfiles gone model = (profileOf inferenceProfiles model).getD model ∨
      GoneProfile inferenceProfiles gone model ((profileOf inferenceProfiles model).getD model) := by
  unfold settled GoneProfile
  cases profileOf inferenceProfiles model with
  | none => exact .inl rfl
  | some arn =>
    by_cases hg : gone arn
    · by_cases heq : arn = model
      · exact .inl (by simp [heq])
      · exact .inr ⟨rfl, heq, hg⟩
    · exact .inl (by simp [hg])

/-- A completion starts on the id that answers, or on a profile that is gone. -/
theorem resolveProfile_learned (clock : Nat → Rat) (hw : Learned inferenceProfiles gone rejects w)
    (model : String) :
    ∃ id w', resolveProfile clock inferenceProfiles model w = (.ok id, w') ∧
      Learned inferenceProfiles gone rejects w' ∧
      (settled inferenceProfiles gone model = id ∨ GoneProfile inferenceProfiles gone model id) := by
  have lookup {v} (hv : Learned inferenceProfiles gone rejects v) :
      ∃ id w', lookupProfile inferenceProfiles model v = (.ok id, w') ∧
        Learned inferenceProfiles gone rejects w' ∧
        (settled inferenceProfiles gone model = id ∨ GoneProfile inferenceProfiles gone model id) := by
    obtain ⟨w', heq, ho, hi⟩ := lookupProfile_eq inferenceProfiles model v
    exact ⟨_, w', heq, hv.of_calls ho hi, settled_or_gone model⟩
  unfold resolveProfile
  cases hi : invalidSince w model with
  | none => exact lookup hw
  | some since =>
    obtain ⟨arn, harn⟩ := hw.invalid model since hi
    have hticked : Learned inferenceProfiles gone rejects { w with ticks := w.ticks + 1 } :=
      hw.of_calls rfl rfl
    show ∃ id w', Effect.bind (monotonic clock) _ w = _ ∧ _
    simp only [Effect.bind, monotonic]
    split
    · exact ⟨model, _, rfl, hticked, .inl (settled_of_gone harn)⟩
    · exact lookup hticked

theorem recordInvalidProfile_learned (clock : Nat → Rat)
    (hw : Learned inferenceProfiles gone rejects w)
    (harn : GoneProfile inferenceProfiles gone model arn) :
    ∃ w', recordInvalidProfile clock model w = (.ok (), w') ∧
      Learned inferenceProfiles gone rejects w' := by
  refine ⟨_, rfl, hw.omits, fun other since h => ?_⟩
  unfold invalidSince at h
  rw [find?_set] at h
  split at h
  · rename_i heq
    exact heq ▸ ⟨arn, harn⟩
  · exact hw.invalid other since h

theorem steadyReply_eq (hid : settled inferenceProfiles gone (resolveModelRef request.modelId) = id)
    (hs : Steady answer inferenceProfiles gone rejects) (hpy : py.DumpsRaises)
    (hw : Learned inferenceProfiles gone rejects w) :
    ∃ w', converse py (fun _ => answer) request (resolveModelRef request.modelId) id w =
        (steadyReply py answer inferenceProfiles gone rejects request, w') ∧
      Learned inferenceProfiles gone rejects w' := by
  obtain ⟨w', heq, hi, ho⟩ :=
    converse_reply py answer request (resolveModelRef request.modelId) id w
  refine ⟨w', ?_, learned_converse hs hpy hw (.inr hid) hi ho⟩
  rw [heq, settled_reply hs hpy hw hid]
  subst hid
  rfl

theorem converse_gone (request : ContractRequest) (model : String)
    (hs : Steady answer inferenceProfiles gone rejects) (hpy : py.DumpsRaises)
    (hw : Learned inferenceProfiles gone rejects w) (hgone : gone id) :
    ∃ e w', converse py (fun _ => answer) request model id w = (.error e, w') ∧
      Learned inferenceProfiles gone rejects w' ∧
      (outputConfigOf py request = .error e ∨ isProfileArnError e = true) := by
  obtain ⟨w', heq, hi, ho⟩ := converse_reply py answer request model id w
  have hw' := learned_converse hs hpy hw (.inl hgone) hi ho
  rw [heq]
  cases hc : outputConfigOf py request with
  | error e =>
    have hno := (outputConfigOf_noFallback hpy hc).1
    exact ⟨e, w', by simp [reply_error hc, hno], hw', .inl rfl⟩
  | ok outputConfig =>
    obtain ⟨e, he, hcode⟩ := reply_gone hs hc hgone false
    obtain ⟨e', he', hcode'⟩ := reply_gone hs hc hgone true
    have hno : isTemperatureRejection e' = false := not_rejection_of_code (by simp [hcode'])
    by_cases hskip : omitsTemperature request = true ∨ model ∈ w.omitTemperature
    · exact ⟨e, w', by simp [hskip, he], hw', .inr (isProfileArnError_iff.mpr hcode)⟩
    · exact ⟨e', w', by simp [hskip, he', hno], hw', .inr (isProfileArnError_iff.mpr hcode')⟩

theorem steadyReply_stays (hs : Steady answer inferenceProfiles gone rejects) (hpy : py.DumpsRaises)
    (hid : settled inferenceProfiles gone (resolveModelRef request.modelId) = id)
    (hreply : steadyReply py answer inferenceProfiles gone rejects request = .error e) :
    id = resolveModelRef request.modelId ∨ isProfileArnError e = false := by
  subst hid
  cases hc : outputConfigOf py request with
  | error e' =>
    obtain rfl : e' = e := by
      simpa [steadyReply, buildConverseKwargs_error hc] using hreply
    exact .inr (outputConfigOf_noFallback hpy hc).2
  | ok outputConfig =>
    by_cases hgone : gone (settled inferenceProfiles gone (resolveModelRef request.modelId))
    · left
      unfold settled at hgone ⊢
      cases hp : profileOf inferenceProfiles (resolveModelRef request.modelId) with
      | none => rfl
      | some arn =>
        by_cases hg : gone arn
        · simp [hg]
        · simp [hp, hg] at hgone
    · exact .inr ((reply_found hs hc hgone _).1 e hreply)

theorem fallback_learned (clock : Nat → Rat) (request : ContractRequest)
    (hs : Steady answer inferenceProfiles gone rejects) (hpy : py.DumpsRaises)
    (hw : Learned inferenceProfiles gone rejects w) (hmodel : resolveModelRef request.modelId = model)
    (hid : settled inferenceProfiles gone model = id ∨ GoneProfile inferenceProfiles gone model id) :
    ∃ w', Effect.tryCatch (converse py (fun _ => answer) request model id) (fun exc =>
        if id = model ∨ isProfileArnError exc = false then
          Effect.raise exc
        else do
          recordInvalidProfile clock model
          converse py (fun _ => answer) request model model) w =
        (steadyReply py answer inferenceProfiles gone rejects request, w') ∧
      Learned inferenceProfiles gone rejects w' := by
  subst hmodel
  rcases hid with hid | harn
  · obtain ⟨w', heq, hw'⟩ := steadyReply_eq hid hs hpy hw
    refine ⟨w', ?_, hw'⟩
    rw [Effect.tryCatch, heq]
    cases hreply : steadyReply py answer inferenceProfiles gone rejects request with
    | ok response => rfl
    | error e =>
      have hstays := steadyReply_stays hs hpy hid hreply
      simp [hstays, Effect.raise]
  · obtain ⟨e, w', heq, hw', hcase⟩ :=
      converse_gone request (resolveModelRef request.modelId) hs hpy hw harn.2.2
    rw [Effect.tryCatch, heq]
    have hne : id ≠ resolveModelRef request.modelId := harn.2.1
    rcases hcase with hc | hcode
    · have hno := (outputConfigOf_noFallback hpy hc).2
      refine ⟨w', ?_, hw'⟩
      simp [hno, Effect.raise, steadyReply, buildConverseKwargs_error hc]
    · obtain ⟨w'', hrecord, hw''⟩ := recordInvalidProfile_learned clock hw' harn
      obtain ⟨w₃, heq₃, hw₃⟩ := steadyReply_eq (settled_of_gone harn) hs hpy hw''
      refine ⟨w₃, ?_, hw₃⟩
      simp [hne, hcode, Effect.bind_apply, hrecord, heq₃]

/-- One completion: its outcome does not depend on what was learned, and what it learns is right. -/
theorem complete_learned (clock : Nat → Rat) (hs : Steady answer inferenceProfiles gone rejects)
    (hpy : py.DumpsRaises) (hw : Learned inferenceProfiles gone rejects w) (request : ContractRequest) :
    ∃ w', complete py (fun _ => answer) clock inferenceProfiles request w =
        (steadyReply py answer inferenceProfiles gone rejects request >>= toLlmResponse py request, w') ∧
      Learned inferenceProfiles gone rejects w' := by
  obtain ⟨id, w₁, hresolve, hw₁, hid⟩ :=
    resolveProfile_learned clock hw (resolveModelRef request.modelId)
  obtain ⟨w₂, hreply, hw₂⟩ := fallback_learned clock request hs hpy hw₁ rfl hid
  refine ⟨w₂, ?_, hw₂⟩
  simp only [complete, Effect.bind_apply, hresolve, hreply]
  cases steadyReply py answer inferenceProfiles gone rejects request <;> rfl

/-- Nothing a provider has learned changes a result: in every sequence of
completions, whatever the clock reads, each outcome is that of the same
request on a new provider. -/
theorem learned_state_transparent (hpy : py.DumpsRaises)
    (hs : Steady answer inferenceProfiles gone rejects) (requests : List ContractRequest)
    (clock clock' : Nat → Rat) :
    outcomes py (fun _ => answer) clock inferenceProfiles requests fresh =
      requests.map fun request =>
        (complete py (fun _ => answer) clock' inferenceProfiles request fresh).1 := by
  have hall {w} (hw : Learned inferenceProfiles gone rejects w) :
      outcomes py (fun _ => answer) clock inferenceProfiles requests w =
        requests.map fun request =>
          (complete py (fun _ => answer) clock' inferenceProfiles request fresh).1 := by
    induction requests generalizing w with
    | nil => rfl
    | cons request rest ih =>
      obtain ⟨w', heq, hw'⟩ := complete_learned clock hs hpy hw request
      obtain ⟨w'', hfresh, -⟩ := complete_learned clock' hs hpy learned_fresh request
      simp [outcomes, heq, hfresh, ih hw']
  exact hall learned_fresh

end

/-- Two configured models: the profile of `new` was deleted, and `old` takes no temperature. -/
def sampleProfiles : List (String × String) := [("new", "arn:gone"), ("old", "arn:old")]

def profileNotFound : Exc := ⟨.clientError (some "ResourceNotFoundException") none, "not found"⟩
def temperatureDeprecated : Exc :=
  ⟨.clientError (some "ValidationException") (some "temperature is deprecated"), "deprecated"⟩

def sampleAnswer (kwargs : Json) : Result Json :=
  if modelIdOf kwargs = some (.str "arn:gone") then .error profileNotFound
  else if carriesTemperature kwargs = true ∧
    (modelIdOf kwargs = some (.str "old") ∨ modelIdOf kwargs = some (.str "arn:old")) then
    .error temperatureDeprecated
  else .ok (.dict [])

theorem sampleAnswer_steady : Steady sampleAnswer sampleProfiles (fun id => id = "arn:gone")
    (fun id => id = "old" ∨ id = "arn:old") where
  missing kwargs id hid hgone := ⟨profileNotFound, by simp [sampleAnswer, hid, hgone], rfl⟩
  found kwargs id e hid hfound h := by
    simp only [sampleAnswer, hid, Option.some.injEq, Json.str.injEq, hfound, if_false] at h
    split at h
    · obtain rfl : temperatureDeprecated = e := by simpa using h
      decide
    · cases h
  rejection kwargs id hid hfound := by
    have hrejection : isTemperatureRejection temperatureDeprecated = true := by decide +kernel
    simp only [sampleAnswer, hid, Option.some.injEq, Json.str.injEq, hfound, if_false]
    split
    · rename_i h
      exact ⟨fun _ => h, fun _ => ⟨_, rfl, hrejection⟩⟩
    · rename_i h
      simp [h]
  profile model arn h hfound := by
    simp only [profileOf, sampleProfiles, List.find?_cons, List.find?_nil] at h
    split at h
    · obtain rfl : "arn:gone" = arn := by simpa using h
      exact absurd rfl hfound
    · split at h
      · rename_i heq
        obtain rfl : "arn:old" = arn := by simpa using h
        obtain rfl : "old" = model := by simpa using heq
        simp
      · cases h

def plainRequest (model : String) : ContractRequest :=
  ⟨model, "p", .int 512, defaultTemperature, [], .null, none, none, none⟩

/-- A deleted profile and a rejected temperature are learned, and nobody can tell. -/
theorem sampleAnswer_transparent :
    outcomes sampleStdlib (fun _ => sampleAnswer) (fun n => n) sampleProfiles
        [plainRequest "new", plainRequest "old", plainRequest "new", plainRequest "old"] fresh =
      [plainRequest "new", plainRequest "old", plainRequest "new", plainRequest "old"].map fun request =>
        (complete sampleStdlib (fun _ => sampleAnswer) (fun _ => 0) sampleProfiles request fresh).1 :=
  learned_state_transparent (by simp [Stdlib.DumpsRaises, sampleStdlib]) sampleAnswer_steady _ _ _

end LlmWorker.Bedrock
