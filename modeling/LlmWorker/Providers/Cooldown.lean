import LlmWorker.Providers.Learning
import LlmWorker.Providers.Routing

/-!
# The cooldown among completions that take turns

The threads of one pool share the record of rejected profiles. What a
completion does with a profile is settled by the one lookup it starts with: a
rejection recorded before the lookup holds it off for the cooldown, one
recorded after it comes too late.
-/

namespace LlmWorker.Operations.Bedrock

open Python Transition
open LlmWorker.Bedrock (profileOf profileArnCooldownSeconds modelIdOf modelIdOf_kwargs outputConfigOf
  buildConverseKwargs buildConverseKwargs_ok buildConverseKwargs_error outputConfigOf_noFallback
  isTemperatureRejection isProfileArnError)

variable {py : Stdlib} {inferenceProfiles : List (String × String)} {request : ContractRequest} {model id : String}

-- ---------------------------------------------------------------------------
-- One attempt
-- ---------------------------------------------------------------------------

/-- The operations of an attempt on `id`. -/
def InAttempt (id : String) : Op → Prop
  | .enter _ _ | .isLearned _ | .learn _ => True
  | .send kwargs => modelIdOf kwargs = some (.str id)
  | _ => False

/-- A rejection of the profile is the backend's answer to a call on it. -/
def Blames (id : String) (h : History Json) (r : Result Json) : Prop :=
  ∀ e, r = .error e → isProfileArnError e = true →
    ∃ kwargs, (kwargs, .error e) ∈ sends h ∧ modelIdOf kwargs = some (.str id)

/-- What an attempt on `id` can add to a log. -/
structure Closed (id : String) (I : History Json → Prop) : Prop where
  grow : ∀ h e, I h → InAttempt id e.op → I (h ++ [e])

section
variable {I : History Json → Prop} {s : History Json × Unit}

theorem Closed.step (hI : Closed id I) (h : I s.1) (hstep : (anyone Json).step s e t) (he : InAttempt id e.op) :
    I t.1 := by
  rw [hstep.1]
  exact hI.grow s.1 e h he

theorem call_blames (hpy : py.DumpsRaises) (hI : Closed id I) (b : Bool) (h : I s.1) :
    Program.Ensures (anyone Json) (fun s => I s.1) (fun t r => Blames id t.1 r)
      (callWith (buildConverseKwargs py request (some id)) b).run s := by
  unfold callWith
  cases hc : outputConfigOf py request with
  | error e =>
    rw [buildConverseKwargs_error hc]
    refine ⟨h, ?_⟩
    rintro _ ⟨⟩ hblamed
    rw [(outputConfigOf_noFallback hpy hc).2] at hblamed
    cases hblamed
  | ok outputConfig =>
    obtain ⟨kwargs, hk⟩ := buildConverseKwargs_ok hc (some id) b
    have hid : modelIdOf kwargs = some (.str id) := modelIdOf_kwargs hk
    rw [hk]
    refine .ask h fun answer t hstep => ⟨hI.step h hstep hid, ?_⟩
    rintro e rfl -
    exact ⟨kwargs, by rw [hstep.1]; simp [sends], hid⟩

theorem converse_blames (hpy : py.DumpsRaises) (hI : Closed id I) (h : I s.1) :
    Program.Ensures (anyone Json) (fun s => I s.1) (fun t r => Blames id t.1 r)
      (converse py request model id).run s := by
  refine ask_ensures (.enter model (omitsTemperature request)) h fun _ s₁ henter => ?_
  have h₁ : I s₁.1 := hI.step h henter trivial
  cases omitsTemperature request with
  | true => exact call_blames hpy hI false h₁
  | false =>
    refine ask_ensures (.isLearned model) h₁ fun (learned : Bool) s₂ htest => ?_
    refine Program.Ensures.tryCatch (call_blames hpy hI (!learned) (hI.step h₁ htest trivial)) ?_ ?_
    · exact fun _ _ _ hblames => hblames
    · intro t e ht hblames
      split
      · exact ⟨ht, hblames⟩
      · refine ask_ensures (.learn model) ht fun _ s₃ hlearn => ?_
        exact call_blames hpy hI false (hI.step ht hlearn trivial)

end

-- ---------------------------------------------------------------------------
-- One completion
-- ---------------------------------------------------------------------------

/-- The lookup of a completion for `model`, and the id it settles on. -/
inductive Lookup (inferenceProfiles : List (String × String)) (model : String) : History Json → String → Prop
  | unrecorded : Lookup inferenceProfiles model [⟨.invalidSince model, none⟩] (configured inferenceProfiles model)
  | recent (h : Double.sub now since < profileArnCooldownSeconds) :
      Lookup inferenceProfiles model [⟨.invalidSince model, some since⟩, ⟨.monotonic, now⟩] model
  | expired (h : ¬Double.sub now since < profileArnCooldownSeconds) :
      Lookup inferenceProfiles model [⟨.invalidSince model, some since⟩, ⟨.monotonic, now⟩]
        (configured inferenceProfiles model)

theorem Lookup.silent (h : Lookup inferenceProfiles model start resolved) (rest : History Json) :
    sends (start ++ rest) = sends rest ∧ recorded (start ++ rest) = recorded rest := by
  cases h <;> exact ⟨rfl, rfl⟩

theorem Lookup.cons (h : Lookup inferenceProfiles model start resolved) :
    ∃ since reads, start = ⟨.invalidSince model, since⟩ :: reads ∧
      ∀ e ∈ reads, ∀ other, e.op ≠ .invalidSince other := by
  cases h <;> exact ⟨_, _, rfl, by simp⟩

/-- What follows the lookup. -/
structure Follows (model resolved : String) (rest : History Json) : Prop where
  settled : ∀ e ∈ rest, ∀ other, e.op ≠ .invalidSince other
  first : ∀ call ∈ (sends rest).head?, modelIdOf call.1 = some (.str resolved)
  calls : ∀ call ∈ sends rest, modelIdOf call.1 = some (.str resolved) ∨ modelIdOf call.1 = some (.str model)
  records : ∀ r ∈ recorded rest, r.1 = model ∧ resolved ≠ model ∧ r.2 ∈ readings rest ∧
    ∃ kwargs e, (kwargs, .error e) ∈ sends rest ∧ modelIdOf kwargs = some (.str resolved) ∧ isProfileArnError e = true

/-- The log of a completion for `model`, at any moment. -/
inductive Routed (inferenceProfiles : List (String × String)) (model : String) : History Json → Prop
  | fresh : Routed inferenceProfiles model []
  | reading : Routed inferenceProfiles model [⟨.invalidSince model, some since⟩]
  | settled (start rest : History Json) (hstart : Lookup inferenceProfiles model start resolved)
      (hrest : Follows model resolved rest) : Routed inferenceProfiles model (start ++ rest)

section
variable {resolved : String} {rest start l : History Json} {e : Event (Answer Json)}

theorem follows_nil (model resolved : String) : Follows model resolved [] := by
  constructor <;> simp [sends, recorded]

theorem Follows.concat (h : Follows model resolved rest) (hop : ∀ other, e.op ≠ .invalidSince other)
    (hrecorded : recorded [e] = [])
    (hcalls : ∀ call ∈ sends [e], modelIdOf call.1 = some (.str resolved) ∨
      sends rest ≠ [] ∧ modelIdOf call.1 = some (.str model)) : Follows model resolved (rest ++ [e]) := by
  have hrecords : recorded (rest ++ [e]) = recorded rest := by
    rw [recorded, List.filterMap_append]
    exact (congrArg (recorded rest ++ ·) hrecorded).trans (List.append_nil _)
  constructor
  case settled =>
    intro e' he'
    cases List.mem_append.mp he' with
    | inl hold => exact h.settled e' hold
    | inr hnew => exact List.mem_singleton.mp hnew ▸ hop
  case first =>
    rw [sends_concat]
    intro call hcall
    cases hsent : sends rest with
    | nil =>
      rw [hsent, List.nil_append] at hcall
      exact (hcalls call (List.mem_of_mem_head? hcall)).resolve_right fun hmoved => hmoved.1 hsent
    | cons c cs =>
      rw [hsent] at hcall
      exact h.first call (by rw [hsent]; exact hcall)
  case calls =>
    rw [sends_concat]
    intro call hcall
    cases List.mem_append.mp hcall with
    | inl hold => exact h.calls call hold
    | inr hnew => exact (hcalls call hnew).imp_right (·.2)
  case records =>
    rw [hrecords, sends_concat]
    intro r hr
    obtain ⟨hmodel, hne, hread, kwargs, exc, hsent, hblamed⟩ := h.records r hr
    refine ⟨hmodel, hne, ?_, kwargs, exc, List.mem_append_left _ hsent, hblamed⟩
    rw [readings, List.filterMap_append]
    exact List.mem_append_left _ hread

theorem Follows.attempt (h : Follows model resolved rest) (hop : InAttempt id e.op)
    (hid : id = resolved ∨ sends rest ≠ [] ∧ id = model) : Follows model resolved (rest ++ [e]) := by
  obtain ⟨o, answer⟩ := e
  cases o with
  | send kwargs =>
    have hkwargs : modelIdOf kwargs = some (.str id) := hop
    refine h.concat (by simp) rfl fun call hcall => ?_
    obtain rfl : call.1 = kwargs := congrArg Prod.fst (List.mem_singleton.mp hcall)
    rcases hid with rfl | ⟨hsent, rfl⟩
    · exact .inl hkwargs
    · exact .inr ⟨hsent, hkwargs⟩
  | enter | isLearned | learn => exact h.concat (by simp) rfl (by simp [sends])
  | invalidSince | monotonic | recordInvalid | warnUnmapped => exact hop.elim

theorem Follows.record (h : Follows model resolved rest) (hne : resolved ≠ model)
    (hsent : (kwargs, .error exc) ∈ sends rest) (hid : modelIdOf kwargs = some (.str resolved))
    (hexc : isProfileArnError exc = true) (now : Rat) (r : Unit) :
    Follows model resolved (rest ++ [⟨.monotonic, now⟩] ++ [⟨.recordInvalid model now, r⟩]) := by
  have hread : Follows model resolved (rest ++ [⟨.monotonic, now⟩]) := h.concat (by simp) rfl (by simp [sends])
  have hsends : sends (rest ++ [⟨.monotonic, now⟩] ++ [⟨.recordInvalid model now, r⟩]) = sends rest := by
    simp [sends]
  have hreadings : readings (rest ++ [⟨.monotonic, now⟩] ++ [⟨.recordInvalid model now, r⟩]) =
      readings rest ++ [now] := by simp [readings]
  constructor
  case settled =>
    intro e' he'
    cases List.mem_append.mp he' with
    | inl hold => exact hread.settled e' hold
    | inr hnew => simp [List.mem_singleton.mp hnew]
  case first => exact hsends ▸ h.first
  case calls => exact hsends ▸ h.calls
  case records =>
    rw [hsends, hreadings]
    intro record hr
    have hr : record ∈ recorded rest ∨ record = (model, now) := by simpa [recorded, or_comm] using hr
    cases hr with
    | inl hold =>
      obtain ⟨hmodel, hne, hread, hcall⟩ := h.records record hold
      exact ⟨hmodel, hne, List.mem_append_left _ hread, hcall⟩
    | inr hnew =>
      subst hnew
      exact ⟨rfl, hne, by simp, kwargs, exc, hsent, hid, hexc⟩

/-- The log of a completion past its lookup, where `ok` holds of the rest. -/
def Past (model resolved : String) (start : History Json) (ok : History Json → Prop) (h : History Json) : Prop :=
  ∃ rest, h = start ++ rest ∧ Follows model resolved rest ∧ ok rest

theorem closed_first (start : History Json) : Closed resolved (Past model resolved start fun _ => True) := by
  constructor
  rintro _ e ⟨rest, rfl, hrest, -⟩ he
  exact ⟨rest ++ [e], by simp, hrest.attempt he (.inl rfl), trivial⟩

theorem closed_moved (start : History Json) : Closed model (Past model resolved start (sends · ≠ [])) := by
  constructor
  rintro _ e ⟨rest, rfl, hrest, hsent⟩ he
  have hgrown : sends (rest ++ [e]) ≠ [] := by
    rw [sends_concat]
    exact List.append_ne_nil_of_left_ne_nil hsent _
  exact ⟨rest ++ [e], by simp, hrest.attempt he (.inr ⟨hsent, rfl⟩), hgrown⟩

theorem Past.routed (h : Past model resolved start ok l) (hstart : Lookup inferenceProfiles model start resolved) :
    Routed inferenceProfiles model l := by
  obtain ⟨rest, rfl, hrest, -⟩ := h
  exact .settled start rest hstart hrest

/-- The log of a completion for `model`, all along. -/
abbrev Logged (inferenceProfiles : List (String × String)) (model : String) (s : History Json × Unit) : Prop :=
  Routed inferenceProfiles model s.1

/-- The completion has settled on an id, and asked for nothing since that matters. -/
def Settles (inferenceProfiles : List (String × String)) (model : String) (l : History Json)
    (r : Result String) : Prop :=
  ∃ resolved start, r = .ok resolved ∧ Lookup inferenceProfiles model start resolved ∧
    Past model resolved start (fun _ => True) l

theorem lookupProfile_settles {s : History Json × Unit}
    (hstart : Lookup inferenceProfiles model s.1 (configured inferenceProfiles model)) :
    Program.Ensures (anyone Json) (Logged inferenceProfiles model) (fun t => Settles inferenceProfiles model t.1)
      (lookupProfile inferenceProfiles model).run s := by
  have hs : Past model (configured inferenceProfiles model) s.1 (fun _ => True) s.1 :=
    ⟨[], by simp, follows_nil _ _, trivial⟩
  unfold lookupProfile
  cases hp : profileOf inferenceProfiles model with
  | some arn =>
    have hresolved : configured inferenceProfiles model = arn := by simp [configured, hp]
    exact ⟨hs.routed hstart, arn, s.1, rfl, hresolved ▸ hstart, hresolved ▸ hs⟩
  | none =>
    have hresolved : configured inferenceProfiles model = model := by simp [configured, hp]
    rw [hresolved] at hstart hs
    refine ask_ensures (.warnUnmapped model) (hs.routed hstart) fun r t hwarn => ?_
    have ht : Past model model s.1 (fun _ => True) t.1 :=
      ⟨[⟨.warnUnmapped model, r⟩], hwarn.1, (follows_nil _ _).concat (by simp) rfl (by simp [sends]), trivial⟩
    exact ⟨ht.routed hstart, model, s.1, rfl, hstart, ht⟩

theorem resolveProfile_settles (inferenceProfiles : List (String × String)) (model : String) :
    Program.Ensures (anyone Json) (Logged inferenceProfiles model) (fun t => Settles inferenceProfiles model t.1)
      (resolveProfile inferenceProfiles model).run ([], ()) := by
  refine ask_ensures (.invalidSince model) .fresh fun (since : Option Rat) s hget => ?_
  have hlog : s.1 = [⟨.invalidSince model, since⟩] := hget.1
  cases since with
  | none => exact lookupProfile_settles (hlog ▸ .unrecorded)
  | some since =>
    have hs : Logged inferenceProfiles model s := by
      show Routed _ _ s.1
      exact hlog ▸ .reading
    refine ask_ensures .monotonic hs fun (now : Rat) t hread => ?_
    have hlog' : t.1 = [⟨.invalidSince model, some since⟩, ⟨.monotonic, now⟩] := by rw [hread.1, hlog]; rfl
    split
    · rename_i hrecent
      have hstart : Lookup inferenceProfiles model t.1 model := hlog' ▸ .recent hrecent
      have ht : Past model model t.1 (fun _ => True) t.1 := ⟨[], by simp, follows_nil _ _, trivial⟩
      exact ⟨ht.routed hstart, model, t.1, rfl, hstart, ht⟩
    · rename_i hexpired
      exact lookupProfile_settles (hlog' ▸ .expired hexpired)

end

/-- Whatever is answered, a completion goes by its lookup. -/
theorem complete_routed (hpy : py.DumpsRaises) (inferenceProfiles : List (String × String))
    (request : ContractRequest) :
    Program.Ensures (anyone Json) (Logged inferenceProfiles (resolveModelRef request.modelId)) (fun _ _ => True)
      (complete py inferenceProfiles request).run ([], ()) := by
  refine Program.Ensures.bindExcept (resolveProfile_settles inferenceProfiles _) ?_ fun _ _ _ _ => trivial
  rintro s resolved - ⟨_, start, ⟨⟩, hstart, hs⟩
  generalize resolveModelRef request.modelId = model at hstart hs ⊢
  have attempt {id : String} {ok : History Json → Prop} {s : History Json × Unit}
      (hclosed : Closed id (Past model resolved start ok)) (h : Past model resolved start ok s.1) :
      Program.Ensures (anyone Json) (Logged inferenceProfiles model)
        (fun t r => Past model resolved start ok t.1 ∧ Blames id t.1 r) (converse py request model id).run s :=
    ((converse_blames hpy hclosed h).mono fun _ _ hlog hblames => ⟨hlog, hblames⟩).weaken
      fun _ hlog => hlog.routed hstart
  refine Program.Ensures.bindExcept (Q := fun _ _ => True) ?_ (fun _ _ h _ => ⟨h, trivial⟩) fun _ _ _ _ => trivial
  refine Program.Ensures.tryCatch (attempt (closed_first start) hs) (fun _ _ _ _ => trivial) ?_
  rintro t e hlogged ⟨⟨rest, hlog, hrest, -⟩, hblames⟩
  split
  · exact ⟨hlogged, trivial⟩
  · rename_i hmoves
    obtain ⟨hne, harn⟩ := not_or.mp hmoves
    have hexc : isProfileArnError e = true := by simpa using harn
    obtain ⟨kwargs, hsent, hid⟩ := hblames e rfl hexc
    rw [hlog, (hstart.silent rest).1] at hsent
    refine ask_ensures .monotonic hlogged fun (now : Rat) u hread => ?_
    have hu : u.1 = start ++ (rest ++ [⟨.monotonic, now⟩]) := by rw [hread.1, hlog, List.append_assoc]
    have hlogged' : Logged inferenceProfiles model u := by
      show Routed _ _ u.1
      exact hu ▸ .settled start _ hstart (hrest.concat (by simp) rfl (by simp [sends]))
    refine ask_ensures (.recordInvalid model now) hlogged' fun r v hrecord => ?_
    have hv : Past model resolved start (sends · ≠ []) v.1 := by
      refine ⟨_, ?_, hrest.record hne hsent hid hexc now r, ?_⟩
      · rw [hrecord.1, hu, List.append_assoc]
      · simpa [sends] using List.ne_nil_of_mem hsent
    exact (attempt (closed_moved start) hv).mono fun _ _ _ _ => trivial

-- ---------------------------------------------------------------------------
-- What a lookup settles
-- ---------------------------------------------------------------------------

/-- When a profile of the model was recorded as rejected, in the order of the records. -/
def rejectedAt (model : String) (l : History ρ) : List Rat :=
  (recorded l).filterMap fun r => if r.1 = model then some r.2 else none

theorem rejectedAt_concat (model : String) (l : History ρ) (e : Event (Answer ρ)) :
    rejectedAt model (l ++ [e]) = rejectedAt model l ++ rejectedAt model [e] := by
  simp [rejectedAt, recorded]

/-- The memory holds what was recorded last, whatever the clock said. -/
theorem memory_last {es : History ρ} (h : (memory ρ).Run .fresh es mem) (model : String) :
    find model mem.profileInvalidSince = (rejectedAt model es).getLast? := by
  induction h with
  | nil => rfl
  | @snoc es _ e _ _ hstep ih =>
    rw [rejectedAt_concat]
    obtain ⟨o, r⟩ := e
    cases o with
    | recordInvalid other now =>
      obtain rfl := hstep
      have hnew : rejectedAt model [(⟨.recordInvalid other now, r⟩ : Event (Answer ρ))] =
          if other = model then [now] else [] := by
        by_cases hmodel : other = model <;> simp [rejectedAt, recorded, hmodel]
      rw [find_set, hnew]
      by_cases hmodel : model = other
      · simp [hmodel]
      · rw [if_neg hmodel, if_neg (Ne.symm hmodel), List.append_nil, ih]
    | isLearned | invalidSince =>
      obtain ⟨-, rfl⟩ := hstep
      exact ih.trans (congrArg List.getLast? (List.append_nil _).symm)
    | _ =>
      obtain rfl := hstep
      exact ih.trans (congrArg List.getLast? (List.append_nil _).symm)

/-- The record read at the lookup is younger than the cooldown. -/
def Rests (since : Option Rat) (events : History ρ) : Prop :=
  ∃ t ∈ since, ∃ now ∈ (readings events).head?, Double.sub now t < profileArnCooldownSeconds

/-- What comes of a lookup that read `since`. -/
structure Heeds (inferenceProfiles : List (String × String)) (model : String) (since : Option Rat)
    (events : History Json) : Prop where
  resting : Rests since events → (∀ call ∈ sends events, modelIdOf call.1 = some (.str model)) ∧ recorded events = []
  otherwise : ¬Rests since events → ∀ call ∈ (sends events).head?,
    modelIdOf call.1 = some (.str (configured inferenceProfiles model))
  spaced : ∀ t ∈ since, (readings events).Pairwise (· ≤ ·) →
    ∀ r ∈ recorded events, profileArnCooldownSeconds ≤ Double.sub r.2 t

theorem heeds_nil (inferenceProfiles : List (String × String)) (model : String) (since : Option Rat) :
    Heeds inferenceProfiles model since [] := by
  constructor <;> simp [sends, recorded]

section
variable {resolved : String} {reads rest : History Json}

theorem Lookup.heeds (h : Lookup inferenceProfiles model (⟨.invalidSince model, since⟩ :: reads) resolved)
    (hrest : Follows model resolved rest) : Heeds inferenceProfiles model since (reads ++ rest) := by
  cases h with
  | unrecorded =>
    constructor
    case resting => simp [Rests]
    case otherwise => exact fun _ => hrest.first
    case spaced => simp
  | @recent now since hrecent =>
    have hnone : recorded rest = [] :=
      List.eq_nil_iff_forall_not_mem.mpr fun r hr => (hrest.records r hr).2.1 rfl
    constructor
    case resting => exact fun _ => ⟨fun call hcall => (hrest.calls call hcall).elim id id, hnone⟩
    case otherwise => exact fun h => absurd ⟨since, rfl, now, rfl, hrecent⟩ h
    case spaced =>
      intro _ _ _ r hr
      exact absurd hr (hnone ▸ List.not_mem_nil)
  | @expired now since hexpired =>
    constructor
    case resting =>
      rintro ⟨_, ⟨⟩, _, ⟨⟩, hrecent⟩
      exact absurd hrecent hexpired
    case otherwise => exact fun _ => hrest.first
    case spaced =>
      rintro _ ⟨⟩ hclock r hr
      have hlate : now ≤ r.2 := (List.pairwise_cons.mp hclock).1 r.2 (hrest.records r hr).2.2.1
      exact (not_lt.mp hexpired).trans (Double.sub_le_sub hlate le_rfl)

theorem Routed.heeds {before after : History Json}
    (h : Routed inferenceProfiles model (before ++ ⟨.invalidSince other, since⟩ :: after)) :
    before = [] ∧ other = model ∧ Heeds inferenceProfiles model since after := by
  generalize hlog : before ++ _ :: after = log at h
  cases h with
  | fresh => simp at hlog
  | reading =>
    obtain ⟨rfl, ⟨rfl, hsince⟩, rfl⟩ := by simpa [List.append_eq_singleton_iff] using hlog
    exact ⟨rfl, rfl, heeds_nil _ _ _⟩
  | settled start rest hstart hrest =>
    obtain ⟨since', reads, rfl, hreads⟩ := hstart.cons
    cases before with
    | nil =>
      obtain ⟨hlookup, rfl⟩ := List.cons.inj hlog
      cases hlookup
      exact ⟨rfl, rfl, hstart.heeds hrest⟩
    | cons b bs =>
      have htail : bs ++ ⟨.invalidSince other, since⟩ :: after = reads ++ rest := (List.cons.inj hlog).2
      have hmem : ⟨.invalidSince other, since⟩ ∈ reads ++ rest := by simp [← htail]
      cases List.mem_append.mp hmem with
      | inl hread => exact absurd rfl (hreads _ hread other)
      | inr hlater => exact absurd rfl (hrest.settled _ hlater other)

end

-- ---------------------------------------------------------------------------
-- Completions that take turns
-- ---------------------------------------------------------------------------

theorem mem_sends {l : History ρ} {kwargs : Json} {answer : Result ρ} :
    (kwargs, answer) ∈ sends l ↔ ⟨.send kwargs, answer⟩ ∈ l := by
  constructor
  · intro h
    obtain ⟨⟨o, r⟩, hmem, hop⟩ := List.mem_filterMap.mp h
    cases o with
    | send =>
      cases hop
      exact hmem
    | _ => cases hop
  · exact fun h => List.mem_filterMap.mpr ⟨_, h, rfl⟩

theorem Lookup.id_eq (h : Lookup inferenceProfiles model start id) :
    id = model ∨ profileOf inferenceProfiles model = some id := by
  cases h with
  | recent => exact .inl rfl
  | unrecorded | expired =>
    unfold configured
    cases profileOf inferenceProfiles model with
    | none => exact .inl rfl
    | some arn => exact .inr rfl

theorem Routed.calls (h : Routed inferenceProfiles model l) : ∀ call ∈ sends l, ∃ id,
    modelIdOf call.1 = some (.str id) ∧ (id = model ∨ profileOf inferenceProfiles model = some id) := by
  cases h with
  | fresh | reading => simp [sends]
  | settled start rest hstart hrest =>
    rw [(hstart.silent rest).1]
    intro call hcall
    cases hrest.calls call hcall with
    | inl hid => exact ⟨_, hid, hstart.id_eq⟩
    | inr hid => exact ⟨model, hid, .inl rfl⟩

theorem Routed.records (h : Routed inferenceProfiles model l) : ∀ r ∈ recorded l, r.1 = model ∧
    ∃ kwargs e arn, (kwargs, .error e) ∈ sends l ∧ isProfileArnError e = true ∧
      modelIdOf kwargs = some (.str arn) ∧ profileOf inferenceProfiles model = some arn ∧ arn ≠ model := by
  cases h with
  | fresh | reading => simp [recorded]
  | @settled resolved start rest hstart hrest =>
    rw [(hstart.silent rest).1, (hstart.silent rest).2]
    intro r hr
    obtain ⟨hmodel, hne, -, kwargs, e, hsent, hid, hexc⟩ := hrest.records r hr
    exact ⟨hmodel, kwargs, e, resolved, hsent, hexc, hid, hstart.id_eq.resolve_left hne, hne⟩

/-- Routing however the completions of one provider take turns. Every call
goes to the request's model or to an ARN configured for it. What a completion
looks up is the last rejection recorded by then, by whichever of them. While it
is younger than the cooldown, all calls of the completion go to the model and it
records nothing; otherwise the first call goes to the profile, and, unless the
clock goes back, a rejection it records is at least a cooldown later than the one
it looked up. It records only what the backend answered to a call of its own on
a configured profile. -/
theorem routing_in_turns {ι : Type} [DecidableEq ι] (hpy : py.DumpsRaises)
    (hconfig : loadBedrockConfig py environ = .ok config) (requests : ι → ContractRequest)
    {as : List (ι × Event (Answer Json))} {mem : Memory} {code : ι → Program Op (Answer Json) (Result LLMResponse)}
    (h : (Program.threads (memory Json) (Result LLMResponse)).Run
      (.fresh, fun i => (complete py config.inferenceProfiles (requests i)).run) as (mem, code)) :
    (∀ i kwargs answer, (i, ⟨.send kwargs, answer⟩) ∈ as → ∃ id, modelIdOf kwargs = some (.str id) ∧
      (id = resolveModelRef (requests i).modelId ∨ "arn:".toList <+: id.toList ∧
        ∃ key, Configures py environ key id ∧ resolveModelRef key = resolveModelRef (requests i).modelId)) ∧
    (∀ i other now r, (i, ⟨.recordInvalid other now, r⟩) ∈ as → other = resolveModelRef (requests i).modelId ∧
      ∃ kwargs e arn, (i, ⟨.send kwargs, .error e⟩) ∈ as ∧ isProfileArnError e = true ∧
        modelIdOf kwargs = some (.str arn) ∧ profileOf config.inferenceProfiles other = some arn ∧ arn ≠ other) ∧
    ∀ before i other since after, as = before ++ (i, ⟨.invalidSince other, since⟩) :: after →
      other = resolveModelRef (requests i).modelId ∧
      since = (rejectedAt other (before.map (·.2))).getLast? ∧
      Heeds config.inferenceProfiles other since (Program.eventsOf i after) := by
  obtain ⟨hmem, hthread⟩ := Program.threads_run h
  have hrouted (i : ι) : Routed config.inferenceProfiles (resolveModelRef (requests i).modelId)
      (Program.eventsOf i as) :=
    ((complete_routed hpy config.inferenceProfiles (requests i)).run (hthread i)
      ((LTS.run_free fun _ _ => trivial).logged [])).holds
  refine ⟨fun i kwargs answer hcall => ?_, fun i other now r hrecord => ?_, ?_⟩
  · obtain ⟨id, hid, hmodel | hprofile⟩ := (hrouted i).calls _ (mem_sends.mpr (Program.mem_eventsOf.mpr hcall))
    · exact ⟨id, hid, .inl hmodel⟩
    · obtain ⟨key, hkey, hresolve⟩ := configures_of_profile hconfig (mem_of_profileOf hprofile)
      exact ⟨id, hid, .inr ⟨arn_of_configures hkey, key, hkey, hresolve⟩⟩
  · have hr : (other, now) ∈ recorded (Program.eventsOf i as) :=
      List.mem_filterMap.mpr ⟨_, Program.mem_eventsOf.mpr hrecord, rfl⟩
    obtain ⟨rfl, kwargs, e, arn, hsent, hexc, hid, hprofile, hne⟩ := (hrouted i).records _ hr
    exact ⟨rfl, kwargs, e, arn, Program.mem_eventsOf.mp (mem_sends.mp hsent), hexc, hid, hprofile, hne⟩
  · rintro before i other since after rfl
    have hi := hrouted i
    rw [Program.eventsOf_append] at hi
    have hlookup : Program.eventsOf i ((i, ⟨.invalidSince other, since⟩) :: after) =
        ⟨.invalidSince other, since⟩ :: Program.eventsOf i after := by simp [Program.eventsOf]
    rw [hlookup] at hi
    obtain ⟨-, hother, hheeds⟩ := hi.heeds
    rw [List.map_append] at hmem
    obtain ⟨m, hbefore, hrest⟩ := hmem.append_inv
    obtain ⟨_, ⟨hsince, -⟩, -⟩ := hrest.cons_inv
    exact ⟨hother, hsince.trans (memory_last hbefore other), hother ▸ hheeds⟩

-- ---------------------------------------------------------------------------
-- Two completions that find the profile gone at once
-- ---------------------------------------------------------------------------

def goneEvents : History Json :=
  [⟨.invalidSince "m", none⟩, ⟨.enter "m" false, ()⟩, ⟨.isLearned "m", false⟩,
    ⟨.send (mappedCall "arn:m" true), .error noSuchProfile⟩]

def bareEvents : History Json := [⟨.enter "m" false, ()⟩, ⟨.isLearned "m", false⟩, mappedAnswer]

/-- The later reading is recorded first. -/
def goneAtOnce : List (Bool × Event (Answer Json)) :=
  (goneEvents.flatMap fun e => [(false, e), (true, e)]) ++
    [(false, ⟨.monotonic, (10 : Rat)⟩), (true, ⟨.monotonic, (11 : Rat)⟩), (true, ⟨.recordInvalid "m" 11, ()⟩),
      (false, ⟨.recordInvalid "m" 10, ()⟩)] ++
    bareEvents.flatMap fun e => [(false, e), (true, e)]

theorem goneAtOnce_run : (Program.threads (memory Json) (Result LLMResponse)).Run
    (.fresh, fun _ => (complete mappedStdlib [("m", "arn:m")] mappedRequest).run) goneAtOnce
    (⟨[], [("m", 10)], []⟩, fun _ => .done emptyResponse) := by
  have hgone (now : Rat) : (Program.steps Op (Answer Json) (Result LLMResponse)).Run
      (complete mappedStdlib [("m", "arn:m")] mappedRequest).run
      (goneEvents ++ [⟨.monotonic, now⟩, ⟨.recordInvalid "m" now, ()⟩] ++ bareEvents) (.done emptyResponse) :=
    .cons ⟨_, rfl, rfl⟩ (.cons ⟨_, rfl, rfl⟩ (.cons ⟨_, rfl, rfl⟩ (.cons ⟨_, rfl, rfl⟩ (.cons ⟨_, rfl, rfl⟩
      (.cons ⟨_, rfl, rfl⟩ (.cons ⟨_, rfl, rfl⟩ (.cons ⟨_, rfl, rfl⟩ (.cons ⟨_, rfl, rfl⟩ .nil))))))))
  refine Program.run_threads ?_ fun i => ?_
  · exact .cons ⟨rfl, rfl⟩ (.cons ⟨rfl, rfl⟩ (.cons rfl (.cons rfl (.cons ⟨rfl, rfl⟩ (.cons ⟨rfl, rfl⟩ (.cons rfl
      (.cons rfl (.cons rfl (.cons rfl (.cons rfl (.cons rfl (.cons rfl (.cons rfl (.cons ⟨rfl, rfl⟩
      (.cons ⟨rfl, rfl⟩ (.cons rfl (.cons rfl .nil)))))))))))))))))
  · cases i with
    | false => exact hgone 10
    | true => exact hgone 11

theorem goneAtOnce_routed :
    (∀ i other now r, (i, ⟨.recordInvalid other now, r⟩) ∈ goneAtOnce → other = "m" ∧
      ∃ kwargs e arn, (i, ⟨.send kwargs, .error e⟩) ∈ goneAtOnce ∧ isProfileArnError e = true ∧
        modelIdOf kwargs = some (.str arn) ∧ profileOf [("m", "arn:m")] other = some arn ∧ arn ≠ other) ∧
    Heeds [("m", "arn:m")] "m" none (Program.eventsOf true (goneAtOnce.drop 2)) := by
  have hconfig : loadBedrockConfig mappedStdlib (fun _ => none) = .ok ⟨"us-east-1", [("m", "arn:m")]⟩ := rfl
  obtain ⟨-, hrecords, hlookups⟩ :=
    routing_in_turns (by simp [Stdlib.DumpsRaises, mappedStdlib, sampleStdlib]) hconfig (fun _ => mappedRequest)
      goneAtOnce_run
  obtain ⟨-, -, hheeds⟩ := hlookups [(false, ⟨.invalidSince "m", none⟩)] true "m" none (goneAtOnce.drop 2) rfl
  exact ⟨hrecords, hheeds⟩

end LlmWorker.Operations.Bedrock
