import LlmWorker.Config
import LlmWorker.Providers.Completion

/-!
# Routing over whole runs

Completions made one after the other on one provider: where each of them
sends its calls, and how far apart the rejections of a profile are recorded.
-/

namespace LlmWorker.Operations.Bedrock

open Python Transition
open LlmWorker.Bedrock (profileOf profileArnCooldownSeconds modelIdOf outputConfigOf)

def clockOf (as : List Session) : List Rat := as.flatMap fun x => readings x.events

def rejections (model : String) (as : List Session) : List Rat :=
  (as.flatMap fun x => recorded x.events).filterMap fun r => if r.1 = model then some r.2 else none

theorem clockOf_append (as bs : List Session) : clockOf (as ++ bs) = clockOf as ++ clockOf bs :=
  List.flatMap_append

/-- What `resolveProfile` may give for a model from a memory. -/
def Routes (inferenceProfiles : List (String × String)) (mem : Memory) (model : String)
    (events : History Json) (resolved : String) : Prop :=
  (Program.steps Op (Answer Json) (Result String)).Run (resolveProfile inferenceProfiles model).run events
    (.done (.ok resolved)) ∧ ∃ mem', (memory Json).Run mem events mem'

-- ---------------------------------------------------------------------------
-- Where calls go
-- ---------------------------------------------------------------------------

section
variable {py : Stdlib} {inferenceProfiles : List (String × String)} {request : ContractRequest} {model : String}

theorem attempt_sends (hc : outputConfigOf py request = .ok outputConfig)
    (h : Attempted py request resolved learned made r after) : made ≠ [] := by
  obtain ⟨⟨kwargs, hlast⟩, -⟩ := attempt_ok hc h
  rintro rfl
  cases hlast

theorem completes_head (h : Completes py inferenceProfiles request model mem mem' sent times rejected outcome) :
    ∃ resolved start, Starts inferenceProfiles mem model resolved start ∧ start <+: times ∧
      ∀ call ∈ sent.head?, modelIdOf call.1 = some (.str resolved) := by
  cases h with
  | stayed hstart hattempt =>
    exact ⟨_, _, hstart, List.prefix_rfl, fun call hcall => attempt_ids hattempt call (List.mem_of_mem_head? hcall)⟩
  | @moved _ _ first _ _ _ _ _ _ hstart hattempt _ _ hattempt' =>
    refine ⟨_, _, hstart, List.prefix_append _ _, fun call hcall => ?_⟩
    cases hc : outputConfigOf py request with
    | error e =>
      rw [(attempt_unbuilt hc hattempt).1, (attempt_unbuilt hc hattempt').1] at hcall
      cases hcall
    | ok outputConfig =>
      obtain ⟨c, rest, rfl⟩ := List.exists_cons_of_ne_nil (attempt_sends hc hattempt)
      obtain rfl : c = call := by simpa using hcall
      exact attempt_ids hattempt c List.mem_cons_self

theorem completes_sends (h : Completes py inferenceProfiles request model mem mem' sent times rejected outcome)
    (hc : outputConfigOf py request = .ok outputConfig) : sent ≠ [] := by
  cases h with
  | stayed _ hattempt => exact attempt_sends hc hattempt
  | moved _ hattempt => exact List.append_ne_nil_of_left_ne_nil (attempt_sends hc hattempt) _

theorem completes_ids (h : Completes py inferenceProfiles request model mem mem' sent times rejected outcome) :
    ∀ call ∈ sent, ∃ id, modelIdOf call.1 = some (.str id) ∧
      (id = model ∨ profileOf inferenceProfiles model = some id) := by
  cases h with
  | stayed hstart hattempt => exact fun call hcall => ⟨_, attempt_ids hattempt call hcall, starts_id hstart⟩
  | moved hstart hattempt _ _ hattempt' =>
    intro call hcall
    rcases List.mem_append.mp hcall with hf | hs
    · exact ⟨_, attempt_ids hattempt call hf, starts_id hstart⟩
    · exact ⟨_, attempt_ids hattempt' call hs, .inl rfl⟩

end

-- ---------------------------------------------------------------------------
-- What the memory holds
-- ---------------------------------------------------------------------------

/-- The memory holds the last rejection of each model; rejections are spaced
by the cooldown, and only a profile other than the model is ever rejected. -/
structure Recorded (inferenceProfiles : List (String × String)) (as : List Session) (mem : Memory) : Prop where
  last : ∀ model, find model mem.profileInvalidSince = (rejections model as).getLast?
  spaced : ∀ model, (rejections model as).Pairwise fun t t' => profileArnCooldownSeconds ≤ Double.sub t' t
  mapped : ∀ model, rejections model as ≠ [] → ∃ arn, profileOf inferenceProfiles model = some arn ∧ arn ≠ model

theorem recorded_fresh (inferenceProfiles : List (String × String)) : Recorded inferenceProfiles [] .fresh := by
  constructor <;> simp [rejections, Memory.fresh, find]

section
variable {inferenceProfiles : List (String × String)} {as : List Session} {mem : Memory} {model : String}

theorem Recorded.le_last (h : Recorded inferenceProfiles as mem)
    (hfind : find model mem.profileInvalidSince = some since) : ∀ t ∈ rejections model as, t ≤ since := by
  rw [h.last] at hfind
  obtain ⟨earlier, heq⟩ := List.getLast?_eq_some_iff.mp hfind
  have hspaced := h.spaced model
  rw [heq, List.pairwise_append] at hspaced
  intro t ht
  rw [heq, List.mem_append, List.mem_singleton] at ht
  rcases ht with ht | rfl
  · have hgap := hspaced.2.2 t ht since List.mem_cons_self
    have hpos : (0 : Rat) < profileArnCooldownSeconds := by decide
    exact Double.le_of_sub_pos (hpos.trans_le hgap)
  · exact le_rfl

theorem Recorded.starts (h : Recorded inferenceProfiles as mem)
    (hstart : Starts inferenceProfiles mem model resolved times) :
    ((∃ arn, profileOf inferenceProfiles model = some arn ∧ resolved = arn) ↔
      (profileOf inferenceProfiles model).isSome ∧
        ∀ t ∈ rejections model as, ∀ now ∈ times.head?, profileArnCooldownSeconds ≤ Double.sub now t) ∧
    (rejections model as ≠ [] → times ≠ []) := by
  cases hstart with
  | unrecorded hnone =>
    have hempty : rejections model as = [] := by simpa [h.last] using hnone
    unfold configured
    cases hp : profileOf inferenceProfiles model <;> simp [hempty]
  | @recent since now hfind hrecent =>
    have hmem : since ∈ rejections model as := List.mem_of_getLast? (h.last model ▸ hfind)
    obtain ⟨arn, harn, hne⟩ := h.mapped model (List.ne_nil_of_mem hmem)
    refine ⟨⟨fun ⟨arn', harn', heq⟩ => ?_, fun ⟨_, hold⟩ => ?_⟩, by simp⟩
    · rw [harn] at harn'
      cases harn'
      exact absurd heq.symm hne
    · exact absurd (hold since hmem now rfl) (not_le.mpr hrecent)
  | @expired since now hfind hlate =>
    have hmem : since ∈ rejections model as := List.mem_of_getLast? (h.last model ▸ hfind)
    obtain ⟨arn, harn, -⟩ := h.mapped model (List.ne_nil_of_mem hmem)
    refine ⟨⟨fun _ => ⟨by simp [harn], ?_⟩, fun _ => ⟨arn, harn, by simp [configured, harn]⟩⟩, by simp⟩
    rintro t ht _ ⟨⟩
    have hle := h.le_last hfind t ht
    exact (not_lt.mp hlate).trans (Double.sub_le_sub le_rfl hle)

end

-- ---------------------------------------------------------------------------
-- One more completion
-- ---------------------------------------------------------------------------

theorem Recorded.gap (h : Recorded inferenceProfiles as mem)
    (hstart : Starts inferenceProfiles mem model resolved times) (hne : resolved ≠ model)
    (hclock : (times ++ [now]).Pairwise (· ≤ ·)) :
    ∀ t ∈ rejections model as, profileArnCooldownSeconds ≤ Double.sub now t := by
  intro t ht
  cases hstart with
  | unrecorded hnone =>
    have hempty : rejections model as = [] := by simpa [h.last] using hnone
    simp [hempty] at ht
  | recent => exact absurd rfl hne
  | @expired since start hfind hlate =>
    have hle := h.le_last hfind t ht
    have hstart : start ≤ now := by simpa using hclock
    exact (not_lt.mp hlate).trans (Double.sub_le_sub hstart hle)

theorem rejections_concat (model : String) (as : List Session) (x : Session) :
    rejections model (as ++ [x]) = rejections model as ++
      (recorded x.events).filterMap fun r => if r.1 = model then some r.2 else none := by
  simp [rejections]

theorem recorded_step (h : Recorded inferenceProfiles as mem)
    (hstep : Completes py inferenceProfiles x.request x.model mem mem' (sends x.events) (readings x.events)
      (recorded x.events) x.outcome)
    (hclock : (clockOf (as ++ [x])).Pairwise (· ≤ ·)) : Recorded inferenceProfiles (as ++ [x]) mem' := by
  have hreadings : clockOf [x] = readings x.events := by simp [clockOf]
  rw [clockOf_append, hreadings] at hclock
  have hrejections (model : String) := rejections_concat model as x
  generalize sends x.events = sent, readings x.events = times, recorded x.events = rejected,
    x.outcome = outcome at hstep hclock hreadings hrejections
  cases hstep with
  | stayed _ _ _ hpis =>
    have hsame (model : String) : rejections model (as ++ [x]) = rejections model as := by simp [hrejections]
    refine ⟨fun model => ?_, fun model => ?_, fun model => ?_⟩
    · rw [hpis, hsame]
      exact h.last model
    · rw [hsame]
      exact h.spaced model
    · rw [hsame]
      exact h.mapped model
  | @moved resolved start _ _ _ _ _ _ now hstart _ hne _ _ hpis =>
    have hgap := h.gap hstart hne (List.pairwise_append.mp hclock).2.1
    have hnew : rejections x.model (as ++ [x]) = rejections x.model as ++ [now] := by simp [hrejections]
    have hsame {model : String} (hm : model ≠ x.model) : rejections model (as ++ [x]) = rejections model as := by
      simp [hrejections, hm.symm]
    refine ⟨fun model => ?_, fun model => ?_, fun model hmem => ?_⟩
    · rw [hpis, find_set]
      by_cases hm : model = x.model
      · simp [hm, hnew]
      · simp [hm, hsame hm, h.last]
    · by_cases hm : model = x.model
      · rw [hm, hnew, List.pairwise_append]
        exact ⟨h.spaced x.model, by simp, by simpa using hgap⟩
      · rw [hsame hm]
        exact h.spaced model
    · by_cases hm : model = x.model
      · subst hm
        exact ⟨resolved, (starts_id hstart).resolve_left hne, hne⟩
      · exact h.mapped model (hsame hm ▸ hmem)

-- ---------------------------------------------------------------------------
-- What routing depends on
-- ---------------------------------------------------------------------------

/-- The operations of `resolveProfile`. -/
def Resolves (model : String) : Op → Prop
  | .invalidSince other => other = model
  | .monotonic | .warnUnmapped _ => True
  | _ => False

theorem lookupProfile_resolves (inferenceProfiles : List (String × String)) (model : String)
    {s : History Json × Unit} (h : ∀ e ∈ s.1, Resolves model e.op) :
    Program.Ensures (LTS.free fun _ => True).logged (fun s => ∀ e ∈ s.1, Resolves model e.op) (fun _ _ => True)
      (lookupProfile inferenceProfiles model).run s := by
  unfold lookupProfile
  cases profileOf inferenceProfiles model with
  | some arn => exact ⟨h, trivial⟩
  | none =>
    refine ask_ensures (.warnUnmapped model) h fun r t ht => ⟨?_, trivial⟩
    show ∀ e ∈ t.1, Resolves model e.op
    rw [ht.1]
    simpa [or_imp, forall_and, Resolves] using h

theorem resolveProfile_resolves (inferenceProfiles : List (String × String)) (model : String) :
    Program.Ensures (LTS.free fun _ => True).logged (fun s => ∀ e ∈ s.1, Resolves model e.op) (fun _ _ => True)
      (resolveProfile inferenceProfiles model).run ([], ()) := by
  refine ask_ensures (.invalidSince model) (by simp) fun (since : Option Rat) s hs => ?_
  have hlog : ∀ e ∈ s.1, Resolves model e.op := by simp [hs.1, Resolves]
  cases since with
  | none => exact lookupProfile_resolves inferenceProfiles model hlog
  | some since =>
    refine ask_ensures .monotonic hlog fun (now : Rat) t ht => ?_
    have hlog' : ∀ e ∈ t.1, Resolves model e.op := by
      rw [ht.1]
      simpa [or_imp, forall_and, Resolves] using hlog
    split
    · exact ⟨hlog', trivial⟩
    · exact lookupProfile_resolves inferenceProfiles model hlog'

theorem resolves_run {es : History Json} (hes : ∀ e ∈ es, Resolves model e.op)
    (h : (memory Json).Run mem es t)
    (hsame : find model mem'.profileInvalidSince = find model mem.profileInvalidSince) :
    ∃ t', (memory Json).Run mem' es t' := by
  induction es generalizing mem mem' with
  | nil => exact ⟨mem', .nil⟩
  | cons e rest ih =>
    obtain ⟨u, hstep, hrest⟩ := h.cons_inv
    obtain ⟨u', hstep', hsame'⟩ : ∃ u', (memory Json).step mem' e u' ∧
        find model u'.profileInvalidSince = find model u.profileInvalidSince := by
      obtain ⟨o, r⟩ := e
      have hop := hes ⟨o, r⟩ List.mem_cons_self
      cases o with
      | invalidSince other =>
        obtain rfl : other = model := hop
        obtain ⟨hr, rfl⟩ := hstep
        exact ⟨mem', ⟨hr.trans hsame.symm, rfl⟩, hsame⟩
      | monotonic =>
        obtain rfl : u = mem := hstep
        exact ⟨mem', rfl, hsame⟩
      | warnUnmapped other =>
        obtain rfl : u = _ := hstep
        exact ⟨_, rfl, hsame⟩
      | _ => exact hop.elim
    obtain ⟨t', ht'⟩ := ih (fun e he => hes e (List.mem_cons_of_mem _ he)) hrest hsame'
    exact ⟨t', .cons hstep' ht'⟩

/-- So two memories that agree on it route the model alike. -/
theorem routes_congr (hsame : find model mem'.profileInvalidSince = find model mem.profileInvalidSince) :
    Routes inferenceProfiles mem' model events resolved ↔ Routes inferenceProfiles mem model events resolved := by
  have hes (h : (Program.steps Op (Answer Json) (Result String)).Run (resolveProfile inferenceProfiles model).run
      events (.done (.ok resolved))) : ∀ e ∈ events, Resolves model e.op :=
    ((resolveProfile_resolves inferenceProfiles model).run h ((LTS.run_free fun _ _ => trivial).logged [])).1
  constructor
  · rintro ⟨hrun, t, ht⟩
    exact ⟨hrun, resolves_run (hes hrun) ht hsame.symm⟩
  · rintro ⟨hrun, t, ht⟩
    exact ⟨hrun, resolves_run (hes hrun) ht hsame⟩

theorem completes_other (h : Completes py inferenceProfiles request model mem mem' sent times rejected outcome)
    (hne : other ≠ model) : find other mem'.profileInvalidSince = find other mem.profileInvalidSince := by
  cases h with
  | stayed _ _ _ hpis => rw [hpis]
  | moved _ _ _ _ _ hpis => rw [hpis, find_set, if_neg hne]

-- ---------------------------------------------------------------------------
-- Whole runs
-- ---------------------------------------------------------------------------

theorem recorded_run (h : (sessions py inferenceProfiles).Run .fresh as mem)
    (hclock : (clockOf as).Pairwise (· ≤ ·)) : Recorded inferenceProfiles as mem := by
  refine h.trace_invariant (J := fun as mem => (clockOf as).Pairwise (· ≤ ·) →
    Recorded inferenceProfiles as mem) (fun _ => recorded_fresh inferenceProfiles) ?_ hclock
  intro as mem x mem' ih hstep hclock
  have hbefore : (clockOf as).Pairwise (· ≤ ·) := by
    rw [clockOf_append] at hclock
    exact (List.pairwise_append.mp hclock).1
  exact recorded_step (ih hbefore) (session_completes hstep) hclock

theorem profileOf_isSome (h : loadBedrockConfig py environ = .ok config) :
    (profileOf config.inferenceProfiles model).isSome ↔
      ∃ key arn, Configures py environ key arn ∧ resolveModelRef key = model := by
  rw [← profile_keys h]
  simp [profileOf]

theorem mem_of_profileOf (h : profileOf inferenceProfiles model = some arn) : (model, arn) ∈ inferenceProfiles := by
  obtain ⟨kv, hfind, rfl⟩ := Option.map_eq_some_iff.mp h
  obtain rfl : kv.1 = model := by simpa using List.find?_some hfind
  exact List.mem_of_find?_eq_some hfind

/-- Routing over a whole run of completions with a clock that does not go back.
Every call goes to the request's model or to an ARN configured for it. A
completion whose request can be built makes a call. It starts on the ARN exactly
when there is one and no rejection of it was recorded within the cooldown, so
rejections of one model's profile are at least a cooldown apart; and a
completion for one model never changes how another is routed. Seconds are what
the difference of two readings gives, which is a double. -/
theorem profile_routing (hconfig : loadBedrockConfig py environ = .ok config)
    (h : (sessions py config.inferenceProfiles).Run .fresh as mem) (hclock : (clockOf as).Pairwise (· ≤ ·)) :
    (∀ x ∈ as, ∀ call ∈ sends x.events, ∃ id, modelIdOf call.1 = some (.str id) ∧
      (id = x.model ∨ "arn:".toList <+: id.toList ∧
        ∃ key, Configures py environ key id ∧ resolveModelRef key = x.model)) ∧
    (∀ before x after, as = before ++ x :: after →
      (rejections x.model before ≠ [] → readings x.events ≠ []) ∧
      (∀ outputConfig, outputConfigOf py x.request = .ok outputConfig → sends x.events ≠ []) ∧
      ∀ call ∈ (sends x.events).head?,
        ((∃ arn, profileOf config.inferenceProfiles x.model = some arn ∧ modelIdOf call.1 = some (.str arn)) ↔
          (∃ key arn, Configures py environ key arn ∧ resolveModelRef key = x.model) ∧
            ∀ t ∈ rejections x.model before, ∀ now ∈ (readings x.events).head?,
              profileArnCooldownSeconds ≤ Double.sub now t)) ∧
    (∀ model, (rejections model as).Pairwise fun t t' => profileArnCooldownSeconds ≤ Double.sub t' t) ∧
    (∀ x mem', (sessions py config.inferenceProfiles).step mem x mem' → ∀ model, model ≠ x.model →
      ∀ events resolved, Routes config.inferenceProfiles mem' model events resolved ↔
        Routes config.inferenceProfiles mem model events resolved) := by
  refine ⟨fun x hx call hcall => ?_, ?_, (recorded_run h hclock).spaced, fun x mem' hstep model hne events resolved => ?_⟩
  · obtain ⟨before, after, rfl⟩ := List.append_of_mem hx
    obtain ⟨m, -, hrest⟩ := h.append_inv
    obtain ⟨m', hstep, -⟩ := hrest.cons_inv
    obtain ⟨id, hid, hmodel | hprofile⟩ := completes_ids (session_completes hstep) call hcall
    · exact ⟨id, hid, .inl hmodel⟩
    · obtain ⟨key, hkey, hresolve⟩ := configures_of_profile hconfig (mem_of_profileOf hprofile)
      exact ⟨id, hid, .inr ⟨arn_of_configures hkey, key, hkey, hresolve⟩⟩
  · rintro before x after rfl
    obtain ⟨m, hbefore, hrest⟩ := h.append_inv
    obtain ⟨m', hstep, -⟩ := hrest.cons_inv
    rw [clockOf_append] at hclock
    have hrecorded := recorded_run hbefore (List.pairwise_append.mp hclock).1
    obtain ⟨resolved, start, hstart, ⟨later, hlater⟩, hhead⟩ := completes_head (session_completes hstep)
    obtain ⟨hiff, hread⟩ := hrecorded.starts hstart
    rw [← hlater]
    refine ⟨fun hmem hnil => hread hmem (List.append_eq_nil_iff.mp hnil).1,
      fun _ hc => completes_sends (session_completes hstep) hc, fun call hcall => ?_⟩
    have hstarts : (∃ arn, profileOf config.inferenceProfiles x.model = some arn ∧ modelIdOf call.1 = some (.str arn)) ↔
        ∃ arn, profileOf config.inferenceProfiles x.model = some arn ∧ resolved = arn := by
      simp [hhead call hcall]
    have hnow (t : Rat) (ht : t ∈ rejections x.model before) : (start ++ later).head? = start.head? := by
      rw [List.head?_append]
      obtain ⟨now, rest, hcons⟩ := List.exists_cons_of_ne_nil (hread (List.ne_nil_of_mem ht))
      simp [hcons]
    rw [hstarts, hiff, profileOf_isSome hconfig]
    refine and_congr_right fun _ => forall_congr' fun t => forall_congr' fun ht => ?_
    rw [hnow t ht]
  · exact routes_congr (completes_other (session_completes hstep) hne)

-- ---------------------------------------------------------------------------
-- A profile that comes back
-- ---------------------------------------------------------------------------

def mappedStdlib : Stdlib :=
  { sampleStdlib with loads := fun _ => .ok (.dict [("mc:m", .str "arn:m"), ("n", .str "none")]) }

def mappedAnswer : Event (Answer Json) := ⟨.send (mappedCall "m" true), .ok (.dict [])⟩

def emptyResponse : Result LLMResponse := .ok ⟨.dict [("output_text", .str "")], .int 0, .int 0⟩

def rejectedSession : Session where
  request := mappedRequest
  events := [⟨.invalidSince "m", none⟩, ⟨.enter "m" false, ()⟩, ⟨.isLearned "m", false⟩,
    ⟨.send (mappedCall "arn:m" true), .error noSuchProfile⟩, ⟨.monotonic, (10 : Rat)⟩, ⟨.recordInvalid "m" 10, ()⟩,
    ⟨.enter "m" false, ()⟩, ⟨.isLearned "m", false⟩, mappedAnswer]
  outcome := emptyResponse

def laterSession (now : Rat) (id : String) : Session where
  request := mappedRequest
  events := [⟨.invalidSince "m", some (10 : Rat)⟩, ⟨.monotonic, now⟩, ⟨.enter "m" false, ()⟩,
    ⟨.isLearned "m", false⟩, ⟨.send (mappedCall id true), .ok (.dict [])⟩]
  outcome := emptyResponse

/-- The profile is not asked again at 100, but at 400. -/
def cooldownRun : List Session := [rejectedSession, laterSession 100 "m", laterSession 400 "arn:m"]

theorem cooldownRun_run :
    (sessions mappedStdlib [("m", "arn:m")]).Run .fresh cooldownRun ⟨[], [("m", 10)], []⟩ := by
  have hrejected : (sessions mappedStdlib [("m", "arn:m")]).step .fresh rejectedSession ⟨[], [("m", 10)], []⟩ := by
    constructor
    · exact .cons ⟨_, rfl, rfl⟩ (.cons ⟨_, rfl, rfl⟩ (.cons ⟨_, rfl, rfl⟩ (.cons ⟨_, rfl, rfl⟩
        (.cons ⟨_, rfl, rfl⟩ (.cons ⟨_, rfl, rfl⟩ (.cons ⟨_, rfl, rfl⟩ (.cons ⟨_, rfl, rfl⟩
        (.cons ⟨_, rfl, rfl⟩ .nil))))))))
    · exact .cons ⟨rfl, rfl⟩ (.cons rfl (.cons ⟨rfl, rfl⟩ (.cons rfl (.cons rfl (.cons rfl (.cons rfl
        (.cons ⟨rfl, rfl⟩ (.cons rfl .nil))))))))
  have hresolve (now : Rat) : (Program.steps Op (Answer Json) (Result String)).Run
      (resolveProfile [("m", "arn:m")] "m").run [⟨.invalidSince "m", some (10 : Rat)⟩, ⟨.monotonic, now⟩]
      (if Double.sub now 10 < profileArnCooldownSeconds then pure "m" else lookupProfile [("m", "arn:m")] "m" :
        Code Json String).run := .cons ⟨_, rfl, rfl⟩ (.cons ⟨_, rfl, rfl⟩ .nil)
  have hresting : (sessions mappedStdlib [("m", "arn:m")]).step ⟨[], [("m", 10)], []⟩ (laterSession 100 "m")
      ⟨[], [("m", 10)], []⟩ := by
    have hstart := hresolve 100
    rw [if_pos (by decide +kernel)] at hstart
    refine ⟨Program.run_bind hstart (.cons ⟨_, rfl, rfl⟩ (.cons ⟨_, rfl, rfl⟩ (.cons ⟨_, rfl, rfl⟩ .nil))), ?_⟩
    exact .cons ⟨rfl, rfl⟩ (.cons rfl (.cons rfl (.cons ⟨rfl, rfl⟩ (.cons rfl .nil))))
  have hreturned : (sessions mappedStdlib [("m", "arn:m")]).step ⟨[], [("m", 10)], []⟩ (laterSession 400 "arn:m")
      ⟨[], [("m", 10)], []⟩ := by
    have hstart := hresolve 400
    rw [if_neg (by decide +kernel)] at hstart
    refine ⟨Program.run_bind hstart (.cons ⟨_, rfl, rfl⟩ (.cons ⟨_, rfl, rfl⟩ (.cons ⟨_, rfl, rfl⟩ .nil))), ?_⟩
    exact .cons ⟨rfl, rfl⟩ (.cons rfl (.cons rfl (.cons ⟨rfl, rfl⟩ (.cons rfl .nil))))
  exact .cons hrejected (.cons hresting (.cons hreturned .nil))

theorem cooldownRun_routed :
    (∀ x ∈ cooldownRun, ∀ call ∈ sends x.events, ∃ id, modelIdOf call.1 = some (.str id) ∧
      (id = x.model ∨ "arn:".toList <+: id.toList ∧
        ∃ key, Configures mappedStdlib (fun _ => none) key id ∧ resolveModelRef key = x.model)) ∧
    ∀ model, (rejections model cooldownRun).Pairwise fun t t' => profileArnCooldownSeconds ≤ Double.sub t' t := by
  have hconfig : loadBedrockConfig mappedStdlib (fun _ => none) = .ok ⟨"us-east-1", [("m", "arn:m")]⟩ := rfl
  have hclock : (clockOf cooldownRun).Pairwise (· ≤ ·) := by decide +kernel
  obtain ⟨hcalls, -, hspaced, -⟩ := profile_routing hconfig cooldownRun_run hclock
  exact ⟨hcalls, hspaced⟩

end LlmWorker.Operations.Bedrock
