import LlmWorker.Executor.Yield

/-!
# Where a result comes from

A row completes with the answer to the last call of an attempt at that row,
fails with the error of its own parsing or of that last call, and is given up
with its batch only when the last call for some row of the batch says so. This
holds of every result that the iteration yields, in whatever order the threads
run.
-/

namespace LlmWorker

open Python

/-- A call of the provider for a row, with the attempts left after it, and its
answer. -/
structure Call where
  row : LLMInput
  request : ContractRequest
  left : Nat
  outcome : Result LLMResponse
  deriving DecidableEq

namespace BatchExecutor

abbrev MayAnswer := ContractRequest → Result LLMResponse → Prop

/-- `invoke` concludes with the answer of the call. -/
def Last (x : BatchExecutor) (c : Call) : Prop := ¬(0 < c.left ∧ x.retryable c.outcome = true)

/-- One of the calls `made` is the last one of an attempt at the row. -/
inductive EndsIn (x : BatchExecutor) (made : Call → Prop) (row : LLMInput) (outcome : Result LLMResponse) : Prop
  | call (hparse : x.parseRow row = .ok request) (hmade : made ⟨row, request, left, outcome⟩)
      (hlast : x.Last ⟨row, request, left, outcome⟩) : EndsIn x made row outcome

/-- The exceptions in which an attempt at the row ends. -/
inductive FailsWith (x : BatchExecutor) (made : Call → Prop) (row : LLMInput) (e : Exc) : Prop
  | refused (h : x.EndsIn made row (.error e)) : FailsWith x made row e
  | unwritable (h : x.EndsIn made row (.ok response)) (hdumps : x.py.dumps response.output = .error e) :
      FailsWith x made row e

def Doomed (x : BatchExecutor) (made : Call → Prop) (R : LLMInput → Prop) : Prop :=
  ∃ row e, R row ∧ x.FailsWith made row e ∧ x.classifyError e = .abortBatch

/-- The results that a row of a batch with the rows `R` gets from the calls `made`. -/
inductive Earns (x : BatchExecutor) (made : Call → Prop) (R : LLMInput → Prop) (row : LLMInput) : LLMResult → Prop
  | completed (h : x.EndsIn made row (.ok response)) (hdumps : x.py.dumps response.output = .ok text) :
      Earns x made R row (row.completed text)
  | malformed (hparse : x.parseRow row = .error e) (herror : rowError e = some text) :
      Earns x made R row (row.failed text)
  | failed (h : x.FailsWith made row e) : Earns x made R row (row.failed e.text)
  | aborted (h : x.Doomed made R) : Earns x made R row (abortedResult row)

variable {x : BatchExecutor} {made made' : Call → Prop} {R R' : LLMInput → Prop} {row : LLMInput}

theorem EndsIn.mono (h : x.EndsIn made row outcome) (hmade : ∀ c, made c → made' c) : x.EndsIn made' row outcome := by
  obtain ⟨hparse, hcall, hlast⟩ := h
  exact .call hparse (hmade _ hcall) hlast

theorem FailsWith.mono (h : x.FailsWith made row e) (hmade : ∀ c, made c → made' c) : x.FailsWith made' row e := by
  cases h with
  | refused h => exact .refused (h.mono hmade)
  | unwritable h hdumps => exact .unwritable (h.mono hmade) hdumps

theorem Doomed.mono (h : x.Doomed made R) (hmade : ∀ c, made c → made' c) (hR : ∀ row, R row → R' row) :
    x.Doomed made' R' := by
  obtain ⟨row, e, hrow, hfails, habort⟩ := h
  exact ⟨row, e, hR row hrow, hfails.mono hmade, habort⟩

theorem Earns.mono (h : x.Earns made R row result) (hmade : ∀ c, made c → made' c) (hR : ∀ row, R row → R' row) :
    x.Earns made' R' row result := by
  cases h with
  | completed h hdumps => exact .completed (h.mono hmade) hdumps
  | malformed hparse herror => exact .malformed hparse herror
  | failed h => exact .failed (h.mono hmade)
  | aborted h => exact .aborted (h.mono hmade hR)

theorem Earns.key (h : x.Earns made R row result) : result.key = row.key := by
  cases h <;> rfl

/-- What a thread has in its hands. -/
def Earned (x : BatchExecutor) (made : Call → Prop) (R : LLMInput → Prop) (row : LLMInput) : FutureState → Prop
  | .pending | .running .entered => True
  | .running (.attempting request _) | .running (.calling request _) => x.parseRow row = .ok request
  | .running (.aborting result) => x.Doomed made R ∧ x.Earns made R row result
  | .running (.returning result) | .finished result => x.Earns made R row result
  | .running (.raising e) | .raised e => x.parseRow row = .error e ∧ rowError e = none
  | .cancelled => x.Doomed made R

theorem Earned.mono (h : x.Earned made R row st) (hmade : ∀ c, made c → made' c) (hR : ∀ row, R row → R' row) :
    x.Earned made' R' row st := by
  cases st with
  | running phase =>
    cases phase with
    | aborting result => exact ⟨h.1.mono hmade hR, h.2.mono hmade hR⟩
    | returning result => exact Earns.mono h hmade hR
    | _ => exact h
  | finished result => exact Earns.mono h hmade hR
  | cancelled => exact Doomed.mono h hmade hR
  | _ => exact h

theorem earned_enter (x : BatchExecutor) (made : Call → Prop) (R : LLMInput → Prop) (row : LLMInput) :
    x.Earned made R row (.running (x.enter row)) := by
  unfold enter
  split
  · assumption
  · rename_i e hparse
    split
    · rename_i text herror
      exact .malformed hparse herror
    · rename_i hnone
      exact ⟨hparse, hnone⟩

theorem earned_react (hrow : R row) (hparse : x.parseRow row = .ok request)
    (hmade : made ⟨row, request, left, outcome⟩) :
    x.Earned made R row (.running (x.react row request left outcome)) := by
  have fails {e : Exc} (h : x.FailsWith made row e) : x.Earned made R row (.running
      (if x.classifyError e = .abortBatch then .aborting (row.failed e.text) else .returning (row.failed e.text))) := by
    split
    · rename_i habort
      exact ⟨⟨row, e, hrow, h, habort⟩, .failed h⟩
    · exact .failed h
  unfold react
  split
  · exact hparse
  · rename_i hlast
    have hends : x.EndsIn made row outcome := .call hparse hmade hlast
    unfold conclude
    cases outcome with
    | error e => simpa [bind, Except.bind] using fails (.refused hends)
    | ok response =>
      cases hdumps : x.py.dumps response.output with
      | ok text => simpa [Earned, bind, Except.bind, hdumps] using Earns.completed hends hdumps
      | error e => simpa [bind, Except.bind, hdumps] using fails (.unwritable hends hdumps)

def asked (row : LLMInput) : FutureState → ThreadAction → Option Call
  | .running (.calling request left), .answer outcome => some ⟨row, request, left, outcome⟩
  | _, _ => none

theorem earned_step (he : x.Earned made R row st) (hrow : R row) (hset : a = .check true → x.Doomed made R)
    (hmade : ∀ c ∈ asked row st a, made c) (h : x.threadStep row st a = some st') : x.Earned made R row st' := by
  cases st with
  | pending =>
    cases a <;> simp [threadStep] at h
    subst h
    trivial
  | running phase =>
    cases phase <;> cases a <;> simp [threadStep, phaseStep] at h
    case entered.check isSet =>
      subst h
      cases isSet with
      | true => exact .aborted (hset rfl)
      | false => simpa using earned_enter x made R row
    case attempting.call => subst h; exact he
    case calling.answer request left outcome =>
      subst h
      exact earned_react hrow he (hmade ⟨row, request, left, outcome⟩ rfl)
    case aborting.set => subst h; exact he.2
    case returning.ret => obtain ⟨rfl, rfl⟩ := h; exact he
    case raising.raise => obtain ⟨rfl, rfl⟩ := h; exact he
  | _ => simp [threadStep] at h

theorem doomed_of_set (he : x.Earned made R row st) (h : x.threadStep row st .set = some st') : x.Doomed made R := by
  cases st with
  | running phase =>
    cases phase <;> simp [threadStep, phaseStep] at h
    exact he.1
  | _ => simp [threadStep] at h

end BatchExecutor

namespace Pool

open BatchExecutor (Doomed Earns)

structure Earned (x : BatchExecutor) (made : Call → Prop) (R : LLMInput → Prop) (p : Pool) : Prop where
  futures : ∀ f ∈ p.futures, R f.row ∧ x.Earned made R f.row f.state
  pending : ∀ row ∈ p.pendingInputs, R row
  inFlight : ∀ e ∈ p.inFlight, R e.2
  aborted : ∀ row ∈ p.abortedRows, R row ∧ x.Doomed made R
  event : p.abortEvent = true → x.Doomed made R
  pc : match p.pc with
    | .cancelling (_ :: _) => x.Doomed made R
    | .collecting rest => ∀ e ∈ rest, R e.2
    | .emitting rest => ∀ row ∈ rest, R row ∧ x.Doomed made R
    | _ => True

variable {x : BatchExecutor} {made made' : Call → Prop} {R R' : LLMInput → Prop}

theorem Earned.mono (h : Earned x made R p) (hmade : ∀ c, made c → made' c) (hR : ∀ row, R row → R' row) :
    Earned x made' R' p where
  futures f hf := (h.futures f hf).imp (hR _) (·.mono hmade hR)
  pending row hrow := hR row (h.pending row hrow)
  inFlight e he := hR _ (h.inFlight e he)
  aborted row hrow := (h.aborted row hrow).imp (hR row) (·.mono hmade hR)
  event hset := (h.event hset).mono hmade hR
  pc := by
    have hpc := h.pc
    cases hp : p.pc with
    | cancelling rest =>
      rw [hp] at hpc
      cases rest with
      | nil => trivial
      | cons e rest => exact Doomed.mono hpc hmade hR
    | collecting rest =>
      rw [hp] at hpc
      exact fun e he => hR _ (hpc e he)
    | emitting rest =>
      rw [hp] at hpc
      exact fun row hrow => (hpc row hrow).imp (hR row) (·.mono hmade hR)
    | _ => trivial

theorem earned_start (h : ∀ row ∈ inputs, R row) : Earned x made R (start inputs) :=
  ⟨by simp [start], h, by simp [start], by simp [start], by simp [start], trivial⟩

def asked (p : Pool) : PoolAction → Option Call
  | .thread i a => p.futures[i]?.bind fun f => BatchExecutor.asked f.row f.state a
  | .main _ => none

theorem earned_thread (he : Earned x made R p) (hmade : ∀ c ∈ p.asked (.thread i a), made c)
    (h : threadStep x p i a = some p') : Earned x made R p' := by
  obtain ⟨f, st, hf, hsees, hst, rfl⟩ := threadStep_inv h
  obtain ⟨hrow, hstate⟩ := he.futures f (List.mem_of_getElem? hf)
  have hstep : x.Earned made R f.row st := by
    refine BatchExecutor.earned_step hstate hrow (fun ha => ?_) (fun c hc => hmade c ?_) hst
    · subst ha
      have hset : true = p.abortEvent := by simpa [sees] using hsees
      exact he.event hset.symm
    · simpa [asked, hf] using hc
  refine ⟨fun g hg => ?_, he.pending, he.inFlight, he.aborted, fun hset => ?_, he.pc⟩
  · rcases List.mem_or_eq_of_mem_set hg with hmem | rfl
    · exact he.futures g hmem
    · exact ⟨hrow, hstep⟩
  · by_cases ha : a = .set
    · subst ha
      exact BatchExecutor.doomed_of_set hstate hst
    · exact he.event (by simpa [ha] using hset)

theorem Earned.state (he : Earned x made R p) (hst : p.stateOf i = some st) :
    ∃ row, R row ∧ x.Earned made R row st := by
  obtain ⟨f, hf, rfl⟩ := stateOf_eq_some.mp hst
  obtain ⟨hrow, hstate⟩ := he.futures f (List.mem_of_getElem? hf)
  exact ⟨f.row, hrow, hstate⟩

theorem earned_main (he : Earned x made R p) (h : MainStep x p p' out) :
    Earned x made R p' ∧ ∀ result ∈ out, ∃ row, R row ∧ x.Earns made R row result := by
  have hpc' := he.pc
  cases h with
  | @submit row rest hpc hrow =>
    have hR : ∀ r ∈ row :: rest, R r := fun r hr => he.pending r (hrow ▸ hr)
    refine ⟨⟨fun f hf => ?_, fun r hr => hR r (List.mem_cons_of_mem _ hr), fun e hin => ?_, he.aborted, he.event,
      by simp [submit, hpc]⟩, by simp⟩
    · rcases List.mem_append.mp hf with hmem | hnew
      · exact he.futures f hmem
      · obtain rfl : f = _ := by simpa using hnew
        exact ⟨hR row (by simp), trivial⟩
    · rcases List.mem_append.mp hin with hmem | hnew
      · exact he.inFlight e hmem
      · obtain rfl : e = _ := by simpa using hnew
        exact hR row (by simp)
  | filled | woken | idle | drained | refill | unwound =>
    exact ⟨⟨he.futures, he.pending, he.inFlight, he.aborted, he.event, trivial⟩, by simp⟩
  | drain hpc hst =>
    refine ⟨⟨he.futures, he.pending, fun e hin => he.inFlight e (mem_del.mp hin).1, he.aborted, he.event, trivial⟩, ?_⟩
    rintro result ⟨⟩
    exact he.state hst
  | drainRaised =>
    exact ⟨⟨he.futures, he.pending, fun e hin => he.inFlight e (mem_del.mp hin).1, he.aborted, he.event, trivial⟩,
      by simp⟩
  | abort hpc hset =>
    have hdoomed := he.event hset
    refine ⟨⟨he.futures, by simp, he.inFlight, fun row hrow => ?_, he.event, ?_⟩, by simp⟩
    · rcases List.mem_append.mp hrow with hold | hnew
      · exact he.aborted row hold
      · exact ⟨he.pending row hnew, hdoomed⟩
    · cases p.inFlight with
      | nil => trivial
      | cons e rest => exact hdoomed
  | @cancel i row rest hpc =>
    rw [hpc] at hpc'
    refine ⟨⟨fun f hf => ?_, he.pending, he.inFlight, he.aborted, he.event, ?_⟩, by simp⟩
    · obtain ⟨j, hj⟩ := List.mem_iff_getElem?.mp hf
      rw [getElem?_cancel] at hj
      obtain ⟨g, hg, rfl⟩ := Option.map_eq_some_iff.mp hj
      obtain ⟨hrow, hstate⟩ := he.futures g (List.mem_of_getElem? hg)
      split
      · refine ⟨hrow, ?_⟩
        show x.Earned made R g.row g.state.cancel
        cases hs : g.state with
        | pending => exact hpc'
        | _ => rw [hs] at hstate; exact hstate
      · exact ⟨hrow, hstate⟩
    · cases rest with
      | nil => trivial
      | cons e rest => exact hpc'
  | cancelled => exact ⟨⟨he.futures, he.pending, he.inFlight, he.aborted, he.event, he.inFlight⟩, by simp⟩
  | @keep i row rest hpc hst =>
    rw [hpc] at hpc'
    obtain ⟨_, -, hdoomed⟩ := he.state hst
    refine ⟨⟨he.futures, he.pending, he.inFlight, fun r hr => ?_, he.event,
      fun e hin => hpc' e (List.mem_cons_of_mem _ hin)⟩, by simp⟩
    rcases List.mem_append.mp hr with hold | hnew
    · exact he.aborted r hold
    · obtain rfl : r = row := by simpa using hnew
      exact ⟨hpc' (i, r) (by simp), hdoomed⟩
  | collect hpc hst =>
    rw [hpc] at hpc'
    refine ⟨⟨he.futures, he.pending, he.inFlight, he.aborted, he.event,
      fun e hin => hpc' e (List.mem_cons_of_mem _ hin)⟩, ?_⟩
    rintro result ⟨⟩
    exact he.state hst
  | collectRaised | collected | emitted =>
    exact ⟨⟨he.futures, he.pending, he.inFlight, he.aborted, he.event, trivial⟩, by simp⟩
  | closed => exact ⟨⟨he.futures, he.pending, he.inFlight, he.aborted, he.event, he.aborted⟩, by simp⟩
  | @emit row rest hpc =>
    rw [hpc] at hpc'
    refine ⟨⟨he.futures, he.pending, he.inFlight, he.aborted, he.event,
      fun r hr => hpc' r (List.mem_cons_of_mem _ hr)⟩, ?_⟩
    rintro result ⟨⟩
    obtain ⟨hrow, hdoomed⟩ := hpc' row (by simp)
    exact ⟨row, hrow, .aborted hdoomed⟩

end Pool

end LlmWorker
