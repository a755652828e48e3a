import LlmWorker.Lib.Program
import LlmWorker.Python.Json
import Mathlib.Order.Lattice

/-!
# Publishing the worker info

`_maybe_publish_worker_info` with the write it makes, as a program that asks
for one operation after the other: the stop flag, the clock, the query of
`system.columns` and the insert. Whatever happens between two of them is left
to the environment. On a worker that is not stopping, the schedule of the
attempts follows from the readings and from the outcomes alone.
-/

namespace LlmWorker

open Python Transition

def workerInfoRepublishSeconds : Nat := 600
def workerInfoRetrySeconds : Nat := 30

structure WorkerInfo where
  cloud : String
  provider : String
  capabilities : List String
  deriving DecidableEq

/-- A row of `llm_worker_info`, on an older chart without its capabilities. -/
structure WorkerInfoRow where
  cloud : String
  provider : String
  capabilities : Option (List String)
  deriving DecidableEq

def WorkerInfo.row (info : WorkerInfo) (hasCapabilities : Bool) : WorkerInfoRow :=
  ⟨info.cloud, info.provider, if hasCapabilities then some info.capabilities else none⟩

namespace Publishing

inductive Op
  | shouldStop
  | monotonic
  | countColumns
  | insert (row : WorkerInfoRow)
  deriving DecidableEq

def Answer (τ : Type) : Op → Type
  | .shouldStop => Bool
  | .monotonic => τ
  | .countColumns => Result Nat
  | .insert _ => Result Unit

abbrev Code (τ α : Type) := ExceptT Exc (Program Op (Answer τ)) α

-- ---------------------------------------------------------------------------
-- The code
-- ---------------------------------------------------------------------------

section
variable {τ : Type}

def shouldStop : Code τ Bool := ExceptT.lift (Program.ask .shouldStop .done)
def monotonic : Code τ τ := ExceptT.lift (Program.ask .monotonic .done)

/-- `_client.query`, which raises what the server answers. -/
def countColumns : Code τ Nat := ExceptT.mk (Program.ask .countColumns .done)

def insert (row : WorkerInfoRow) : Code τ Unit := ExceptT.mk (Program.ask (.insert row) .done)

def hasCapabilitiesColumn : Code τ Bool := do
  return decide (0 < (← countColumns))

def writeWorkerInfo (info : WorkerInfo) : Code τ Unit := do
  insert (info.row (← hasCapabilitiesColumn))

/-- A write that cannot stop the worker; `plus` adds seconds to a reading, with
whatever rounding. The result is the next value of `_worker_info_next_at`. -/
def publishAt (plus : τ → Nat → τ) (info : WorkerInfo) (now : τ) : Code τ (Option τ) :=
  tryCatch
    (do
      writeWorkerInfo info
      return some (plus now workerInfoRepublishSeconds))
    fun _ => return some (plus now workerInfoRetrySeconds)

variable [LinearOrder τ] (plus : τ → Nat → τ) (info : WorkerInfo)

def publishIfDue (nextAt : Option τ) : Code τ (Option τ) := do
  let now : τ ← monotonic
  if nextAt.any fun t => now < t then
    return nextAt
  else
    publishAt plus info now

def maybePublishWorkerInfo (nextAt : Option τ) : Code τ (Option τ) := do
  let stop : Bool ← shouldStop
  if stop then
    return nextAt
  else
    publishIfDue plus info nextAt

end

-- ---------------------------------------------------------------------------
-- Calls that nothing interrupts
-- ---------------------------------------------------------------------------

/-- What one call meets: a clock reading, and what the server answers. -/
structure Call (τ : Type) where
  now : τ
  columns : Result Nat
  inserted : Result Unit

namespace Call

variable {τ : Type} (c : Call τ)

def write : Result Unit := do
  let _ ← c.columns
  c.inserted

/-- The next time, after a call that attempts a write. -/
def due (plus : τ → Nat → τ) : τ :=
  match c.write with
  | .ok () => plus c.now workerInfoRepublishSeconds
  | .error _ => plus c.now workerInfoRetrySeconds

/-- The answers on a worker that is not stopping, with a log of the questions. -/
def serve : (o : Op) → List Op → Answer τ o × List Op
  | .shouldStop, log => (false, log ++ [.shouldStop])
  | .monotonic, log => (c.now, log ++ [.monotonic])
  | .countColumns, log => (c.columns, log ++ [.countColumns])
  | .insert row, log => (c.inserted, log ++ [.insert row])

end Call

section
variable {τ : Type} [LinearOrder τ] (plus : τ → Nat → τ) (info : WorkerInfo)

def publish (nextAt : Option τ) (c : Call τ) : Result (Option τ) × List Op :=
  (maybePublishWorkerInfo plus info nextAt).run.interp c.serve []

theorem publish_early {nextAt : Option τ} {c : Call τ} (h : nextAt.any (fun t => c.now < t) = true) :
    publish plus info nextAt c = (.ok nextAt, [.shouldStop, .monotonic]) := by
  show Program.interp _ (ite (nextAt.any (fun t => c.now < t) = true) _ _ : Code τ (Option τ)).run _ = _
  rw [if_pos h]
  rfl

theorem publish_due {nextAt : Option τ} {c : Call τ} (h : nextAt.any (fun t => c.now < t) = false) :
    ∃ rows, publish plus info nextAt c =
      (.ok (some (c.due plus)), [.shouldStop, .monotonic, .countColumns] ++ rows) := by
  have hrest : publish plus info nextAt c = (publishAt plus info c.now).run.interp c.serve [.shouldStop, .monotonic] := by
    show Program.interp _ (ite (nextAt.any (fun t => c.now < t) = true) _ _ : Code τ (Option τ)).run _ = _
    rw [if_neg (by simp [h])]
    rfl
  rw [hrest]
  obtain ⟨now, columns, inserted⟩ := c
  cases columns with
  | error e => exact ⟨[], rfl⟩
  | ok n =>
    refine ⟨[.insert (info.row (decide (0 < n)))], ?_⟩
    cases inserted <;> rfl

def attempts (asked : List Op) : Bool := decide (Op.countColumns ∈ asked)

/-- One call after the other, and which of them attempt a write. -/
def schedule (nextAt : Option τ) : List (Call τ) → Result (List Bool)
  | [] => return []
  | c :: calls => do
    let (result, asked) := publish plus info nextAt c
    return attempts asked :: (← schedule (← result) calls)

variable {plus info}

theorem schedule_early {nextAt : Option τ} {c : Call τ} (h : nextAt.any (fun t => c.now < t) = true)
    (hcalls : schedule plus info nextAt calls = .ok attempted) :
    schedule plus info nextAt (c :: calls) = .ok (false :: attempted) := by
  simp only [schedule, publish_early plus info h, ok_bind, hcalls]
  rfl

theorem schedule_due {nextAt : Option τ} {c : Call τ} (h : nextAt.any (fun t => c.now < t) = false)
    (hcalls : schedule plus info (some (c.due plus)) calls = .ok attempted) :
    schedule plus info nextAt (c :: calls) = .ok (true :: attempted) := by
  obtain ⟨rows, hpublish⟩ := publish_due plus info h
  have hattempts : attempts ([.shouldStop, .monotonic, .countColumns] ++ rows) = true := by simp [attempts]
  simp only [schedule, hpublish, ok_bind, hcalls, hattempts]
  rfl

theorem schedule_ok (nextAt : Option τ) (calls : List (Call τ)) :
    ∃ attempted, schedule plus info nextAt calls = .ok attempted ∧ attempted.length = calls.length := by
  induction calls generalizing nextAt with
  | nil => exact ⟨[], rfl, rfl⟩
  | cons c calls ih =>
    cases hdue : nextAt.any fun t => decide (c.now < t) with
    | true =>
      obtain ⟨attempted, hok, hlength⟩ := ih nextAt
      exact ⟨_, schedule_early hdue hok, congrArg (· + 1) hlength⟩
    | false =>
      obtain ⟨attempted, hok, hlength⟩ := ih (some (c.due plus))
      exact ⟨_, schedule_due hdue hok, congrArg (· + 1) hlength⟩

theorem schedule_cons_inv {nextAt : Option τ} {c : Call τ}
    (h : schedule plus info nextAt (c :: calls) = .ok attempted) :
    (nextAt.any (fun t => c.now < t) = true ∧
        ∃ rest, attempted = false :: rest ∧ schedule plus info nextAt calls = .ok rest) ∨
      nextAt.any (fun t => c.now < t) = false ∧
        ∃ rest, attempted = true :: rest ∧ schedule plus info (some (c.due plus)) calls = .ok rest := by
  cases hdue : nextAt.any fun t => decide (c.now < t) with
  | true =>
    obtain ⟨rest, hok, -⟩ := schedule_ok nextAt calls
    rw [schedule_early hdue hok] at h
    exact .inl ⟨rfl, rest, (Except.ok.inj h).symm, hok⟩
  | false =>
    obtain ⟨rest, hok, -⟩ := schedule_ok (some (c.due plus)) calls
    rw [schedule_due hdue hok] at h
    exact .inr ⟨rfl, rest, (Except.ok.inj h).symm, hok⟩

theorem schedule_first {due : τ} (h : schedule plus info (some due) calls = .ok attempted) :
    attempted.findIdx? id = calls.findIdx? fun d => due ≤ d.now := by
  induction calls generalizing attempted with
  | nil =>
    cases h
    rfl
  | cons c calls ih =>
    rw [List.findIdx?_cons]
    rcases schedule_cons_inv h with ⟨hearly, rest, rfl, hrest⟩ | ⟨hdue, rest, rfl, -⟩
    · have hlt : ¬due ≤ c.now := not_le.mpr (by simpa using hearly)
      simp [List.findIdx?_cons, ih hrest, hlt]
    · have hle : due ≤ c.now := not_lt.mp (by simpa using hdue)
      simp [List.findIdx?_cons, hle]

/-- After an attempt, the next one is the first later call at its next time. -/
theorem schedule_next {nextAt : Option τ} (h : schedule plus info nextAt calls = .ok attempted)
    (hc : calls[i]? = some c) (hi : attempted[i]? = some true) :
    (attempted.drop (i + 1)).findIdx? id = (calls.drop (i + 1)).findIdx? fun d => c.due plus ≤ d.now := by
  induction calls generalizing nextAt attempted i with
  | nil => cases hc
  | cons d calls ih =>
    rcases schedule_cons_inv h with ⟨-, rest, rfl, hrest⟩ | ⟨-, rest, rfl, hrest⟩
    · cases i with
      | zero => cases hi
      | succ i => exact ih hrest hc hi
    · cases i with
      | zero =>
        cases hc
        exact schedule_first hrest
      | succ i => exact ih hrest hc hi

end

/-- The publishing schedule: no exception escapes, the first call attempts a
write, and after an attempt the next one is the first later call whose reading
has reached 600 seconds more, or 30 seconds more if the write raised. -/
theorem publishing_schedule {τ : Type} [LinearOrder τ] (plus : τ → Nat → τ) (info : WorkerInfo)
    (calls : List (Call τ)) : ∃ attempted, schedule plus info none calls = .ok attempted ∧
      attempted.length = calls.length ∧ (calls ≠ [] → attempted[0]? = some true) ∧
      ∀ i c, calls[i]? = some c → attempted[i]? = some true →
        (attempted.drop (i + 1)).findIdx? id = (calls.drop (i + 1)).findIdx? fun d =>
          (match c.write with
            | .ok () => plus c.now 600
            | .error _ => plus c.now 30) ≤ d.now := by
  obtain ⟨attempted, hok, hlength⟩ := schedule_ok none calls
  refine ⟨attempted, hok, hlength, fun hne => ?_, fun i c hc hi => schedule_next hok hc hi⟩
  cases calls with
  | nil => exact absurd rfl hne
  | cons c calls =>
    rcases schedule_cons_inv hok with ⟨hearly, -⟩ | ⟨-, rest, rfl, -⟩
    · cases hearly
    · rfl

end Publishing

end LlmWorker
