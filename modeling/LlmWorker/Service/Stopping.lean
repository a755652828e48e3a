import LlmWorker.Service.Worker
import LlmWorker.Service.WorkerInfo

/-!
# Stopping while publishing

The workers again, now with their publishing: at the top of the poll loop and
after each page a worker calls `_maybe_publish_worker_info`, and it asks for
one operation of that call at a time. The signal handler can run before any of
them. `llm_worker_info` is only written to, so what it holds is read off the
inserts of a run.
-/

namespace LlmWorker

open Python Transition Publishing

/-- A worker and, while it publishes, the rest of the call under way. `nextAt` is
`_worker_info_next_at`. -/
structure Publisher (τ : Type) where
  info : WorkerInfo
  worker : Worker
  nextAt : Option τ
  publishing : Option (Program Op (Answer τ) (Result (Option τ)))

/-- `readStop` to `insert` are the operations of a call, with their answers. -/
inductive PublisherAction (τ : Type)
  | worker (a : WorkerAction)
  | readStop
  | readClock (now : τ)
  | countColumns (answer : Result Nat)
  | insert (row : WorkerInfoRow) (answer : Result Unit)
  | leave
  deriving DecidableEq

namespace Publisher

variable {τ : Type} [LinearOrder τ]

def down (info : WorkerInfo) : Publisher τ := ⟨info, .down, none, none⟩

def mainThread : WorkerAction → Bool
  | .next | .poll | .readError => true
  | .batch (.pool (.thread ..)) => false
  | .batch _ => true
  | .start | .crash | .signal | .leftover .. => false

/-- The two call sites: before the query for pending batches, and at the end of a page. -/
def callsPublish (worker worker' : Worker) : WorkerAction → Bool
  | .next => worker.pc = .polling ∧ worker'.pc = .querying
  | .batch .next =>
    match worker'.pc with
    | .processing batch _ => batch.pc = .fetching
    | _ => false
  | _ => false

variable (cfg : ServiceConfig) (plus : τ → Nat → τ)

def after (w : Publisher τ) (a : WorkerAction) (worker' : Worker) : Publisher τ :=
  match a with
  | .start => { w with worker := worker', nextAt := none, publishing := none }
  | .crash => { w with worker := worker', publishing := none }
  | a =>
    if callsPublish w.worker worker' a then
      { w with worker := worker', publishing := some (maybePublishWorkerInfo plus w.info w.nextAt).run }
    else
      { w with worker := worker' }

def goOn (w : Publisher τ) : PublisherAction τ → Option (Publisher τ)
  | .worker _ => none
  | .readStop =>
    match w.publishing with
    | some (.ask .shouldStop next) => some { w with publishing := some (next w.worker.shouldStop) }
    | _ => none
  | .readClock now =>
    match w.publishing with
    | some (.ask .monotonic next) => some { w with publishing := some (next now) }
    | _ => none
  | .countColumns answer =>
    match w.publishing with
    | some (.ask .countColumns next) => some { w with publishing := some (next answer) }
    | _ => none
  | .insert row answer =>
    match w.publishing with
    | some (.ask (.insert row') next) =>
      if row = row' then some { w with publishing := some (next answer) } else none
    | _ => none
  | .leave =>
    match w.publishing with
    | some (.done (.ok nextAt)) => some { w with nextAt := nextAt, publishing := none }
    | _ => none

def step (s : Store) (w : Publisher τ) : PublisherAction τ → Option (Store × Publisher τ)
  | .worker a =>
    if mainThread a ∧ w.publishing.isSome then
      none
    else
      (w.worker.step cfg s a).map fun r => (r.1, w.after plus a r.2)
  | a => (w.goOn a).map fun w' => (s, w')

inductive Step (s : Store) (w : Publisher τ) : PublisherAction τ → Store → Publisher τ → Prop
  | worker (hmain : mainThread a = true → w.publishing = none) (h : w.worker.step cfg s a = some (s', worker')) :
      Step s w (.worker a) s' (w.after plus a worker')
  | readStop (h : w.publishing = some (.ask .shouldStop next)) :
      Step s w .readStop s { w with publishing := some (next w.worker.shouldStop) }
  | readClock (h : w.publishing = some (.ask .monotonic next)) :
      Step s w (.readClock now) s { w with publishing := some (next now) }
  | countColumns (h : w.publishing = some (.ask .countColumns next)) :
      Step s w (.countColumns answer) s { w with publishing := some (next answer) }
  | insert (h : w.publishing = some (.ask (.insert row) next)) :
      Step s w (.insert row answer) s { w with publishing := some (next answer) }
  | leave (h : w.publishing = some (.done (.ok next))) :
      Step s w .leave s { w with nextAt := next, publishing := none }

variable {cfg plus}

@[simp] theorem worker_after (w : Publisher τ) (a : WorkerAction) (worker' : Worker) :
    (w.after plus a worker').worker = worker' := by
  unfold after
  split
  · rfl
  · rfl
  · split <;> rfl

theorem goOn_inv {w : Publisher τ} (h : w.goOn a = some w') : Step cfg plus s w a s w' := by
  cases a with
  | worker => cases h
  | readStop =>
    simp only [goOn] at h
    split at h <;> cases h
    exact .readStop ‹_›
  | readClock =>
    simp only [goOn] at h
    split at h <;> cases h
    exact .readClock ‹_›
  | countColumns =>
    simp only [goOn] at h
    split at h <;> cases h
    exact .countColumns ‹_›
  | insert =>
    simp only [goOn] at h
    split at h
    · split at h <;> cases h
      subst_vars
      exact .insert ‹_›
    · cases h
  | leave =>
    simp only [goOn] at h
    split at h <;> cases h
    exact .leave ‹_›

theorem step_inv {w : Publisher τ} (h : step cfg plus s w a = some (s', w')) : Step cfg plus s w a s' w' := by
  cases a with
  | worker a =>
    simp only [step] at h
    split at h
    · cases h
    · rename_i hidle
      obtain ⟨⟨s'', worker'⟩, hworker, hpair⟩ := Option.map_eq_some_iff.mp h
      cases hpair
      refine .worker (fun hmain => ?_) hworker
      simpa [hmain] using hidle
  | _ =>
    obtain ⟨w'', hgo, hpair⟩ := Option.map_eq_some_iff.mp h
    cases hpair
    exact goOn_inv hgo

end Publisher

section
variable {ι : Type} [DecidableEq ι] {τ : Type} [LinearOrder τ]

def publishers (cfg : ServiceConfig) (plus : τ → Nat → τ) : Shared Store ι (Publisher τ) (PublisherAction τ) EnvAction :=
  .ofFn (fun s w => s = .empty ∧ ∀ i, w i = .down (w i).info) (Publisher.step cfg plus) Store.env

/-- Publishing aside, the workers are those of `service`. -/
theorem publishers_refine (cfg : ServiceConfig) (plus : τ → Nat → τ) :
    (publishers cfg plus : Shared Store ι _ _ _).lts.Refines (service cfg : Shared Store ι _ _ _).lts
      fun s => (s.1, Publisher.worker ∘ s.2) := by
  refine Shared.refines (I := fun _ => True) ?_ (fun _ _ => trivial) ?_ fun h => h
  · rintro s w ⟨rfl, hdown⟩
    refine ⟨⟨rfl, fun i => ?_⟩, fun _ => trivial⟩
    exact congrArg Publisher.worker (hdown i)
  · intro s w a s' w' _ h
    cases Publisher.step_inv h with
    | @worker a s' worker' _ hworker =>
      right
      refine ⟨a, ?_⟩
      rw [Publisher.worker_after]
      exact hworker
    | _ => exact .inl ⟨rfl, rfl⟩

-- ---------------------------------------------------------------------------
-- The stop check and the insert
-- ---------------------------------------------------------------------------

namespace Publisher

/-- A call that has got past its stop check: it never looks at the flag again,
and never raises. -/
def Checked (p : Program Op (Answer τ) (Result (Option τ))) : Prop :=
  p.Only (· ≠ .shouldStop) fun result => ∃ nextAt, result = .ok nextAt

theorem checked_publishIfDue (plus : τ → Nat → τ) (info : WorkerInfo) (nextAt : Option τ) :
    Checked (publishIfDue plus info nextAt).run := by
  refine ⟨by decide, fun (now : τ) => ?_⟩
  show Checked (ite (nextAt.any (fun t => now < t) = true) _ _ : Code τ (Option τ)).run
  split
  · exact ⟨_, rfl⟩
  · refine ⟨by decide, fun columns => ?_⟩
    cases columns with
    | error e => exact ⟨_, rfl⟩
    | ok n =>
      refine ⟨Op.noConfusion, fun inserted => ?_⟩
      cases inserted <;> exact ⟨_, rfl⟩

theorem maybePublishWorkerInfo_run (plus : τ → Nat → τ) (info : WorkerInfo) (nextAt : Option τ) :
    (maybePublishWorkerInfo plus info nextAt).run = .ask .shouldStop fun stop =>
      match stop with
      | true => .done (.ok nextAt)
      | false => (publishIfDue plus info nextAt).run := by
  show Program.ask Op.shouldStop _ = _
  congr 1
  funext stop
  cases stop <;> rfl

inductive Ok (plus : τ → Nat → τ) (w : Publisher τ) : Prop
  | idle (h : w.publishing = none)
  | entered (h : w.publishing = some (maybePublishWorkerInfo plus w.info w.nextAt).run)
  | checked (h : w.publishing = some p) (hp : Checked p) (hgo : w.worker.shouldStop = false)
  | finished (h : w.publishing = some (.done (.ok next)))

/-- No signal lands between the stop check of a call and its last operation. -/
def Timely (w : Publisher τ) (a : PublisherAction τ) : Prop :=
  a = .worker .signal → ∀ o next, w.publishing = some (.ask o next) → o = .shouldStop

end Publisher

theorem Worker.Step.shouldStop (h : Worker.Step cfg s w a s' w') (hstart : a ≠ .start) (hsignal : a ≠ .signal) :
    w'.shouldStop = w.shouldStop := by
  cases h <;> first
    | rfl
    | contradiction

theorem Worker.Step.signalled (h : Worker.Step cfg s w .signal s' w') : w'.shouldStop = true := by
  cases h
  rfl

namespace Publisher

theorem Step.stays_stopping {w : Publisher τ} (h : Step cfg plus s w a s' w') (ha : a ≠ .worker .start)
    (hstop : w.worker.shouldStop = true) : w'.worker.shouldStop = true := by
  cases h with
  | @worker a _ worker' _ hworker =>
    have hstep := Worker.step_inv hworker
    rw [worker_after]
    by_cases hsignal : a = .signal
    · subst hsignal
      cases hstep
      rfl
    · rw [hstep.shouldStop (fun hstart => ha (by rw [hstart])) hsignal, hstop]
  | _ => exact hstop

theorem Ok.worker {w : Publisher τ} (h : Ok plus w) (ht : Timely w (.worker a))
    (hworker : w.worker.step cfg s a = some (s', worker')) : Ok plus (w.after plus a worker') := by
  have hstep := Worker.step_inv hworker
  unfold after
  split
  · exact .idle rfl
  · exact .idle rfl
  · rename_i hstart hcrash
    split
    · exact .entered rfl
    · cases h with
      | idle h => exact .idle h
      | entered h => exact .entered h
      | finished h => exact .finished h
      | @checked p h hp hgo =>
        by_cases hsignal : a = .signal
        · subst hsignal
          cases p with
          | done result =>
            obtain ⟨next, rfl⟩ := hp
            exact .finished h
          | ask o next => exact absurd (ht rfl o next h) hp.1
        · exact .checked h hp ((hstep.shouldStop hstart hsignal).trans hgo)

theorem Ok.step {w : Publisher τ} (h : Ok plus w) (ht : Timely w a) (hstep : Step cfg plus s w a s' w') :
    Ok plus w' ∧ ∀ row answer, a = .insert row answer → w.worker.shouldStop = false := by
  cases hstep with
  | worker hmain hworker => exact ⟨h.worker ht hworker, fun _ _ ha => nomatch ha⟩
  | @readStop next hnext =>
    refine ⟨?_, fun _ _ ha => nomatch ha⟩
    cases h with
    | idle h => rw [h] at hnext; cases hnext
    | finished h => rw [h] at hnext; cases hnext
    | checked h hp => rw [h] at hnext; cases hnext; exact absurd rfl hp.1
    | entered h =>
      rw [h, maybePublishWorkerInfo_run] at hnext
      cases hnext
      cases hgo : w.worker.shouldStop with
      | true => exact .finished rfl
      | false => exact .checked rfl (checked_publishIfDue plus w.info w.nextAt) hgo
  | leave => exact ⟨.idle rfl, fun _ _ ha => nomatch ha⟩
  | readClock hnext | countColumns hnext | insert hnext =>
    cases h with
    | idle h => rw [h] at hnext; cases hnext
    | finished h => rw [h] at hnext; cases hnext
    | entered h =>
      rw [h, maybePublishWorkerInfo_run] at hnext
      cases hnext
    | checked h hp hgo =>
      rw [h] at hnext
      cases hnext
      exact ⟨.checked rfl (hp.2 _) hgo, fun _ _ _ => hgo⟩

end Publisher

def inserts : List (ι × PublisherAction τ ⊕ EnvAction) → List (ι × WorkerInfoRow)
  | [] => []
  | .inl (i, .insert row _) :: as => (i, row) :: inserts as
  | _ :: as => inserts as

omit [DecidableEq ι] [LinearOrder τ] in
theorem mem_inserts {as : List (ι × PublisherAction τ ⊕ EnvAction)} (h : (i, row) ∈ inserts as) :
    ∃ answer, .inl (i, .insert row answer) ∈ as := by
  induction as using inserts.induct with
  | case1 => cases h
  | case2 j row' answer as ih =>
    rcases List.mem_cons.mp h with heq | h
    · cases heq
      exact ⟨answer, List.mem_cons_self⟩
    · obtain ⟨answer, hmem⟩ := ih h
      exact ⟨answer, List.mem_cons_of_mem _ hmem⟩
  | case3 a as hne ih =>
    rw [inserts.eq_3 a as hne] at h
    obtain ⟨answer, hmem⟩ := ih h
    exact ⟨answer, List.mem_cons_of_mem _ hmem⟩

/-- The workers, when no signal lands between a stop check and its insert. -/
def timelyPublishers (cfg : ServiceConfig) (plus : τ → Nat → τ) :
    Shared Store ι (Publisher τ) (PublisherAction τ) EnvAction :=
  (publishers cfg plus).restrict Publisher.Timely fun _ _ => True

variable {cfg : ServiceConfig} {plus : τ → Nat → τ}

theorem ok_of_reachable {s : Store × (ι → Publisher τ)} (h : (timelyPublishers cfg plus).lts.Reachable s) :
    ∀ i, Publisher.Ok plus (s.2 i) := by
  refine (Shared.always (G := fun _ => True) (L := fun _ w => Publisher.Ok plus w) (R := fun _ _ => True)
    ?_ ?_ (fun _ _ => ⟨trivial, trivial⟩) (fun _ _ hL => hL) h).2
  · rintro s w ⟨-, hdown⟩
    exact ⟨trivial, fun i => .idle (congrArg Publisher.publishing (hdown i))⟩
  · rintro s w i a s' w' - - hok ⟨ht, hstep⟩
    exact ⟨trivial, (hok.step ht (Publisher.step_inv hstep)).1, trivial⟩

theorem silent_step {s t : Store × (ι → Publisher τ)} (hs : (timelyPublishers cfg plus).lts.Reachable s)
    (hstep : (timelyPublishers cfg plus).lts.step s a t) (hstop : (s.2 i).worker.shouldStop = true)
    (ha : a ≠ .inl (i, .worker .start)) :
    (t.2 i).worker.shouldStop = true ∧ ∀ row answer, a ≠ .inl (i, .insert row answer) := by
  rcases a with ⟨j, a⟩ | e
  · obtain ⟨w', ⟨ht, hact⟩, hupdate⟩ := hstep
    have hinv := Publisher.step_inv hact
    by_cases hj : j = i
    · subst hj
      refine ⟨?_, fun row answer heq => ?_⟩
      · rw [hupdate, Function.update_self]
        exact hinv.stays_stopping (fun heq => ha (by rw [heq])) hstop
      · cases heq
        have hgo := ((ok_of_reachable hs j).step ht hinv).2 row answer rfl
        rw [hgo] at hstop
        cases hstop
    · rw [hupdate, Function.update_of_ne (Ne.symm hj)]
      exact ⟨hstop, fun row answer heq => hj (by cases heq; rfl)⟩
  · rw [hstep.2]
    exact ⟨hstop, fun _ _ heq => nomatch heq⟩

/-- A worker whose signals are timely issues no insert while it is stopping:
each insert finds the flag clear, and from a signal to the next start of the
process every insert is another worker's. -/
theorem stopping_worker_is_silent {s : Store × (ι → Publisher τ)}
    (hs : (timelyPublishers cfg plus).lts.Reachable s) :
    (∀ i row answer t, (timelyPublishers cfg plus).lts.step s (.inl (i, .insert row answer)) t →
      (s.2 i).worker.shouldStop = false) ∧
    ∀ i t as u, (timelyPublishers cfg plus).lts.step s (.inl (i, .worker .signal)) t →
      (timelyPublishers cfg plus).lts.Run t as u → (∀ a ∈ as, a ≠ .inl (i, .worker .start)) →
      ∀ row, (i, row) ∉ inserts as := by
  constructor
  · rintro i row answer t ⟨w', ⟨ht, hact⟩, -⟩
    exact ((ok_of_reachable hs i).step ht (Publisher.step_inv hact)).2 row answer rfl
  · intro i t as u hsignal hrun hstart row hmem
    have ht := hs.step hsignal
    have hstop : (t.2 i).worker.shouldStop = true := by
      obtain ⟨w', ⟨-, hact⟩, hupdate⟩ := hsignal
      rw [hupdate, Function.update_self]
      cases Publisher.step_inv hact with
      | worker _ hworker =>
        rw [Publisher.worker_after]
        exact (Worker.step_inv hworker).signalled
    have hkeep : (timelyPublishers cfg plus).lts.Reachable u ∧
        ((∀ a ∈ as, a ≠ .inl (i, .worker .start)) → (u.2 i).worker.shouldStop = true ∧
          ∀ row answer, .inl (i, .insert row answer) ∉ as) := by
      refine hrun.trace_invariant (J := fun as u => (timelyPublishers cfg plus).lts.Reachable u ∧
        ((∀ a ∈ as, a ≠ .inl (i, .worker .start)) → (u.2 i).worker.shouldStop = true ∧
          ∀ row answer, .inl (i, .insert row answer) ∉ as)) ⟨ht, fun _ => ⟨hstop, by simp⟩⟩ ?_
      rintro as v a x ⟨hv, hsilent⟩ hstep
      refine ⟨hv.step hstep, fun hall => ?_⟩
      obtain ⟨hstopping, hnone⟩ := hsilent fun b hb => hall b (List.mem_append_left _ hb)
      obtain ⟨hstopping', hinsert⟩ := silent_step hv hstep hstopping (hall a (by simp))
      refine ⟨hstopping', fun row answer hmem => ?_⟩
      rcases List.mem_append.mp hmem with hold | hnew
      · exact hnone row answer hold
      · exact hinsert row answer (List.mem_singleton.mp hnew).symm
    obtain ⟨answer, hinsert⟩ := mem_inserts hmem
    exact (hkeep.2 hstart).2 row answer hinsert

end

-- ---------------------------------------------------------------------------
-- Two workers, one of them a replacement
-- ---------------------------------------------------------------------------

instance {τ : Type} (w : Publisher τ) (a : PublisherAction τ) [DecidableEq τ] : Decidable (w.Timely a) :=
  match h : w.publishing with
  | none => isTrue fun _ o next hask => by rw [h] at hask; cases hask
  | some (.done _) => isTrue fun _ o next hask => by rw [h] at hask; cases hask
  | some (.ask o next) =>
    decidable_of_iff (a = .worker .signal → o = .shouldStop) (by
      refine imp_congr_right fun _ => ⟨fun ho o' next' hask => ?_, fun ho => ho o next h⟩
      rw [h] at hask
      cases hask
      exact ho)

section Handover

abbrev Label := Bool × PublisherAction Nat ⊕ EnvAction

def rolledBack : WorkerInfo := ⟨"aws", "bedrock", ["output_format", "thinking"]⟩
def replacement : WorkerInfo := ⟨"aws", "bedrock", []⟩

def bothDown : Store × (Bool → Publisher Nat) :=
  (.empty, fun i => .down (if i then replacement else rolledBack))

/-- From the start of the process to the insert of its first row. -/
def startup (i : Bool) : List Label :=
  [.worker .start, .worker .next, .readStop, .readClock 0, .countColumns (.ok 1)].map fun a => .inl (i, a)

def published (i : Bool) (info : WorkerInfo) : List Label := [.inl (i, .insert (info.row true) (.ok ()))]

def isTimely (s : Store × (Bool → Publisher Nat)) : Label → Bool
  | .inl (i, a) => (s.2 i).Timely a
  | .inr _ => true

def timelyNext (s : Store × (Bool → Publisher Nat)) (a : Label) : Option (Store × (Bool → Publisher Nat)) :=
  if isTimely s a then Shared.next (Publisher.step rowByRow (· + ·)) Store.env s a else none

/-- A signal that finds no call under way leaves the replacement's row the newest. -/
theorem stopping_worker_is_silent_handover : ∃ s t u,
    (timelyPublishers rowByRow (· + ·)).lts.Reachable s ∧
      (timelyPublishers rowByRow (· + ·)).lts.step s (.inl (false, .worker .signal)) t ∧
      (timelyPublishers rowByRow (· + ·)).lts.Run t (startup true ++ published true replacement) u ∧
      ∀ row, (false, row) ∉ inserts (startup true ++ published true replacement) := by
  obtain ⟨u, hu⟩ := Option.isSome_iff_exists.mp (show (LTS.exec timelyNext bothDown
    ((startup false ++ published false rolledBack ++ [.inl (false, .leave)]) ++
      (.inl (false, .worker .signal) :: (startup true ++ published true replacement)))).isSome = true from rfl)
  have hrun : (timelyPublishers rowByRow (· + ·)).lts.Run bothDown _ u :=
    Shared.run_of_exec of_decide_eq_true (fun _ => trivial) hu
  obtain ⟨s, hs, hrest⟩ := hrun.append_inv
  obtain ⟨t, hsignal, hafter⟩ := hrest.cons_inv
  have hreach : (timelyPublishers rowByRow (· + ·)).lts.Reachable s := ⟨bothDown, _, ⟨rfl, fun _ => rfl⟩, hs⟩
  exact ⟨s, t, u, hreach, hsignal, hafter,
    (stopping_worker_is_silent hreach).2 false t _ u hsignal hafter (by decide)⟩

/-- A signal between the query of `system.columns` and the insert: the stopping
worker's row comes after the replacement's. -/
theorem stopping_worker_publishes : ∃ s t u as,
    (publishers rowByRow (· + ·)).lts.Reachable s ∧
      (publishers rowByRow (· + ·)).lts.step s (.inl (false, .worker .signal)) t ∧
      (publishers rowByRow (· + ·)).lts.Run t as u ∧ (∀ a ∈ as, a ≠ .inl (false, .worker .start)) ∧
      inserts as = [(true, replacement.row true), (false, rolledBack.row true)] := by
  obtain ⟨u, hu⟩ := Option.isSome_iff_exists.mp (show (LTS.exec
    (Shared.next (Publisher.step rowByRow (· + ·)) Store.env) bothDown (startup false ++
      (.inl (false, .worker .signal) ::
        (startup true ++ published true replacement ++ published false rolledBack)))).isSome = true from rfl)
  have hrun : (publishers rowByRow (· + ·)).lts.Run bothDown _ u :=
    LTS.Run.mono (T := .ofFn (fun _ => True) _) (LTS.run_of_exec hu) Shared.step_of_next
  obtain ⟨s, hs, hrest⟩ := hrun.append_inv
  obtain ⟨t, hsignal, hafter⟩ := hrest.cons_inv
  exact ⟨s, t, u, _, ⟨bothDown, _, ⟨rfl, fun _ => rfl⟩, hs⟩, hsignal, hafter, by decide, rfl⟩

end Handover

end LlmWorker
