import LlmWorker.Service.Coverage
import LlmWorker.Service.Ending

/-!
# A worker that is told to stop

After a signal a worker finishes the batch it is at, if any, and goes down. The
other workers and the monolith go on; as long as no pending batch gets new rows
they cannot keep it from going down.
-/

namespace LlmWorker

open Python Transition

namespace Pool

theorem futuresRank_thread (h : threadStep x p i a = some p') : p'.futuresRank x < p.futuresRank x := by
  obtain ⟨f, st, hf, -, hst, rfl⟩ := threadStep_inv h
  have hlt := FutureState.rank_step hst
  have hsum : ((p.futures.set i ⟨f.row, st⟩).map fun f => f.state.rank x).sum + f.state.rank x =
      (p.futures.map fun f => f.state.rank x).sum + st.rank x := sum_map_set hf
  simp only [futuresRank]
  omega

end Pool

/-- No row is added to a batch that is pending. -/
def Closed (s : Store) (e : EnvAction) : Prop := ∀ row, e = .addInput row → ¬s.HasStatus row.batchId .pending

instance (s : Store) (e : EnvAction) : Decidable (Closed s e) :=
  match e with
  | .addInput row => decidable_of_iff (¬s.HasStatus row.batchId .pending) (by simp [Closed])
  | .addPending _ => isTrue (by simp [Closed])

theorem Closed.frozen (h : Closed s e) (b : UUID) : Frozen b s e := by
  rintro row rfl rfl
  exact h row rfl

variable {cfg : ServiceConfig} {s s' : Store} {batch batch' : Batch} {w w' : Worker}

namespace Worker

-- ---------------------------------------------------------------------------
-- What a worker takes for granted
-- ---------------------------------------------------------------------------

def Sane (cfg : ServiceConfig) (w : Worker) : Prop :=
  ∀ batch rest, w.pc = .processing batch rest → batch.Sane cfg

theorem sane_afterError (w : Worker) : w.afterError.Sane cfg := by
  unfold afterError Sane
  cases w.shouldStop <;> simp

theorem sane_step (hs : w.Sane cfg) (h : Step cfg s w a s' w') : w'.Sane cfg := by
  cases h with
  | signal | leftover => exact hs
  | loop => cases hstop : w.shouldStop <;> simp [Sane]
  | @take b rest =>
    rintro _ _ ⟨⟩
    exact Batch.sane_start cfg b
  | giveUp | readError => exact sane_afterError _
  | batch hpc hb =>
    rintro _ _ ⟨⟩
    exact Batch.sane_step (hs _ _ hpc) hb
  | _ => simp [Sane]

/-- What the others may do while the worker is at a batch. -/
def Others (s : Store) (w : Worker) (s' : Store) : Prop :=
  ∀ batch rest, w.pc = .processing batch rest → batch.Others s s'

-- ---------------------------------------------------------------------------
-- What a stopping worker has left to do
-- ---------------------------------------------------------------------------

def leftoverSteps (cfg : ServiceConfig) (w : Worker) : Nat :=
  (w.abandoned.map fun p => p.futuresRank cfg.executor).sum

noncomputable def pcSteps (cfg : ServiceConfig) (s : Store) : WorkerPc → Nat
  | .down => 0
  | .stopped => 1
  | .polling => 2
  | .sleeping | .batches _ => 3
  | .querying => 4
  | .processing batch _ => 4 + batch.stepsLeft cfg s

/-- A bound on the steps that a stopping worker has left. -/
noncomputable def stopSteps (cfg : ServiceConfig) (s : Store) (w : Worker) : Nat :=
  pcSteps cfg s w.pc + leftoverSteps cfg w

theorem leftoverSteps_abandon (cfg : ServiceConfig) (w : Worker) (batch : Batch) (s : Store) :
    leftoverSteps cfg (w.abandon batch.pool) ≤ leftoverSteps cfg w + batch.stepsLeft cfg s := by
  have hle : batch.pool.futuresRank cfg.executor ≤ batch.stepsLeft cfg s := by
    simp only [Batch.stepsLeft, Pool.rank]
    omega
  simp only [leftoverSteps, abandon, List.map_append, List.sum_append, List.map_singleton, List.sum_singleton]
  omega

/-- Signals are not counted: a second one changes nothing. -/
def ownCost : WorkerAction → Nat
  | .signal => 0
  | _ => 1

theorem stopSteps_step (hs : w.Sane cfg) (hstop : w.shouldStop = true) (hup : a ≠ .start ∧ a ≠ .crash)
    (h : Step cfg s w a s' w') :
    w'.shouldStop = true ∧ ownCost a + stopSteps cfg s' w' ≤ stopSteps cfg s w := by
  cases h with
  | start => exact absurd rfl hup.1
  | crash => exact absurd rfl hup.2
  | signal =>
    have hsame : { w with shouldStop := true } = w := by rw [← hstop]
    rw [hsame]
    exact ⟨hstop, by simp [ownCost]⟩
  | take hpc hgo =>
    rw [hstop] at hgo
    cases hgo
  | loop hpc => exact ⟨hstop, by simp only [stopSteps, pcSteps, ownCost, leftoverSteps, hpc, hstop, if_true]; omega⟩
  | passed hpc | leave hpc | wake hpc | exit hpc | idle hpc | poll hpc =>
    exact ⟨hstop, by simp only [stopSteps, pcSteps, ownCost, leftoverSteps, hpc]; omega⟩
  | finish hpc => exact ⟨hstop, by simp only [stopSteps, pcSteps, ownCost, leftoverSteps, hpc]; omega⟩
  | @giveUp batch rest e hpc =>
    have hleft := leftoverSteps_abandon cfg w batch s
    have hpc' : (w.abandon batch.pool).afterError.pc = .polling := by simp [afterError, abandon, hstop]
    have hsame : leftoverSteps cfg (w.abandon batch.pool).afterError = leftoverSteps cfg (w.abandon batch.pool) := rfl
    refine ⟨hstop, ?_⟩
    simp only [stopSteps, hpc', hpc, pcSteps, ownCost, hsame]
    omega
  | @die batch rest e hpc =>
    have hleft := leftoverSteps_abandon cfg w batch s
    have hsame : leftoverSteps cfg { w.abandon batch.pool with pc := .stopped } =
        leftoverSteps cfg (w.abandon batch.pool) := rfl
    refine ⟨hstop, ?_⟩
    simp only [stopSteps, hpc, pcSteps, ownCost, hsame]
    omega
  | readError hpc =>
    have hpc' : w.afterError.pc = .polling := by simp [afterError, hstop]
    have hsame : leftoverSteps cfg w.afterError = leftoverSteps cfg w := rfl
    refine ⟨hstop, ?_⟩
    simp only [stopSteps, hpc', hpc, pcSteps, ownCost, hsame]
    omega
  | batch hpc hb =>
    have hlt := Batch.stepsLeft_step (hs _ _ hpc) hb
    exact ⟨hstop, by simp only [stopSteps, hpc, pcSteps, ownCost, leftoverSteps]; omega⟩
  | @leftover j p p' i a hp hthread =>
    have hlt := Pool.futuresRank_thread hthread
    have hsum : ((w.abandoned.set j p').map fun p => p.futuresRank cfg.executor).sum + p.futuresRank cfg.executor =
        (w.abandoned.map fun p => p.futuresRank cfg.executor).sum + p'.futuresRank cfg.executor := sum_map_set hp
    exact ⟨hstop, by simp only [stopSteps, ownCost, leftoverSteps]; omega⟩

theorem Others.stopSteps_le (h : Others s w s') : stopSteps cfg s' w ≤ stopSteps cfg s w := by
  refine Nat.add_le_add_right ?_ _
  cases hpc : w.pc with
  | processing batch rest => exact Nat.add_le_add_left (h batch rest hpc).stepsLeft_le _
  | _ => exact Nat.le_refl _

/-- The step is neither a failure nor the work of the process's owner. -/
def Healthy : WorkerAction → Prop
  | .start | .crash | .signal | .readError => False
  | .batch a => Batch.Succeeds a
  | _ => True

instance : DecidablePred Healthy := fun a => by
  cases a <;> simp only [Healthy] <;> infer_instance

theorem Sane.progress (hs : w.Sane cfg) (hup : w.pc ≠ .down) :
    ∃ a s' w', Healthy a ∧ step cfg s w a = some (s', w') := by
  have next (h : ∃ w', w.next = some w') : ∃ a s' w', Healthy a ∧ step cfg s w a = some (s', w') := by
    obtain ⟨w', h⟩ := h
    exact ⟨.next, s, w', trivial, by simp [step, h]⟩
  cases hpc : w.pc with
  | down => exact absurd hpc hup
  | polling | sleeping => exact next ⟨_, by simp only [Worker.next, hpc]; rfl⟩
  | querying =>
    have hpoll : ∃ t, step cfg s w .poll = some t := by
      simp only [step, if_pos hpc]
      split <;> exact ⟨_, rfl⟩
    obtain ⟨⟨s', w'⟩, h⟩ := hpoll
    exact ⟨.poll, s', w', trivial, h⟩
  | batches rest =>
    cases rest with
    | nil => exact next ⟨_, by simp only [Worker.next, hpc]; rfl⟩
    | cons b rest => exact next ⟨_, by simp only [Worker.next, hpc]; rfl⟩
  | processing batch rest =>
    by_cases hreturned : batch.pc = .returned
    · exact next ⟨_, by simp only [Worker.next, hpc, hreturned]; rfl⟩
    · by_cases hfailed : ∃ e, batch.pc = .failed e
      · obtain ⟨e, he⟩ := hfailed
        by_cases htype : e.type = .clickHouseError
        · exact next ⟨_, by simp only [Worker.next, hpc, he, if_pos htype]; rfl⟩
        · exact next ⟨_, by simp only [Worker.next, hpc, he, if_neg htype]; rfl⟩
      · obtain ⟨a, s', batch', ha, hstep⟩ := (hs batch rest hpc).progress (s := s) hreturned (not_exists.mp hfailed)
        exact ⟨.batch a, s', _, ha, by simp only [step, hpc, hstep]; rfl⟩
  | stopped =>
    cases hdone : w.allDone with
    | true => exact next ⟨_, by simp only [Worker.next, hpc, hdone, if_true]; rfl⟩
    | false =>
      obtain ⟨p, hp, hnot⟩ : ∃ p ∈ w.abandoned, p.allDone = false := by simpa [allDone] using hdone
      obtain ⟨f, hf, hrunning⟩ : ∃ f ∈ p.futures, f.state.isDone = false := by simpa [Pool.allDone] using hnot
      obtain ⟨j, hj⟩ := List.mem_iff_getElem?.mp hp
      obtain ⟨i, hi⟩ := List.mem_iff_getElem?.mp hf
      obtain ⟨a, p', hthread⟩ := Pool.thread_enabled cfg.executor p hi hrunning
      exact ⟨.leftover j i a, s, _, trivial, by simp only [step, hj, hthread]; rfl⟩

-- ---------------------------------------------------------------------------
-- What a step does to the tables
-- ---------------------------------------------------------------------------

end Worker

theorem Batch.tables_step (h : Batch.Step cfg s batch a s' batch') :
    s'.inputs = s.inputs ∧ ∃ new, s'.results = s.results ++ new := by
  cases h with
  | write => split <;> exact ⟨rfl, _, by first | rfl | exact (List.append_nil _).symm⟩
  | report => split <;> exact ⟨rfl, [], (List.append_nil _).symm⟩
  | _ => exact ⟨rfl, [], (List.append_nil _).symm⟩

theorem Worker.tables_step (h : Worker.Step cfg s w a s' w') :
    s'.inputs = s.inputs ∧ ∃ new, s'.results = s.results ++ new := by
  cases h with
  | batch _ hb => exact Batch.tables_step hb
  | _ => exact ⟨rfl, [], (List.append_nil _).symm⟩

theorem Batch.others_of_tables (hinputs : s'.inputs = s.inputs) (hresults : ∃ new, s'.results = s.results ++ new) :
    Batch.Others s batch s' := by
  obtain ⟨new, hnew⟩ := hresults
  refine ⟨by rw [Batch.rowsOf, Batch.rowsOf, hinputs], fun key hkey => ?_⟩
  rw [Store.resultKeys, hnew, List.map_append]
  exact List.mem_append_left _ hkey

theorem Batch.others_of_env (hpending : s.HasStatus batch.id .pending) (hclosed : Closed s e)
    (h : s.env e = some s') : Batch.Others s batch s' := by
  cases e with
  | addInput row =>
    cases h
    have hne : row.batchId ≠ batch.id := fun hid => hclosed row rfl (hid ▸ hpending)
    exact ⟨by simp [Batch.rowsOf, hne], fun _ hkey => hkey⟩
  | addPending b =>
    cases h
    exact Batch.others_of_tables rfl ⟨[], (List.append_nil _).symm⟩

/-- Where a stopping worker is at after a run of it: it starts no batch. -/
def Worker.Leaving (w w' : Worker) : Prop :=
  ∀ batch' rest', w'.pc = .processing batch' rest' →
    ∃ batch rest, w.pc = .processing batch rest ∧ batch'.id = batch.id

theorem Worker.leaving_step (hstop : w.shouldStop = true) (h : Worker.Step cfg s w a s' w')
    (hl : Worker.Leaving w₀ w) : Worker.Leaving w₀ w' := by
  have hafter (w : Worker) : Worker.Leaving w₀ w.afterError := by
    intro batch rest hpc
    unfold afterError at hpc
    cases hs : w.shouldStop <;> simp [hs] at hpc
  cases h with
  | signal | leftover => exact hl
  | take _ hgo =>
    rw [hstop] at hgo
    cases hgo
  | loop =>
    intro batch rest hpc
    cases hs : w.shouldStop <;> simp [hs] at hpc
  | giveUp | readError => exact hafter _
  | batch hpc hb =>
    rintro _ _ ⟨⟩
    obtain ⟨batch, rest, hpc₀, hid⟩ := hl _ _ hpc
    exact ⟨batch, rest, hpc₀, (Batch.id_step hb).trans hid⟩
  | _ => exact fun _ _ hpc => by cases hpc

-- ---------------------------------------------------------------------------
-- One worker of the service
-- ---------------------------------------------------------------------------

section

variable {ι : Type} [DecidableEq ι] {cfg : ServiceConfig} {s t : Store × (ι → Worker)}

/-- The service, where no row is added to a batch that is pending. -/
def closedService (ι : Type) [DecidableEq ι] (cfg : ServiceConfig) : Shared Store ι Worker WorkerAction EnvAction :=
  (service cfg).restrict (fun _ _ => True) Closed

theorem service_sane (h : (closedService ι cfg).lts.Reachable s) (i : ι) : (s.2 i).Sane cfg := by
  refine (Shared.always (G := fun _ => True) (L := fun _ w => w.Sane cfg) (R := fun _ _ => True) ?_ ?_ ?_ ?_ h).2 i
  · rintro s w ⟨-, hdown⟩
    refine ⟨trivial, fun i => ?_⟩
    rw [hdown i]
    simp [Worker.Sane, Worker.down]
  · rintro s w i a s' w' - - hs ⟨-, hact⟩
    exact ⟨trivial, Worker.sane_step hs (Worker.step_inv hact), trivial⟩
  · intro s e s' _ _
    exact ⟨trivial, trivial⟩
  · intro s s' w _ _ hs
    exact hs

theorem service_pending (h : (closedService ι cfg).lts.Reachable s) (i : ι)
    (hpc : (s.2 i).pc = .processing batch rest) : s.1.HasStatus batch.id .pending := by
  have hledgers : (ledgers ι cfg True Closed).lts.Reachable (s.1, Worker.ledger ∘ s.2) :=
    (service_refines fun _ _ _ _ => trivial).reachable h
  have hhonest := (ledgers_sound (fun _ _ hclosed => hclosed.frozen batch.id) hledgers).2 i
  exact hhonest.pending batch.job (by simp [Worker.ledger, hpc])

theorem service_amid (i : ι) (hreach : (closedService ι cfg).lts.Reachable s)
    (h : (closedService ι cfg).lts.Run s as t) :
    (amid (fun s w a s' w' => Worker.step cfg s w a = some (s', w')) Worker.Others).Run
      (s.1, s.2 i) (as.map (Shared.seen i)) (t.1, t.2 i) := by
  have hrun := Shared.run_amid (O := Worker.Others) i hreach h ?_ ?_
  · refine hrun.mono fun {s a t} hs => ?_
    cases a with
    | inl a => exact hs.2
    | inr _ => exact hs
  · rintro s w j a s' w' hreach - ⟨-, hact⟩ batch rest hpc
    obtain ⟨hinputs, hresults⟩ := Worker.tables_step (Worker.step_inv hact)
    exact Batch.others_of_tables hinputs hresults
  · rintro s w e s' hreach ⟨hclosed, henv⟩ batch rest hpc
    exact Batch.others_of_env (service_pending hreach i hpc) hclosed henv

/-- A worker that has been told to stop goes down by itself after boundedly
many steps, whatever fails and whatever the other workers do; on the way its flag
stays set, it takes up no batch, and only the batch it was at is finished. -/
theorem stopping_worker_goes_down (hreach : (closedService ι cfg).lts.Reachable s) (i : ι)
    (hstop : (s.2 i).shouldStop = true) (h : (closedService ι cfg).lts.Run s as t)
    (hown : ∀ a, .inl (i, a) ∈ as → a ≠ .start ∧ a ≠ .crash) :
    ownCost Worker.ownCost (as.map (Shared.seen i)) ≤ Worker.stopSteps cfg s.1 (s.2 i) ∧
    (t.2 i).shouldStop = true ∧ (s.2 i).Leaving (t.2 i) ∧
    ((t.2 i).pc = .down ∨ ∃ a s' w', Worker.Healthy a ∧ Worker.step cfg t.1 (t.2 i) a = some (s', w')) := by
  have hrun := amid_restrict (service_amid i hreach h) fun a ha => hown a (Shared.inl_mem_seen ha)
  let I (_ : Store) (w : Worker) : Prop := w.Sane cfg ∧ w.shouldStop = true ∧ (s.2 i).Leaving w
  have hstart : I s.1 (s.2 i) := ⟨service_sane hreach i, hstop, fun batch rest hpc => ⟨batch, rest, hpc, rfl⟩⟩
  obtain ⟨⟨hsane, hset, hleaving⟩, hsteps⟩ := amid_cost_le (I := I) (r := Worker.stopSteps cfg)
    (c := Worker.ownCost) hrun hstart
    (fun {s w a s' w'} ⟨hsane, hstop, hleaving⟩ ⟨hup, hact⟩ => by
      have hstep := Worker.step_inv hact
      obtain ⟨hstop', hpay⟩ := Worker.stopSteps_step hsane hstop hup hstep
      exact ⟨⟨Worker.sane_step hsane hstep, hstop', Worker.leaving_step hstop hstep hleaving⟩, hpay⟩)
    fun {s w s'} hI ho => ⟨hI, Worker.Others.stopSteps_le ho⟩
  refine ⟨(Nat.le_add_right _ _).trans hsteps, hset, hleaving, ?_⟩
  by_cases hdown : (t.2 i).pc = .down
  · exact .inl hdown
  · exact .inr (hsane.progress hdown)

end

def untilSignalled : List (Unit × WorkerAction ⊕ EnvAction) :=
  submitted [plainRow 1 1] 1 ++ onWorker () [.start, .next, .poll, .next, .batch .fetch, .signal]

def untilDown : List (Unit × WorkerAction ⊕ EnvAction) :=
  onWorker () (inBatch ((onePage (served (plainRow 1 1))).tail ++ [.insert .ok, .next, .fetch, .count, .insert .ok]) ++
    [.next, .next, .next, .next])

theorem stopping_worker_goes_down_one_batch : ∃ s t : Store × (Unit → Worker),
    (closedService Unit rowByRow).lts.Reachable s ∧ (closedService Unit rowByRow).lts.Run s untilDown t ∧
      (t.2 ()).pc = .down ∧ t.1.HasStatus 1 .complete ∧
      ownCost Worker.ownCost (untilDown.map (Shared.seen ())) ≤ Worker.stopSteps rowByRow s.1 (s.2 ()) := by
  let down : Store × (Unit → Worker) := (.empty, fun _ => .down)
  have hfirst : (LTS.exec (guardedNext rowByRow (fun _ _ => True) Closed) down untilSignalled).map
      (fun s => decide ((s.2 ()).shouldStop = true)) = some true := by decide +kernel
  have hboth : (LTS.exec (guardedNext rowByRow (fun _ _ => True) Closed) down (untilSignalled ++ untilDown)).map
      (fun t => decide ((t.2 ()).pc = .down ∧ t.1.HasStatus 1 .complete)) = some true := by decide +kernel
  obtain ⟨s, hs, hstop⟩ := Option.map_eq_some_iff.mp hfirst
  rw [LTS.exec_append, hs, Option.bind_some] at hboth
  obtain ⟨t, ht, hdown⟩ := Option.map_eq_some_iff.mp hboth
  have run {s t : Store × (Unit → Worker)} {as : List (Unit × WorkerAction ⊕ EnvAction)}
      (h : LTS.exec (guardedNext rowByRow (fun _ _ => True) Closed) s as = some t) :
      (closedService Unit rowByRow).lts.Run s as t :=
    Shared.run_of_exec (fun _ => trivial) of_decide_eq_true h
  have hreach : (closedService Unit rowByRow).lts.Reachable s := ⟨down, _, ⟨rfl, fun _ => rfl⟩, run hs⟩
  have hown (a : WorkerAction) (ha : .inl ((), a) ∈ untilDown) : a ≠ .start ∧ a ≠ .crash := by
    have hall : ∀ label ∈ untilDown, label ≠ .inl ((), .start) ∧ label ≠ .inl ((), .crash) := by decide
    simpa using hall _ ha
  obtain ⟨hsteps, -, -, -⟩ := stopping_worker_goes_down hreach () (of_decide_eq_true hstop) (run ht) hown
  exact ⟨s, t, hreach, run ht, (of_decide_eq_true hdown).1, (of_decide_eq_true hdown).2, hsteps⟩

end LlmWorker
