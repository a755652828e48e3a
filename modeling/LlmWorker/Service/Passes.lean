import LlmWorker.Service.Ledger

/-!
# The passes of the poll loop

What each worker has done with each list that `get_pending_batches` returned
to it. The handler of `run` stands around the loop over the list, not inside
it: a batch whose processing raises ends the pass, and the next pass begins
with the same list.
-/

namespace LlmWorker

open Python Transition

/-- How a call of `process_single_batch` ended, if it has. -/
inductive Ending
  | running
  | returned
  | raised (e : Exc)
  deriving DecidableEq

structure Attempt where
  batchId : UUID
  ending : Ending
  deriving DecidableEq

/-- How a pass ended: after its last batch, on a stop request, with an
exception, or with its process. -/
inductive PassEnd
  | passed
  | stopped
  | raised (e : Exc)
  | crashed
  deriving DecidableEq

/-- `tables` are the tables at the query for pending batches. -/
structure Pass where
  tables : Store
  batchIds : List UUID
  attempts : List Attempt
  outcome : Option PassEnd
  deriving DecidableEq

namespace Pass

def begin (p : Pass) (b : UUID) : Pass := { p with attempts := p.attempts ++ [⟨b, .running⟩] }

def settle (p : Pass) (b : UUID) (ending : Ending) : Pass :=
  { p with attempts := p.attempts.dropLast ++ [⟨b, ending⟩] }

def close (p : Pass) (outcome : PassEnd) : Pass := { p with outcome := some outcome }

end Pass

/-- The passes of a worker, the newest first, after a step from `w` to `w'`. -/
def observe (s : Store) (w w' : Worker) (passes : List Pass) : List Pass :=
  match w.pc, w'.pc with
  | .querying, .batches batchIds => ⟨s, batchIds, [], none⟩ :: passes
  | .batches _, .processing batch _ => passes.modifyHead (·.begin batch.id)
  | .batches [], .polling => passes.modifyHead (·.close .passed)
  | .batches (_ :: _), .polling => passes.modifyHead (·.close .stopped)
  | .processing batch _, .batches _ => passes.modifyHead (·.settle batch.id .returned)
  | .processing _ _, .processing _ _ => passes
  | .batches _, .down | .processing _ _, .down => passes.modifyHead (·.close .crashed)
  | .processing batch _, _ =>
    match batch.pc with
    | .failed e => passes.modifyHead fun p => (p.settle batch.id (.raised e)).close (.raised e)
    | _ => passes
  | _, _ => passes

variable {ι : Type} [DecidableEq ι]

def watched (cfg : ServiceConfig) : Shared Store ι (Worker × List Pass) WorkerAction EnvAction :=
  (service cfg).recorded [] observe

-- ---------------------------------------------------------------------------
-- What a pass has done
-- ---------------------------------------------------------------------------

def returned (b : UUID) : Attempt := ⟨b, .returned⟩

namespace Pass

/-- The attempts follow the list: all before the last have returned, the pass
has passed only at the end of the list, and it raises what the last one raised. -/
inductive InOrder (p : Pass) : Prop
  | between (hlisted : p.batchIds = done ++ rest) (hattempts : p.attempts = done.map returned)
      (hpassed : p.outcome = some .passed → rest = []) (hraised : ∀ e, p.outcome ≠ some (.raised e))
  | within (hlisted : p.batchIds = done ++ b :: rest)
      (hattempts : p.attempts = done.map returned ++ [⟨b, ending⟩]) (hending : ending ≠ .returned)
      (hpassed : p.outcome ≠ some .passed) (hraised : ∀ e, p.outcome = some (.raised e) ↔ ending = .raised e)

namespace InOrder

variable {p : Pass}

theorem attempts_prefix (h : p.InOrder) : p.attempts.map Attempt.batchId <+: p.batchIds := by
  have hmap (done : List UUID) : (done.map returned).map Attempt.batchId = done := by
    simp [returned, Function.comp_def]
  cases h with
  | between hlisted hattempts =>
    rw [hlisted, hattempts, hmap]
    exact List.prefix_append _ _
  | @within done b rest _ hlisted hattempts =>
    rw [hlisted, hattempts, List.map_append, hmap]
    exact ⟨rest, by simp⟩

theorem attempts_of_passed (h : p.InOrder) (hout : p.outcome = some .passed) :
    p.attempts = p.batchIds.map returned := by
  cases h with
  | between hlisted hattempts hpassed =>
    rw [hlisted, hattempts, hpassed hout, List.append_nil]
  | within _ _ _ hpassed => exact absurd hout hpassed

theorem attempts_of_raised (h : p.InOrder) (hout : p.outcome = some (.raised e)) :
    ∃ before b after, p.batchIds = before ++ b :: after ∧
      p.attempts = before.map returned ++ [⟨b, .raised e⟩] := by
  cases h with
  | between _ _ _ hraised => exact absurd hout (hraised e)
  | @within done b rest _ hlisted hattempts _ _ hraised =>
    rw [(hraised e).mp hout] at hattempts
    exact ⟨done, b, rest, hlisted, hattempts⟩

theorem outcome_of_raised (h : p.InOrder) (hb : ⟨b, .raised e⟩ ∈ p.attempts) :
    p.outcome = some (.raised e) := by
  cases h with
  | between _ hattempts =>
    rw [hattempts] at hb
    simp [returned] at hb
  | within _ hattempts _ _ hraised =>
    rw [hattempts] at hb
    apply (hraised e).mpr
    rcases List.mem_append.mp hb with hdone | hlast
    · simp [returned] at hdone
    · exact (congrArg Attempt.ending (List.mem_singleton.mp hlast)).symm

end InOrder

structure Sound (cfg : ServiceConfig) (p : Pass) : Prop where
  listed : p.batchIds = p.tables.getPendingBatches cfg.pendingBatchLimit
  inOrder : p.InOrder

/-- A batch is attempted only after all the batches before it have returned. -/
theorem Sound.returned_before {p : Pass} (h : p.Sound cfg) (hb : p.tables.Pending b) (hlt : b < c)
    (hc : ⟨c, ending⟩ ∈ p.attempts) : returned b ∈ p.attempts := by
  have hsorted : p.batchIds.Pairwise (· ≤ ·) := h.listed ▸ Store.sorted_getPendingBatches _ _
  have hmem (hc : c ∈ p.batchIds) : b ∈ p.batchIds := by
    rw [h.listed] at hc ⊢
    exact Store.mem_getPendingBatches_of_lt hc hb hlt
  have hid {done : List UUID} (hc : ⟨c, ending⟩ ∈ done.map returned) : c ∈ done := by
    obtain ⟨c', hdone, heq⟩ := List.mem_map.mp hc
    obtain rfl : c' = c := congrArg Attempt.batchId heq
    exact hdone
  cases h.inOrder with
  | @between done rest hlisted hattempts =>
    rw [hlisted] at hsorted hmem
    rw [hattempts] at hc ⊢
    have hdone : c ∈ done := hid hc
    apply List.mem_map_of_mem
    exact Store.mem_first_of_lt hsorted (hmem (List.mem_append_left rest hdone)) hdone hlt
  | @within done d rest _ hlisted hattempts =>
    have hsplit : p.batchIds = (done ++ [d]) ++ rest := by simp [hlisted]
    rw [hsplit] at hsorted hmem
    rw [hattempts] at hc ⊢
    have hfirst : c ∈ done ++ [d] := by
      rcases List.mem_append.mp hc with hdone | hlast
      · exact List.mem_append_left [d] (hid hdone)
      · have hcd : c = d := congrArg Attempt.batchId (List.mem_singleton.mp hlast)
        simp [hcd]
    have hbfirst : b ∈ done ++ [d] :=
      Store.mem_first_of_lt hsorted (hmem (List.mem_append_left rest hfirst)) hfirst hlt
    apply List.mem_append_left
    apply List.mem_map_of_mem
    rcases List.mem_append.mp hbfirst with hdone | hlast
    · exact hdone
    · obtain rfl : b = d := List.mem_singleton.mp hlast
      rcases List.mem_append.mp hfirst with hdone | hsame
      · have hle : c ≤ b :=
          (List.pairwise_append.mp (List.pairwise_append.mp hsorted).1).2.2 c hdone b (by simp)
        exact absurd hlt (Nat.not_lt.mpr hle)
      · obtain rfl : c = b := List.mem_singleton.mp hsame
        exact absurd hlt (Nat.lt_irrefl c)

end Pass

-- ---------------------------------------------------------------------------
-- One step of a worker
-- ---------------------------------------------------------------------------

/-- Where the newest pass stands while its worker is in the loop over the list. -/
def AtLoop (pc : WorkerPc) (p : Pass) : Prop :=
  match pc with
  | .batches rest =>
    p.outcome = none ∧ ∃ done, p.batchIds = done ++ rest ∧ p.attempts = done.map returned
  | .processing batch rest =>
    p.outcome = none ∧ ∃ done, p.batchIds = done ++ batch.id :: rest ∧
      p.attempts = done.map returned ++ [⟨batch.id, .running⟩]
  | _ => True

def WorkerPc.InLoop : WorkerPc → Prop
  | .batches _ | .processing _ _ => True
  | _ => False

structure Tracks (cfg : ServiceConfig) (w : Worker) (passes : List Pass) : Prop where
  sound : ∀ p ∈ passes, p.Sound cfg
  newest : w.pc.InLoop → ∃ p older, passes = p :: older ∧ AtLoop w.pc p

theorem AtLoop.inOrder (h : AtLoop pc p) (hin : pc.InLoop) : p.InOrder := by
  cases pc with
  | batches rest =>
    obtain ⟨hout, done, hlisted, hattempts⟩ := h
    exact .between hlisted hattempts (by simp [hout]) (by simp [hout])
  | processing batch rest =>
    obtain ⟨hout, done, hlisted, hattempts⟩ := h
    exact .within hlisted hattempts (by simp) (by simp [hout]) (by simp [hout])
  | _ => exact hin.elim

theorem AtLoop.closed (h : AtLoop (.batches rest) p) (hpassed : ending = .passed → rest = [])
    (hraised : ∀ e, ending ≠ .raised e) : (p.close ending).InOrder := by
  obtain ⟨-, done, hlisted, hattempts⟩ := h
  exact .between hlisted hattempts (by simpa [Pass.close] using hpassed) (by simpa [Pass.close] using hraised)

theorem Tracks.keep (h : Tracks cfg w passes) (hin : w'.pc.InLoop → w'.pc = w.pc) :
    Tracks cfg w' passes := by
  refine ⟨h.sound, fun hl => ?_⟩
  have hpc := hin hl
  rw [hpc] at hl ⊢
  exact h.newest hl

theorem Tracks.move (h : Tracks cfg w passes) (hpc : w.pc = pc) (hin : pc.InLoop) {f : Pass → Pass}
    (hf : ∀ p, (f p).tables = p.tables ∧ (f p).batchIds = p.batchIds)
    (hstep : ∀ p, AtLoop pc p → (f p).InOrder ∧ AtLoop w'.pc (f p)) :
    Tracks cfg w' (passes.modifyHead f) := by
  subst hpc
  obtain ⟨p, older, rfl, hat⟩ := h.newest hin
  obtain ⟨horder, hat'⟩ := hstep p hat
  have hsound := h.sound p List.mem_cons_self
  refine ⟨fun q hq => ?_, fun _ => ⟨f p, older, rfl, hat'⟩⟩
  rcases List.mem_cons.mp hq with rfl | hold
  · exact ⟨by rw [(hf p).1, (hf p).2, hsound.listed], horder⟩
  · exact h.sound q (List.mem_cons_of_mem p hold)

theorem tracks_same (h : Tracks cfg w passes) (hpc : w'.pc = w.pc) :
    Tracks cfg w' (observe s w w' passes) := by
  have hobserve : observe s w w' passes = passes := by
    unfold observe
    rw [hpc]
    cases w.pc <;> rfl
  rw [hobserve]
  exact h.keep fun _ => hpc

theorem tracks_outside (h : Tracks cfg w passes) (hpc : ¬w.pc.InLoop) (hpc' : ¬w'.pc.InLoop) :
    Tracks cfg w' (observe s w w' passes) := by
  have hobserve : observe s w w' passes = passes := by
    unfold observe
    split <;> simp_all [WorkerPc.InLoop]
  rw [hobserve]
  exact h.keep fun hin => absurd hin hpc'

theorem tracks_crash (h : Tracks cfg w passes) (hpc : w.pc ≠ .down) (hdown : w'.pc = .down) :
    Tracks cfg w' (observe s w w' passes) := by
  cases hat : w.pc with
  | down => exact absurd hat hpc
  | batches rest =>
    have hobserve : observe s w w' passes = passes.modifyHead (·.close .crashed) := by
      cases rest <;> simp [observe, hat, hdown]
    rw [hobserve]
    refine h.move hat trivial (fun p => ⟨rfl, rfl⟩) fun p hp => ?_
    exact ⟨hp.closed (by simp) (by simp), by simp [hdown, AtLoop]⟩
  | processing batch rest =>
    have hobserve : observe s w w' passes = passes.modifyHead (·.close .crashed) := by
      simp [observe, hat, hdown]
    rw [hobserve]
    refine h.move hat trivial (fun p => ⟨rfl, rfl⟩) fun p hp => ?_
    obtain ⟨-, done, hlisted, hattempts⟩ := hp
    exact ⟨.within hlisted hattempts (by simp) (by simp [Pass.close]) (by simp [Pass.close]),
      by simp [hdown, AtLoop]⟩
  | _ => exact tracks_outside h (by simp [hat, WorkerPc.InLoop]) (by simp [hdown, WorkerPc.InLoop])

theorem tracks_raise (h : Tracks cfg w passes) (hpc : w.pc = .processing batch rest)
    (hfailed : batch.pc = .failed e) (hout : w'.pc = .polling ∨ w'.pc = .sleeping ∨ w'.pc = .stopped) :
    Tracks cfg w' (observe s w w' passes) := by
  have hobserve : observe s w w' passes =
      passes.modifyHead fun p => (p.settle batch.id (.raised e)).close (.raised e) := by
    rcases hout with hout | hout | hout <;> simp [observe, hpc, hout, hfailed]
  rw [hobserve]
  refine h.move hpc trivial (fun p => ⟨rfl, rfl⟩) fun p hp => ?_
  obtain ⟨-, done, hlisted, hattempts⟩ := hp
  have hsettled : (p.settle batch.id (.raised e)).attempts =
      done.map returned ++ [⟨batch.id, .raised e⟩] := by
    simp [Pass.settle, hattempts]
  refine ⟨.within hlisted hsettled (by simp) (by simp [Pass.close]) (by simp [Pass.close]), ?_⟩
  rcases hout with hout | hout | hout <;> simp [hout, AtLoop]

theorem tracks_step (h : Tracks cfg w passes) (hs : Worker.Step cfg s w a s' w') :
    Tracks cfg w' (observe s w w' passes) := by
  cases hs with
  | start hpc | wake hpc | exit hpc _ | idle hpc _ =>
    exact tracks_outside h (by simp [hpc, WorkerPc.InLoop]) (by simp [WorkerPc.InLoop])
  | crash hpc => exact tracks_crash h hpc rfl
  | signal _ => exact tracks_same h rfl
  | loop hpc =>
    refine tracks_outside h (by simp [hpc, WorkerPc.InLoop]) ?_
    cases w.shouldStop <;> simp [WorkerPc.InLoop]
  | passed hpc =>
    simp only [observe, hpc]
    refine h.move hpc trivial (fun p => ⟨rfl, rfl⟩) fun p hp => ?_
    exact ⟨hp.closed (fun _ => rfl) (by simp), trivial⟩
  | leave hpc _ =>
    simp only [observe, hpc]
    refine h.move hpc trivial (fun p => ⟨rfl, rfl⟩) fun p hp => ?_
    exact ⟨hp.closed (by simp) (by simp), trivial⟩
  | @take b rest hpc _ =>
    simp only [observe, hpc]
    refine h.move hpc trivial (fun p => ⟨rfl, rfl⟩) fun p hp => ?_
    obtain ⟨hout, done, hlisted, hattempts⟩ := hp
    have hloop : AtLoop (.processing (.start b) rest) (p.begin b) :=
      ⟨hout, done, hlisted, by simp [Pass.begin, hattempts, Batch.start]⟩
    exact ⟨hloop.inOrder trivial, hloop⟩
  | @finish batch rest hpc _ =>
    simp only [observe, hpc]
    refine h.move hpc trivial (fun p => ⟨rfl, rfl⟩) fun p hp => ?_
    obtain ⟨hout, done, hlisted, hattempts⟩ := hp
    have hloop : AtLoop (.batches rest) (p.settle batch.id .returned) :=
      ⟨hout, done ++ [batch.id], hlisted.trans (by simp), by simp [Pass.settle, hattempts, returned]⟩
    exact ⟨hloop.inOrder trivial, hloop⟩
  | giveUp hpc hfailed _ =>
    refine tracks_raise h hpc hfailed ?_
    simp only [Worker.afterError]
    split <;> simp
  | die hpc hfailed _ => exact tracks_raise h hpc hfailed (by simp)
  | poll hpc _ =>
    simp only [observe, hpc]
    have hnew : AtLoop (.batches (s.getPendingBatches cfg.pendingBatchLimit))
        ⟨s, s.getPendingBatches cfg.pendingBatchLimit, [], none⟩ := ⟨rfl, [], rfl, rfl⟩
    refine ⟨fun p hp => ?_, fun _ => ⟨_, passes, rfl, hnew⟩⟩
    rcases List.mem_cons.mp hp with rfl | hold
    · exact ⟨rfl, hnew.inOrder trivial⟩
    · exact h.sound p hold
  | readError hpc =>
    refine tracks_outside h (by simp [hpc, WorkerPc.InLoop]) ?_
    cases hstop : w.shouldStop <;> simp [Worker.afterError, hstop, WorkerPc.InLoop]
  | @batch batch rest a _ batch' hpc hb =>
    simp only [observe, hpc]
    refine ⟨h.sound, fun _ => ?_⟩
    obtain ⟨p, older, hpasses, hat⟩ := h.newest (by simp [hpc, WorkerPc.InLoop])
    rw [hpc] at hat
    obtain ⟨hout, done, hlisted, hattempts⟩ := hat
    refine ⟨p, older, hpasses, hout, done, ?_, ?_⟩
    · rw [Batch.id_step hb, hlisted]
    · rw [Batch.id_step hb, hattempts]
  | leftover _ _ => exact tracks_same h rfl

variable {cfg : ServiceConfig} {s : Store × (ι → Worker × List Pass)}

theorem watched_tracks (h : (watched cfg).lts.Reachable s) (i : ι) : Tracks cfg (s.2 i).1 (s.2 i).2 := by
  apply Shared.recorded_invariant (I := Tracks cfg) ?_ ?_ h
  · rintro s w i ⟨-, hdown⟩
    rw [hdown i]
    exact ⟨by simp, by simp [Worker.down, WorkerPc.InLoop]⟩
  · intro s w a s' w' passes htracks hact
    exact tracks_step htracks (Worker.step_inv hact)

theorem watched_of_service {s : Store × (ι → Worker)} (h : (service cfg).lts.Reachable s) :
    ∃ passes : ι → List Pass, (watched cfg).lts.Reachable (s.1, fun i => (s.2 i, passes i)) :=
  Shared.reachable_recorded h

-- ---------------------------------------------------------------------------
-- A failing batch and the batches after it
-- ---------------------------------------------------------------------------

/-- Every pass attempts the batches of its list in order, up to and including
the first whose processing raises, which ends the pass; it attempts all of
them when none raises and nothing stops it. A pending batch whose processing
does not return in a pass keeps every batch after it from being attempted. -/
theorem failing_batch_ends_pass (h : (watched cfg).lts.Reachable s) (i : ι) (hp : p ∈ (s.2 i).2) :
    p.batchIds = p.tables.getPendingBatches cfg.pendingBatchLimit ∧
    p.attempts.map Attempt.batchId <+: p.batchIds ∧
    (p.outcome = some .passed → p.attempts = p.batchIds.map returned) ∧
    (∀ e, p.outcome = some (.raised e) → ∃ before b after, p.batchIds = before ++ b :: after ∧
      p.attempts = before.map returned ++ [⟨b, .raised e⟩]) ∧
    (∀ b e, ⟨b, .raised e⟩ ∈ p.attempts → p.outcome = some (.raised e)) ∧
    ∀ b c ending, p.tables.Pending b → b < c → ⟨c, ending⟩ ∈ p.attempts → returned b ∈ p.attempts := by
  have hsound := (watched_tracks h i).sound p hp
  refine ⟨hsound.listed, hsound.inOrder.attempts_prefix, ?_, ?_, ?_, ?_⟩
  · exact hsound.inOrder.attempts_of_passed
  · intro e he
    exact hsound.inOrder.attempts_of_raised he
  · intro b e hb
    exact hsound.inOrder.outcome_of_raised hb
  · intro b c ending hb hlt hc
    exact hsound.returned_before hb hlt hc

-- Batches 1 and 2 are pending, and the rows of batch 1 cannot be read.

def twoPending : Store :=
  (Store.empty.writeBatchStatus 1 .pending ⟨0, 0, 0⟩).writeBatchStatus 2 .pending ⟨0, 0, 0⟩

def unreadable : Batch := { Batch.start 1 with pc := .failed clickHouseError }

def blockedPass : Pass :=
  ⟨twoPending, [1, 2], [⟨1, .raised clickHouseError⟩], some (.raised clickHouseError)⟩

def blocked (n : Nat) : Store × (Unit → Worker × List Pass) :=
  (twoPending, fun _ =>
    (⟨.polling, false, List.replicate n unreadable.pool, []⟩, List.replicate n blockedPass))

theorem reachable_alone {w w' : Worker} {passes passes' : List Pass} {a : WorkerAction} {s s' : Store}
    (h : (watched rowByRow).lts.Reachable (s, fun _ : Unit => (w, passes)))
    (hs : Worker.step rowByRow s w a = some (s', w')) (hpasses : observe s w w' passes = passes') :
    (watched rowByRow).lts.Reachable (s', fun _ : Unit => (w', passes')) := by
  subst hpasses
  have hstep : (watched rowByRow).lts.step (s, fun _ : Unit => (w, passes)) (.inl ((), a))
      (s', fun _ => (w', observe s w w' passes)) :=
    ⟨(w', observe s w w' passes), ⟨hs, rfl⟩, by funext i; simp⟩
  exact h.step hstep

theorem reachable_submit {w : Worker} {passes : List Pass} {s : Store} (b : UUID)
    (h : (watched rowByRow).lts.Reachable (s, fun _ : Unit => (w, passes))) :
    (watched rowByRow).lts.Reachable
      (s.writeBatchStatus b .pending ⟨0, 0, 0⟩, fun _ : Unit => (w, passes)) := by
  have hstep : (watched rowByRow).lts.step (s, fun _ : Unit => (w, passes)) (.inr (.addPending b))
      (s.writeBatchStatus b .pending ⟨0, 0, 0⟩, fun _ => (w, passes)) := ⟨rfl, rfl⟩
  exact h.step hstep

theorem getPendingBatches_twoPending : twoPending.getPendingBatches 100 = [1, 2] := by decide +kernel

theorem reachable_blocked (n : Nat) : (watched rowByRow).lts.Reachable (blocked n) := by
  induction n with
  | zero =>
    have hempty : (watched rowByRow).lts.Reachable
        (Store.empty, fun _ : Unit => (Worker.down, ([] : List Pass))) :=
      .init ⟨⟨rfl, fun _ => rfl⟩, fun _ => rfl⟩
    exact reachable_alone (a := .start) (reachable_submit 2 (reachable_submit 1 hempty)) rfl rfl
  | succ n ih =>
    have hpolling : (watched rowByRow).lts.Reachable (twoPending, fun _ : Unit =>
        (⟨.querying, false, List.replicate n unreadable.pool, []⟩, List.replicate n blockedPass)) :=
      reachable_alone (a := .next) ih rfl rfl
    have hlisted : (watched rowByRow).lts.Reachable (twoPending, fun _ : Unit =>
        (⟨.batches [1, 2], false, List.replicate n unreadable.pool, []⟩,
          ⟨twoPending, [1, 2], [], none⟩ :: List.replicate n blockedPass)) := by
      refine reachable_alone (a := .poll) hpolling ?_ rfl
      simp [Worker.step, rowByRow, sampleConfig, getPendingBatches_twoPending]
    have hfailed : (watched rowByRow).lts.Reachable (twoPending, fun _ : Unit =>
        (⟨.processing unreadable [2], false, List.replicate n unreadable.pool, []⟩,
          ⟨twoPending, [1, 2], [⟨1, .running⟩], none⟩ :: List.replicate n blockedPass)) :=
      reachable_alone (a := .batch .readError) (reachable_alone (a := .next) hlisted rfl rfl) rfl rfl
    have hraised := reachable_alone (a := .next) (reachable_alone (a := .next) hfailed rfl rfl) rfl rfl
    rw [blocked, List.replicate_succ']
    exact hraised

/-- However often the worker polls, the same batch is attempted and the other never is. -/
theorem failing_batch_starves :
    (¬∀ s : Store × (Unit → Worker × List Pass), (watched rowByRow).lts.Reachable s →
      ∀ p ∈ (s.2 ()).2, p.outcome = some (.raised clickHouseError) →
        p.attempts.map Attempt.batchId = p.batchIds) ∧
    ∀ n, ∃ s : Store × (Unit → Worker × List Pass), (watched rowByRow).lts.Reachable s ∧
      (s.2 ()).1.shouldStop = false ∧ (s.2 ()).2.length = n ∧
      ∀ p ∈ (s.2 ()).2, p.batchIds = [1, 2] ∧ p.attempts = [⟨1, .raised clickHouseError⟩] := by
  constructor
  · intro h
    have hall := h (blocked 1) (reachable_blocked 1) blockedPass (by simp [blocked]) rfl
    simp [blockedPass] at hall
  · intro n
    refine ⟨blocked n, reachable_blocked n, rfl, by simp [blocked], ?_⟩
    intro p hp
    obtain rfl : p = blockedPass := List.eq_of_mem_replicate hp
    exact ⟨rfl, rfl⟩

/-- The second batch was pending too, and only the first is attempted. -/
theorem second_batch_waits :
    ∃ p : Pass, p.tables.Pending 2 ∧ p.batchIds = [1, 2] ∧ p.outcome = some (.raised clickHouseError) ∧
      ∃ before b after, p.batchIds = before ++ b :: after ∧
        p.attempts = before.map returned ++ [⟨b, .raised clickHouseError⟩] := by
  refine ⟨blockedPass, by decide +kernel, rfl, rfl, ?_⟩
  obtain ⟨-, -, -, hraised, -⟩ :=
    failing_batch_ends_pass (reachable_blocked 1) () (p := blockedPass) (by simp [blocked])
  exact hraised clickHouseError rfl

end LlmWorker
