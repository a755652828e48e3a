import LlmWorker.Service.Worker

/-!
# The ledger a worker keeps

What the service is for, without threads, pages of futures, chunk sizes and
attempts: a job holds some results and owes some rows, writes what it holds,
and reports the batch once a page comes back empty. `service_refines` maps
every run of the workers to a run of ledgers.
-/

namespace LlmWorker

open Python Transition

namespace Ledger

/-- `holding chunk owed`: results not yet written, and the keys of the rows
of the page whose results are still to come. -/
inductive Job
  | fetching
  | holding (chunk : List LLMResult) (owed : Multiset Key)
  | counting
  | reporting (counts : Counts)
  | returned
  | failed

/-- The steps of the job for batch `b`. With `repeats`, an insert may be made
again although the server has accepted it. -/
inductive JobStep (batchPageSize : Nat) (repeats : Prop) (b : UUID) (s : Store) :
    Job → Store → Job → Prop
  | page (h : s.getBatchRows batchPageSize b ≠ []) :
      JobStep batchPageSize repeats b s .fetching s
        (.holding [] ↑((s.getBatchRows batchPageSize b).map LLMInput.key))
  | empty (h : s.getBatchRows batchPageSize b = []) :
      JobStep batchPageSize repeats b s .fetching s .counting
  | produce (howed : owed = result.key ::ₘ owed') :
      JobStep batchPageSize repeats b s (.holding chunk owed) s (.holding (chunk ++ [result]) owed')
  | insert : JobStep batchPageSize repeats b s (.holding chunk owed) (s.writeResults chunk) (.holding [] owed)
  | insertRaised (hr : repeats) (hj : job = .holding chunk owed ∨ job = .failed) :
      JobStep batchPageSize repeats b s (.holding chunk owed) (s.writeResults chunk) job
  | turn : JobStep batchPageSize repeats b s (.holding [] 0) s .fetching
  | count : JobStep batchPageSize repeats b s .counting s (.reporting (s.getBatchCounts b))
  | report : JobStep batchPageSize repeats b s (.reporting counts)
      (s.writeBatchStatus b .complete counts) .returned
  | reportRaised (hr : repeats) (hj : job = .reporting counts ∨ job = .failed) :
      JobStep batchPageSize repeats b s (.reporting counts)
        (s.writeBatchStatus b .complete counts) job
  | fail : JobStep batchPageSize repeats b s job s .failed

/-- A worker between two polls: the job at hand, the batches still in the
list of the last poll, and the keys it has written so far. -/
structure Worker where
  job : Option (UUID × Job)
  queue : List UUID
  accepted : List Key

inductive Act (cfg : ServiceConfig) (repeats : Prop) (s : Store) (w : Worker) : Store → Worker → Prop
  | poll (hjob : w.job = none) :
      Act cfg repeats s w s { w with queue := s.getPendingBatches cfg.pendingBatchLimit }
  | take (hjob : w.job = none) (hq : w.queue = b :: rest) :
      Act cfg repeats s w s { w with job := some (b, .fetching), queue := rest }
  | work (hjob : w.job = some (b, job)) (h : JobStep cfg.batchPageSize repeats b s job s' job') :
      Act cfg repeats s w s' { w with
        job := some (b, job')
        accepted := w.accepted ++ Worker.added s s' }
  | finish (hjob : w.job = some (b, .returned)) : Act cfg repeats s w s { w with job := none }
  | drop : Act cfg repeats s w s { w with job := none, queue := [] }

theorem JobStep.store (h : JobStep batchPageSize repeats b s job s' job') :
    s' = s ∨ (∃ chunk owed, job = .holding chunk owed ∧ s' = s.writeResults chunk) ∨
      ∃ counts, job = .reporting counts ∧ s' = s.writeBatchStatus b .complete counts := by
  cases h with
  | insert | insertRaised => exact .inr (.inl ⟨_, _, rfl, rfl⟩)
  | report | reportRaised => exact .inr (.inr ⟨_, rfl, rfl⟩)
  | _ => exact .inl rfl

end Ledger

def ledgers (ι : Type) (cfg : ServiceConfig) (repeats : Prop) (okEnv : Store → EnvAction → Prop) :
    Shared Store ι Ledger.Worker Unit EnvAction where
  init s w := s = .empty ∧ ∀ i, w i = ⟨none, [], []⟩
  act s w _ s' w' := Ledger.Act cfg repeats s w s' w'
  env s e s' := okEnv s e ∧ s.env e = some s'

-- ---------------------------------------------------------------------------
-- The ledger of a run of process_single_batch
-- ---------------------------------------------------------------------------

namespace Batch

open Ledger (Job JobStep)

def owed (batch : Batch) : Multiset Key := batch.pool.owed.map LLMInput.key

def job (batch : Batch) : Job :=
  match batch.pc with
  | .fetching => .fetching
  | .consuming =>
    match batch.pool.pc with
    | .unwinding _ | .raised _ => .failed
    | _ => .holding batch.pending batch.owed
  | .writing _ => .holding batch.pending batch.owed
  | .counting => .counting
  | .reporting counts _ => .reporting counts
  | .returned => .returned
  | .failed _ => .failed

/-- The pool is that of some page, and no exception of it is under way when a
chunk is written. -/
structure Ok (cfg : ServiceConfig) (batch : Batch) : Prop where
  wf : ∃ inputs, Pool.Wf cfg.executor inputs batch.pool
  whole : ∀ attempt, batch.pc = .writing attempt → ¬batch.pool.Broken

theorem job_holding (batch : Batch) (hpc : batch.pc = .consuming) (hb : ¬batch.pool.Broken) :
    batch.job = .holding batch.pending batch.owed := by
  unfold job
  rw [hpc]
  unfold Pool.Broken at hb
  cases h : batch.pool.pc <;> simp [h] at hb ⊢

theorem job_broken (batch : Batch) (hpc : batch.pc = .consuming) (hb : batch.pool.Broken) :
    batch.job = .failed := by
  unfold job
  rw [hpc]
  unfold Pool.Broken at hb
  cases h : batch.pool.pc <;> simp [h] at hb ⊢

theorem ok_start (cfg : ServiceConfig) (b : UUID) : Ok cfg (start b) :=
  ⟨⟨[], Pool.wf_exhausted cfg.executor⟩, by simp [start]⟩

theorem owed_exhausted {batch : Batch} (h : batch.pool.pc = .exhausted) : batch.owed = 0 := by
  simp [owed, Pool.owed, Pool.owing, Pool.held, h]

theorem not_broken_of_exhausted {p : Pool} (h : p.pc = .exhausted) : ¬p.Broken := by
  simp [Pool.Broken, h]

theorem job_thread {batch : Batch} (h : batch.pool.threadStep x i a = some p) :
    ({ batch with pool := p } : Batch).job = batch.job := by
  have howed := Pool.owed_thread h
  obtain ⟨f, st, -, -, -, rfl⟩ := Pool.threadStep_inv h
  unfold job owed
  rw [howed]

theorem ok_step (hok : Ok cfg batch) (h : Step cfg s batch a s' batch') : Ok cfg batch' := by
  obtain ⟨⟨inputs, hw⟩, hwhole⟩ := hok
  cases h with
  | thread hp =>
    refine ⟨⟨inputs, Pool.wf_thread hw hp⟩, fun attempt hpc hb => hwhole attempt hpc ?_⟩
    obtain ⟨f, st, -, -, -, rfl⟩ := Pool.threadStep_inv hp
    exact hb
  | silent hpc hp => exact ⟨⟨inputs, Pool.wf_main hw (Pool.mainStep_inv hp)⟩, by simp [hpc]⟩
  | receive hpc hp =>
    have hstep := Pool.mainStep_inv hp
    exact ⟨⟨inputs, Pool.wf_main hw hstep⟩, fun _ _ => Pool.not_broken_of_yield hstep⟩
  | empty | turn | raised | count | readError => exact ⟨⟨inputs, hw⟩, by simp⟩
  | page => exact ⟨⟨_, Pool.wf_start _ _⟩, by simp⟩
  | flush _ hpool _ => exact ⟨⟨inputs, hw⟩, fun _ _ => not_broken_of_exhausted hpool⟩
  | @write attempt outcome hpc =>
    rcases afterWrite_cases batch outcome attempt with ⟨-, heq⟩ | ⟨-, ⟨heq, -⟩ | ⟨heq, -⟩⟩ <;> rw [heq]
    · exact ⟨⟨inputs, hw⟩, by simp⟩
    · exact ⟨⟨inputs, hw⟩, fun _ _ => hwhole attempt hpc⟩
    · exact ⟨⟨inputs, hw⟩, by simp⟩
  | @report counts attempt outcome hpc =>
    rcases afterReport_cases batch outcome counts attempt with
      ⟨-, heq⟩ | ⟨-, ⟨heq, -⟩ | ⟨heq, -⟩⟩ <;> rw [heq] <;> exact ⟨⟨inputs, hw⟩, by simp⟩

theorem id_step (h : Step cfg s batch a s' batch') : batch'.id = batch.id := by
  cases h with
  | write => exact id_afterWrite ..
  | report => exact id_afterReport ..
  | _ => rfl

theorem job_step (hok : Ok cfg batch) (hr : a = .insert .raisedAfter → repeats)
    (h : Step cfg s batch a s' batch') : (s' = s ∧ batch'.job = batch.job) ∨
      JobStep cfg.batchPageSize repeats batch.id s batch.job s' batch'.job := by
  obtain ⟨⟨inputs, hw⟩, hwhole⟩ := hok
  cases h with
  | thread hp => exact .inl ⟨rfl, job_thread hp⟩
  | @silent a p hpc hp =>
    have hstep := Pool.mainStep_inv hp
    by_cases hb' : p.Broken
    · rw [job_broken { batch with pool := p } hpc hb']
      exact .inr .fail
    · have hb : ¬batch.pool.Broken := fun hb => hb' (Pool.broken_main hstep hb)
      rcases Pool.owed_main hw hstep with ⟨hbroken, -⟩ | ⟨howed, -⟩ | ⟨row, result, -, hout, -⟩
      · exact absurd hbroken hb'
      · rw [job_holding batch hpc hb, job_holding { batch with pool := p } hpc hb']
        exact .inl ⟨rfl, by simp [owed, howed]⟩
      · cases hout
  | @receive a p result hpc hp =>
    have hstep := Pool.mainStep_inv hp
    have hb' := Pool.not_broken_of_yield hstep
    have hb : ¬batch.pool.Broken := fun hb => hb' (Pool.broken_main hstep hb)
    have hjob : ({ batch with pool := p }.receive result).job =
        .holding (batch.pending ++ [result]) (p.owed.map LLMInput.key) := by
      by_cases hfull : resultWriteBatchSize ≤ batch.pending.length + 1
      · simp [receive, hfull, job, owed]
      · exact job_holding _ (by simp [receive, hfull]) hb'
    rcases Pool.owed_main hw hstep with ⟨hbroken, -⟩ | ⟨-, hout⟩ | ⟨row, r, howed, hout, hkey⟩
    · exact absurd hbroken hb'
    · cases hout
    · obtain rfl : result = r := by simpa using hout
      rw [job_holding batch hpc hb, hjob]
      exact .inr (.produce (by simp [owed, howed, hkey]))
  | empty hpc hnil =>
    have hjob : batch.job = .fetching := by simp [job, hpc]
    rw [hjob]
    exact .inr (.empty hnil)
  | page hpc hne =>
    have hjob : batch.job = .fetching := by simp [job, hpc]
    rw [hjob]
    refine .inr ?_
    have hjob' : (Batch.mk batch.id .consuming
        (Pool.start (s.getBatchRows cfg.batchPageSize batch.id)) []).job =
          .holding [] ↑((s.getBatchRows cfg.batchPageSize batch.id).map LLMInput.key) := by
      simp [job, Pool.start, owed, Pool.owed, Pool.owing, Pool.held]
    rw [hjob']
    exact .page hne
  | turn hpc hpool hnil =>
    rw [job_holding batch hpc (not_broken_of_exhausted hpool), hnil, owed_exhausted hpool]
    exact .inr .turn
  | flush hpc hpool _ =>
    rw [job_holding batch hpc (not_broken_of_exhausted hpool)]
    exact .inl ⟨rfl, rfl⟩
  | raised hpc hpool => exact .inr .fail
  | count hpc =>
    have hjob : batch.job = .counting := by simp [job, hpc]
    rw [hjob]
    exact .inr .count
  | readError _ => exact .inr .fail
  | @write attempt outcome hpc =>
    have hjob : batch.job = .holding batch.pending batch.owed := by simp [job, hpc]
    rw [hjob]
    rcases afterWrite_cases batch outcome attempt with ⟨rfl, heq⟩ | ⟨hne, ⟨heq, -⟩ | ⟨heq, -⟩⟩ <;> rw [heq]
    · rw [job_holding { batch with pc := .consuming, pending := [] } rfl (hwhole _ hpc)]
      exact .inr .insert
    · cases outcome with
      | ok => exact absurd rfl hne
      | raisedBefore => exact .inl ⟨rfl, rfl⟩
      | raisedAfter => exact .inr (.insertRaised (hr rfl) (.inl rfl))
    · cases outcome with
      | ok => exact absurd rfl hne
      | raisedBefore => exact .inr .fail
      | raisedAfter => exact .inr (.insertRaised (hr rfl) (.inr rfl))
  | @report counts attempt outcome hpc =>
    have hjob : batch.job = .reporting counts := by simp [job, hpc]
    rw [hjob]
    rcases afterReport_cases batch outcome counts attempt with
      ⟨rfl, heq⟩ | ⟨hne, ⟨heq, -⟩ | ⟨heq, -⟩⟩ <;> rw [heq]
    · exact .inr .report
    · cases outcome with
      | ok => exact absurd rfl hne
      | raisedBefore => exact .inl ⟨rfl, rfl⟩
      | raisedAfter => exact .inr (.reportRaised (hr rfl) (.inl rfl))
    · cases outcome with
      | ok => exact absurd rfl hne
      | raisedBefore => exact .inr .fail
      | raisedAfter => exact .inr (.reportRaised (hr rfl) (.inr rfl))

end Batch

-- ---------------------------------------------------------------------------
-- The ledger of a worker
-- ---------------------------------------------------------------------------

namespace Worker

open Ledger (Act)

def ledger (w : Worker) : Ledger.Worker :=
  match w.pc with
  | .batches rest => ⟨none, rest, w.accepted⟩
  | .processing batch rest => ⟨some (batch.id, batch.job), rest, w.accepted⟩
  | _ => ⟨none, [], w.accepted⟩

def Ok (cfg : ServiceConfig) (w : Worker) : Prop :=
  ∀ batch rest, w.pc = .processing batch rest → batch.Ok cfg

theorem ledger_accepted (w : Worker) : w.ledger.accepted = w.accepted := by
  unfold ledger
  split <;> rfl

@[simp] theorem added_self (s : Store) : added s s = [] := by simp [added]

theorem ledger_afterError (w : Worker) : w.afterError.ledger = ⟨none, [], w.accepted⟩ := by
  unfold afterError
  cases w.shouldStop <;> rfl

theorem ok_step (hok : w.Ok cfg) (h : Step cfg s w a s' w') : w'.Ok cfg := by
  have hafter (w : Worker) : w.afterError.Ok cfg := by
    unfold afterError Ok
    cases w.shouldStop <;> simp
  cases h with
  | signal | leftover => exact hok
  | loop => cases hs : w.shouldStop <;> simp [Ok]
  | @take b rest =>
    rintro _ _ ⟨⟩
    exact Batch.ok_start cfg b
  | giveUp | readError => exact hafter _
  | batch hpc hb =>
    rintro _ _ ⟨⟩
    exact Batch.ok_step (hok _ _ hpc) hb
  | _ => simp [Ok]

theorem ledger_step {repeats : Prop} (hok : w.Ok cfg) (hr : ¬Faithful w a → repeats)
    (h : Step cfg s w a s' w') : (s' = s ∧ w'.ledger = w.ledger) ∨ Act cfg repeats s w.ledger s' w'.ledger := by
  have hdrop : Act cfg repeats s w.ledger s ⟨none, [], w.accepted⟩ := by
    rw [← ledger_accepted w]
    exact .drop
  cases h with
  | start hpc | wake hpc | exit hpc | idle hpc | passed hpc => exact .inl ⟨rfl, by simp [ledger, hpc]⟩
  | signal | leftover => exact .inl ⟨rfl, rfl⟩
  | crash | die | leave => exact .inr hdrop
  | loop hpc =>
    left
    cases hs : w.shouldStop <;> simp [ledger, hpc]
  | @take b rest hpc =>
    right
    have hledger : w.ledger = ⟨none, b :: rest, w.accepted⟩ := by simp [ledger, hpc]
    rw [hledger]
    exact .take rfl rfl
  | @finish batch rest hpc hret =>
    right
    have hjob : batch.job = .returned := by simp [Batch.job, hret]
    have hledger : w.ledger = ⟨some (batch.id, .returned), rest, w.accepted⟩ := by simp [ledger, hpc, hjob]
    rw [hledger]
    exact .finish rfl
  | giveUp =>
    rw [ledger_afterError]
    exact .inr hdrop
  | poll hpc =>
    right
    have hledger : w.ledger = ⟨none, [], w.accepted⟩ := by simp [ledger, hpc]
    rw [hledger]
    exact .poll rfl
  | readError hpc => exact .inl ⟨rfl, by rw [ledger_afterError]; simp [ledger, hpc]⟩
  | @batch batch rest a _ batch' hpc hb =>
    have hledger : w.ledger = ⟨some (batch.id, batch.job), rest, w.accepted⟩ := by simp [ledger, hpc]
    rw [hledger]
    have hrep : a = .insert .raisedAfter → repeats := by
      rintro rfl
      exact hr (by simp [Faithful])
    rcases Batch.job_step (hok batch rest hpc) hrep hb with ⟨rfl, hjob⟩ | hjob
    · exact .inl ⟨rfl, by simp [ledger, hjob, Batch.id_step hb]⟩
    · right
      have hwork : Act cfg repeats s ⟨some (batch.id, batch.job), rest, w.accepted⟩ s'
          ⟨some (batch.id, batch'.job), rest, w.accepted ++ added s s'⟩ := .work rfl hjob
      rw [← Batch.id_step hb] at hwork ⊢
      exact hwork

end Worker

/-- Every run of the workers is a run of their ledgers. -/
theorem service_refines {ι : Type} [DecidableEq ι] {cfg : ServiceConfig} {repeats : Prop}
    {ok : Worker → WorkerAction → Prop} {okEnv : Store → EnvAction → Prop}
    (hr : ∀ w a, ok w a → ¬Faithful w a → repeats) :
    ((service cfg : Shared Store ι _ _ _).restrict ok okEnv).lts.Refines
      (ledgers ι cfg repeats okEnv).lts (fun p => (p.1, Worker.ledger ∘ p.2)) := by
  refine Shared.refines (I := Worker.Ok cfg) ?_ ?_ ?_ ?_
  · rintro s w ⟨rfl, hdown⟩
    refine ⟨⟨rfl, fun i => by simp [hdown i, Worker.down, Worker.ledger]⟩, fun i => ?_⟩
    rw [hdown i]
    simp [Worker.Ok, Worker.down]
  · rintro s w a s' w' hok ⟨ha, hstep⟩
    exact Worker.ok_step hok (Worker.step_inv hstep)
  · rintro s w a s' w' hok ⟨ha, hstep⟩
    rcases Worker.ledger_step hok (hr w a ha) (Worker.step_inv hstep) with h | h
    · exact .inl h
    · exact .inr ⟨(), h⟩
  · rintro s e s' ⟨he, hstep⟩
    exact ⟨he, hstep⟩

end LlmWorker
