import Synora.Manager.AtMostOnce
import Synora.Manager.Claiming
import Synora.Manager.Lease

namespace Synora.Manager
open Core Db Engine

/-! ## Claims and attempts of one row -/

/-- So many claims have taken the row: one for each attempt that has begun. -/
structure Counted (n : ℕ) (r : RunRow) : Prop where
  le : n ≤ r.retryCount + 1
  waiting : r.status = .queued ∨ r.status = .retrying → n = r.retryCount
  active : r.status.isActive → n = r.retryCount + 1

theorem Counted.of_terminal {n : ℕ} {r : RunRow} (hn : n ≤ r.retryCount + 1)
    (ht : r.status.isTerminal) : Counted n r where
  le := hn
  waiting h := by rcases h with h | h <;> simp [h, DbStatus.isTerminal] at ht
  active h := by simp [DbStatus.not_active_of_terminal ht] at h

/-- Every move of a row but its claim keeps the count. -/
theorem Counted.move {n : ℕ} {q : Stmt} {r r' : RunRow} (h : Counted n r) (hm : RowMove q r r')
    (hc : r.status = .queued → ¬r'.status.isActive) : Counted n r' := by
  cases hm with
  | stay hs hn =>
    exact ⟨hn ▸ h.le, fun hw => hn ▸ h.waiting (hs ▸ hw), fun ha => hn ▸ h.active (hs ▸ ha)⟩
  | claim hs hs' hn => exact absurd (by rw [hs']; rfl) (hc hs)
  | start hs hs' hn =>
    have ha : r.status.isActive := by rcases hs with hs | hs <;> rw [hs] <;> rfl
    exact ⟨hn ▸ h.le, fun hw => by simp [hs'] at hw, fun _ => hn ▸ h.active ha⟩
  | stop hs hs' hn =>
    have ha := DbStatus.isActive_of_isExecuting hs
    exact ⟨hn ▸ h.le, fun hw => by simp [hs'] at hw, fun _ => hn ▸ h.active ha⟩
  | withdraw hs hs' hn => exact .of_terminal (hn ▸ h.le) (by rw [hs']; rfl)
  | finish hs hs' hn => exact .of_terminal (hn ▸ h.le) hs'
  | retry expected nextRetryAt count fence now hq hs hs' hn =>
    have hcount := h.active hs
    exact ⟨by omega, fun _ => by omega, fun ha => by simp [hs', DbStatus.isActive] at ha⟩
  | requeue count now hq hs hs' hn =>
    have hcount := h.waiting (Or.inr hs)
    exact ⟨hn ▸ h.le, fun _ => by omega, fun ha => by simp [hs', DbStatus.isActive] at ha⟩

section
variable {scaleDelay : ℕ → F64 → ℕ → ℕ} {m m' : State} {a : Action}

/-- Of all steps only a claim makes a queued run active. -/
theorem Moves.claim_of_active (inv : Inv m) (h : Moves scaleDelay m a m') {id : String}
    {r r' : RunRow} (hr : m.db.run id = some r) (hr' : m'.db.run id = some r')
    (hs : r.status = .queued) (hact : r'.status.isActive) :
    ∃ id worker token now, a = .statement (.updateRun (.claimRun id worker token now)) := by
  obtain hdb | ⟨q, hq, hdb, hstamp⟩ := h.db_stamped
  · rw [hdb, hr, Option.some.injEq] at hr'
    simp [← hr', hs, DbStatus.isActive] at hact
  rw [hdb] at hr'
  obtain hsame | ⟨u, x, rfl, hx, hg, hw, -⟩ | ⟨hnone, -⟩ | ⟨job, -, hnone⟩ :=
    after_run inv.valid q id
  · rw [hsame, hr, Option.some.injEq] at hr'
    simp [← hr', hs, DbStatus.isActive] at hact
  · obtain rfl : x = r := Option.some.inj (hx.symm.trans hr)
    obtain rfl : u.update.write x = r' := Option.some.inj (hw.symm.trans hr')
    obtain ⟨ha, -⟩ | ⟨now, hnow, -⟩ := hq.lease_of_guard inv hg hact
    · simp [hs, DbStatus.isActive] at ha
    · rcases hstamp with rfl | hstamp
      · cases u with
        | claimRun id worker token now => exact ⟨_, _, _, _, rfl⟩
        | renewRunLease id worker token now =>
          change x.status.isActive at hact
          simp [hs, DbStatus.isActive] at hact
        | _ => cases hnow
      · rw [hstamp] at hnow
        cases hnow
  · simp [hr] at hnone
  · simp [hr'] at hnone

/-- Only the verdict of a completion raises the retry count. -/
theorem Moves.retried (inv : Inv m) (h : Moves scaleDelay m a m') {id : String} {r r' : RunRow}
    (hr : m.db.run id = some r) (hr' : m'.db.run id = some r')
    (hne : r'.retryCount ≠ r.retryCount) :
    ∃ x ∈ m.handlers, ∃ run nextRetryAt n, x.phase = .decided run (.retry nextRetryAt n) ∧
      x.body.runId = id ∧ r'.retryCount = n := by
  obtain hdb | ⟨q, hq, hdb⟩ := h.db
  · rw [hdb, hr, Option.some.injEq] at hr'
    exact absurd (by rw [hr']) hne
  rw [hdb] at hr'
  obtain hsame | ⟨u, x, rfl, hx, hg, hw, -⟩ | ⟨hnone, -⟩ | ⟨job, -, hnone⟩ :=
    after_run inv.valid q id
  · rw [hsame, hr, Option.some.injEq] at hr'
    exact absurd (by rw [hr']) hne
  · obtain rfl : x = r := Option.some.inj (hx.symm.trans hr)
    obtain rfl : u.update.write x = r' := Option.some.inj (hw.symm.trans hr')
    cases hq with
    | free hf => cases u <;> first | exact absurd rfl hne | cases hf
    | complete ha hh hp hu hc =>
      rename_i i y run v now
      cases v with
      | answer code => cases hu
      | finish c =>
        cases hu
        exact absurd rfl hne
      | retry nextRetryAt n =>
        cases hu
        simp only [RunStmt.update, setRetryFromActiveFenced, decide_eq_true_eq] at hg
        have hid := (Tables.run_eq_some hr).2
        exact ⟨y, List.mem_of_getElem? hh, run, nextRetryAt, n, hp, hg.1.symm.trans hid, rfl⟩
    | skipFinish _ | expire | tickDrop _ | tickRequeue _ _ => exact absurd rfl hne
  · simp [hr] at hnone
  · simp [hr'] at hnone

theorem Moves.of_new (inv : Inv m) (h : Moves scaleDelay m a m') {id : String}
    {r : RunRow} (hn : m.db.run id = none) (hr : m'.db.run id = some r) :
    id ∉ m.runIds ∧ r.retryCount = 0 := by
  obtain hdb | ⟨q, hq, hdb⟩ := h.db
  · rw [hdb, hn] at hr
    cases hr
  · rw [hdb] at hr
    exact ⟨(hq.fresh inv hn hr).1, (inserted_of_new inv.valid hn hr).retryCount⟩

theorem judge_retry {job : Option JobSpec} {run : RunRow} {body : CompleteRequest}
    {ended nextRetryAt : Time} {n : ℕ}
    (h : judge scaleDelay job run body ended = .retry nextRetryAt n) :
    ∃ j, job = some j ∧ n ≤ j.retry := by
  unfold judge at h
  split at h
  · cases h
  cases job with
  | none => cases h
  | some j =>
    refine ⟨j, rfl, ?_⟩
    dsimp only [judgeStatus] at h
    split at h
    · cases h
    split at h
    any_goals cases h
    split at h
    · rename_i delay hdelay
      cases h
      exact retryDecision_retry hdelay
    · cases h

/-- A retry that was decided stays within the budget of the job as configured then. -/
theorem Moves.decided (h : Moves scaleDelay m a m') {x : Handler} (hx : x ∈ m'.handlers)
    {run : RunRow} {nextRetryAt : Time} {n : ℕ}
    (hp : x.phase = .decided run (.retry nextRetryAt n)) :
    x ∈ m.handlers ∨ ∃ j, m.job run.jobId = some j ∧ n ≤ j.retry := by
  have hset {i : ℕ} {y : Handler} {phase : Phase}
      (hx : x ∈ (m.setPhase i y phase).handlers) (hph : ∀ run v, phase ≠ .decided run v) :
      x ∈ m.handlers := by
    rcases mem_setPhase hx with hx | rfl
    · exact hx
    · exact absurd hp (hph _ _)
  cases h with
  | request body =>
    rcases List.mem_append.mp hx with hx | hx
    · exact Or.inl hx
    · rw [List.mem_singleton.mp hx] at hp
      cases hp
  | decide hh hq hv =>
    rcases mem_setPhase hx with hx | rfl
    · exact Or.inl hx
    · cases hp
      exact Or.inr (judge_retry hv)
  | load hh hq hr => exact Or.inl (hset hx (by simp))
  | update hh hq hu hc => exact Or.inl (hset hx (by simp))
  | project hh hq => exact Or.inl (hset hx (by simp))
  | count hh hq =>
    refine Or.inl (hset hx ?_)
    split <;> simp
  | requeue hh hq hid => exact Or.inl (hset hx (by simp))
  | log hh hq => exact Or.inl (hset hx (by simp))
  | answer a code hh => exact Or.inl (hset hx (by simp))
  | _ => exact Or.inl hx

end

/-! ## The budget of a job -/

/-- The definition of the job is never changed. -/
def KeepsSpec (job : JobSpec) : ClaimMove → Prop
  | .manager (.reload jobs) => (State.init jobs).job job.name = some job
  | _ => True

structure Budgeted (job : JobSpec) (s : Claiming) : Prop where
  inv : Inv s.manager
  known : KnownJobs s.manager
  mutex : ∀ j, s.holders j ≤ 1
  spec : s.manager.job job.name = some job
  issued : ∀ e ∈ s.taken, e.1 ∈ s.manager.runIds
  counted : ∀ id r, s.db.run id = some r → Counted (s.taken.count (id, r.jobId)) r
  verdicts : ∀ x ∈ s.manager.handlers, ∀ run nextRetryAt n,
    x.phase = .decided run (.retry nextRetryAt n) → run.jobId = job.name → n ≤ job.retry
  bound : ∀ id r, s.db.run id = some r → r.jobId = job.name → r.retryCount ≤ job.retry
  limit : ∀ id, s.taken.count (id, job.name) ≤ job.retry + 1
  claimers : ∀ c ∈ s.claimers, RowHas s.manager c.runId fun r =>
    r.jobId = c.job ∧ ∀ n, c.phase = .taken n → r.retryCount = n
  answers : ∀ e ∈ s.answers, e.2.2 = e.2.1

variable {scaleDelay : ℕ → F64 → ℕ → ℕ} {s s' : Claiming} {a : ClaimMove} {job : JobSpec}

theorem budgeted_init {jobs : List JobSpec} (hjob : (State.init jobs).job job.name = some job) :
    Budgeted job (Claiming.init jobs) where
  inv := inv_init jobs
  known := knownJobs_init jobs
  mutex j := by simp [Claiming.holders, Claiming.init, State.init]
  spec := hjob
  issued := by simp [Claiming.init]
  counted id r hr := by cases hr
  verdicts x hx := by cases hx
  bound id r hr := by cases hr
  limit id := by simp [Claiming.init]
  claimers c hc := by cases hc
  answers e he := by cases he

/-- A row of the job after a step of the rest of the manager. -/
theorem Budgeted.bound_moves (h : Budgeted job s) {b : Action} {m : State}
    (hm : Moves scaleDelay s.manager b m) {id : String} {r' : RunRow}
    (hr' : m.db.run id = some r') (hj : r'.jobId = job.name) : r'.retryCount ≤ job.retry := by
  cases hr : s.manager.db.run id with
  | none =>
    rw [(hm.of_new h.inv hr hr').2]
    exact Nat.zero_le _
  | some r =>
    have hjob : r'.jobId = r.jobId := hm.kept RunStmt.write_jobId h.inv.valid hr hr'
    by_cases hn : r'.retryCount = r.retryCount
    · rw [hn]
      exact h.bound id r hr (hjob ▸ hj)
    · obtain ⟨x, hx, run, nextRetryAt, n, hp, rfl, rfl⟩ := hm.retried h.inv hr hr' hn
      have hrun : r.jobId = run.jobId :=
        (h.known.handlers x hx run (by simp [Handler.row, hp])).row r hr
      exact h.verdicts x hx run nextRetryAt _ hp (by rw [← hrun, ← hjob, hj])

theorem Budgeted.counted_moves (h : Budgeted job s) {b : Action} {m : State} (ha : s.allowed b)
    (hm : Moves scaleDelay s.manager b m) {id : String} {r' : RunRow}
    (hr' : m.db.run id = some r') : Counted (s.taken.count (id, r'.jobId)) r' := by
  cases hr : s.manager.db.run id with
  | none =>
    obtain ⟨hfresh, hzero⟩ := hm.of_new h.inv hr hr'
    rw [List.count_eq_zero.mpr fun hmem => hfresh (h.issued _ hmem)]
    exact ⟨by omega, fun _ => by omega, fun hact => absurd hact (hm.not_active_of_new h.inv hr hr')⟩
  | some r =>
    have hjob : r'.jobId = r.jobId := hm.kept RunStmt.write_jobId h.inv.valid hr hr'
    obtain ⟨x, hx, hmove⟩ := hm.row h.inv (h.inv.issued id r hr) hr'
    obtain rfl : x = r := Option.some.inj (hx.symm.trans hr)
    rw [hjob]
    rcases hmove with rfl | ⟨q, -, hmove⟩
    · exact h.counted id r' hr
    · refine (h.counted id x hr).move hmove fun hs hact => ?_
      obtain ⟨_, _, _, _, rfl⟩ := hm.claim_of_active h.inv hr hr' hs hact
      cases ha

/-- While a claim is under way its row keeps the attempt. -/
theorem Budgeted.claimers_moves (h : Budgeted job s) {b : Action} {m : State}
    (hm : Moves scaleDelay s.manager b m) {c : Claimer} (hc : c ∈ s.claimers) :
    RowHas m c.runId fun r => r.jobId = c.job ∧ ∀ n, c.phase = .taken n → r.retryCount = n := by
  have hrow := h.claimers c hc
  refine ⟨hm.runIds hrow.issued, fun r' hr' => ?_⟩
  obtain ⟨r, hr, -⟩ := hm.row h.inv hrow.issued hr'
  have hjob : r'.jobId = r.jobId := hm.kept RunStmt.write_jobId h.inv.valid hr hr'
  obtain ⟨hcjob, hattempt⟩ := hrow.row r hr
  refine ⟨hjob.trans hcjob, fun n hn => ?_⟩
  by_contra hne
  have hraised : r'.retryCount ≠ r.retryCount := fun he => hne (he.trans (hattempt n hn))
  obtain ⟨x, hx, run, nextRetryAt, k, hp, hid, -⟩ := hm.retried h.inv hr hr' hraised
  have hrun : r.jobId = run.jobId :=
    (h.known.handlers x hx run (by simp [Handler.row, hp])).row r (hid ▸ hr)
  have hholds : x.holds c.job = true := by simp [Handler.holds, hp, ← hrun, hcjob]
  rw [Claiming.not_holds h.mutex hc hx] at hholds
  cases hholds

theorem Moves.job_eq {m m' : State} {b : Action} (h : Moves scaleDelay m b m')
    (hk : KeepsSpec job (.manager b)) (hj : m.job job.name = some job) :
    m'.job job.name = some job := by
  cases h with
  | reload jobs ht hr => exact hk
  | _ => exact hj

theorem Budgeted.manager (h : Budgeted job s) {b : Action} {m : State} (ha : s.allowed b)
    (hk : KeepsSpec job (.manager b)) (hm : Moves scaleDelay s.manager b m) :
    Budgeted job { s with manager := m } where
  inv := h.inv.moves hm
  known := knownJobs_step h.inv h.known hm
  mutex := claim_mutex_step h.mutex (.manager ha hm)
  spec := hm.job_eq hk h.spec
  issued e he := hm.runIds (h.issued e he)
  counted id r hr := h.counted_moves ha hm hr
  verdicts x hx run nextRetryAt n hp hj := by
    obtain hx | ⟨j, hspec, hle⟩ := hm.decided hx hp
    · exact h.verdicts x hx run nextRetryAt n hp hj
    · rw [hj, h.spec, Option.some.injEq] at hspec
      rwa [hspec]
  bound id r hr hj := h.bound_moves hm hr hj
  limit := h.limit
  claimers c hc := h.claimers_moves hm hc
  answers := h.answers

/-- `claim_run` as two statements of the manager. -/
theorem take_moves (scaleDelay : ℕ → F64 → ℕ → ℕ) (s : Claiming) (i : ℕ) (c : Claimer)
    (token : String) (now : Time) :
    ∃ b b' m, Moves scaleDelay s.manager b m ∧
      Moves scaleDelay m b' (s.take i c token now).manager ∧
      ∀ job, KeepsSpec job (.manager b) ∧ KeepsSpec job (.manager b') :=
  ⟨_, _, _, .statement (q := claim c.runId c.worker token now) rfl,
    .statement (q := .setJobStatus c.job .syncing) rfl, fun _ => ⟨trivial, trivial⟩⟩

/-- A claim takes one row from the queue; no row changes its job or its attempt. -/
theorem run_take (hv : s.db.Valid) {i : ℕ} {c : Claimer} {token : String} {now : Time}
    (hn : Claims s.db c.runId c.worker token now) {id : String} {r' : RunRow}
    (hr' : (s.take i c token now).db.run id = some r') :
    ∃ r, s.db.run id = some r ∧ r'.jobId = r.jobId ∧ r'.retryCount = r.retryCount ∧
      (r' = r ∨ id = c.runId ∧ r.status = .queued) ∧ (id = c.runId → r'.status = .syncing) := by
  have hafter : (after s.db (claim c.runId c.worker token now)).run id = some r' := by
    rw [← hr']
    exact (run_after_of_not_writesRuns (after_valid hv _) rfl id).symm
  by_cases hid : id = c.runId
  · subst hid
    obtain ⟨r, hr, hqueued, htaken⟩ := hn.row hv
    rw [htaken, Option.some.injEq] at hafter
    subst hafter
    exact ⟨r, hr, rfl, rfl, Or.inr ⟨rfl, hqueued⟩, fun _ => rfl⟩
  · rw [run_after_claim_ne s.db c.worker token now hid] at hafter
    exact ⟨r', hafter, rfl, rfl, Or.inl rfl, fun h => absurd h hid⟩

theorem Budgeted.take (h : Budgeted job s) {i : ℕ} {c : Claimer} {token : String} {now : Time}
    (hc : s.claimers[i]? = some c) (hn : Claims s.db c.runId c.worker token now) :
    Budgeted job (s.take i c token now) := by
  have hmem := List.mem_of_getElem? hc
  obtain ⟨r, hr, hqueued, -⟩ := hn.row h.inv.valid
  have hjob : r.jobId = c.job := ((h.claimers c hmem).row r hr).1
  have hcount : s.taken.count (c.runId, c.job) = r.retryCount :=
    hjob ▸ (h.counted c.runId r hr).waiting (Or.inl hqueued)
  obtain ⟨b, b', m, hb, hb', hk⟩ := take_moves (fun d _ _ => d) s i c token now
  have inv := h.inv.moves hb
  refine
    { inv := inv.moves hb'
      known := knownJobs_step inv (knownJobs_step h.inv h.known hb) hb'
      mutex := fun j => (s.holders_set _ hc j).le.trans (h.mutex j)
      spec := hb'.job_eq (hk job).2 (hb.job_eq (hk job).1 h.spec)
      issued := ?_
      counted := ?_
      verdicts := h.verdicts
      bound := ?_
      limit := ?_
      claimers := ?_
      answers := h.answers }
  · intro e he
    rcases List.mem_cons.mp he with rfl | he
    · exact h.inv.issued _ r hr
    · exact h.issued e he
  · intro id x' hx'
    obtain ⟨x, hx, hxj, hxn, hsame, hsync⟩ := run_take h.inv.valid hn hx'
    by_cases hid : id = c.runId
    · subst hid
      obtain rfl : x = r := Option.some.inj (hx.symm.trans hr)
      have hcount' : (s.take i c token now).taken.count (c.runId, x'.jobId) =
          x'.retryCount + 1 := by
        rw [hxj, hjob, hxn, ← hcount]
        exact List.count_cons_self
      rw [hcount']
      refine ⟨le_rfl, fun hw => ?_, fun _ => rfl⟩
      simp [hsync rfl] at hw
    · obtain rfl : x' = x := hsame.resolve_right fun hq => hid hq.1
      have hcount' : (s.take i c token now).taken.count (id, x'.jobId) =
          s.taken.count (id, x'.jobId) :=
        List.count_cons_of_ne (by simp [Ne.symm hid])
      rw [hcount']
      exact h.counted id x' hx
  · intro id x' hx' hj
    obtain ⟨x, hx, hxj, hxn, -⟩ := run_take h.inv.valid hn hx'
    rw [hxn]
    exact h.bound id x hx (hxj ▸ hj)
  · intro id
    by_cases he : (c.runId, c.job) = (id, job.name)
    · obtain ⟨rfl, hcj⟩ := Prod.mk.inj he
      have hle := h.bound c.runId r hr (hjob.trans hcj)
      have hcount' : (s.take i c token now).taken.count (c.runId, job.name) =
          s.taken.count (c.runId, c.job) + 1 := by
        rw [← hcj]
        exact List.count_cons_self
      omega
    · have hcount' : (s.take i c token now).taken.count (id, job.name) =
          s.taken.count (id, job.name) := List.count_cons_of_ne he
      rw [hcount']
      exact h.limit id
  · intro c' hc'
    have hrows (id : String) (hid : id ∈ s.manager.runIds) (P : RunRow → Prop)
        (hP : ∀ x x', s.db.run id = some x → x'.jobId = x.jobId →
          x'.retryCount = x.retryCount → P x') : RowHas (s.take i c token now).manager id P :=
      ⟨hid, fun x' hx' => by
        obtain ⟨x, hx, hxj, hxn, -⟩ := run_take h.inv.valid hn hx'
        exact hP x x' hx hxj hxn⟩
    rcases List.mem_or_eq_of_mem_set hc' with hc' | rfl
    · refine hrows _ (h.claimers c' hc').issued _ fun x x' hx hxj hxn => ?_
      obtain ⟨hj, hattempt⟩ := (h.claimers c' hc').row x hx
      exact ⟨hxj.trans hj, fun n hp => hxn.trans (hattempt n hp)⟩
    · refine hrows _ (h.claimers c hmem).issued _ fun x x' hx hxj hxn => ?_
      obtain rfl : x = r := Option.some.inj (hx.symm.trans hr)
      refine ⟨hxj.trans hjob, fun n hp => ?_⟩
      cases hp
      rw [hxn, hcount]

theorem Budgeted.leave (h : Budgeted job s) (i : ℕ) : Budgeted job (s.leave i) where
  __ := h
  mutex j := (s.holders_leave i j).trans (h.mutex j)
  claimers c hc := h.claimers c (List.mem_of_mem_eraseIdx hc)

theorem budgeted_step (h : Budgeted job s) (hk : KeepsSpec job a)
    (hs : s.step scaleDelay a = some s') : Budgeted job s' := by
  have hsteps := step_claimSteps hs
  have hmutex := claim_mutex_step h.mutex hsteps
  cases hsteps with
  | manager ha hm => exact h.manager ha hk hm
  | lock hr hl =>
    refine { h with mutex := hmutex, claimers := fun c hc => ?_ }
    rcases List.mem_append.mp hc with hc | hc
    · exact h.claimers c hc
    · obtain rfl := List.mem_singleton.mp hc
      have hrow := h.inv.rowHas_jobId hr
      exact ⟨hrow.issued, fun r hr => ⟨hrow.row r hr, by simp⟩⟩
  | check hc hp =>
    refine { h with mutex := hmutex, claimers := fun c hc' => ?_ }
    rcases List.mem_or_eq_of_mem_set hc' with hc' | rfl
    · exact h.claimers c hc'
    · have hrow := h.claimers _ (List.mem_of_getElem? hc)
      exact ⟨hrow.issued, fun r hr => ⟨(hrow.row r hr).1, by simp⟩⟩
  | take hc hp hn => exact h.take hc hn
  | answer hc hp hr =>
    refine { h.leave _ with answers := fun e he => ?_ }
    rcases List.mem_cons.mp he with rfl | he
    · exact ((h.claimers _ (List.mem_of_getElem? hc)).row _ hr).2 _ hp
    · exact h.answers e he
  | leave a hc => exact h.leave _

/-! ## Whole runs -/

/-- What every step of the manager keeps, every step with its claims keeps. -/
theorem ClaimSteps.keeps (I : State → Prop)
    (hI : ∀ m b m', I m → Moves scaleDelay m b m' → I m') (h : I s.manager)
    (hs : ClaimSteps scaleDelay s a s') : I s'.manager := by
  cases hs with
  | manager ha hm => exact hI _ _ _ h hm
  | take hc hp hn =>
    obtain ⟨b, b', m, hb, hb', -⟩ := take_moves scaleDelay s _ _ _ _
    exact hI _ _ _ (hI _ _ _ h hb) hb'
  | _ => exact h

theorem retryCount_mono {as : List ClaimMove} (hinv : Inv s.manager)
    (h : Runs.exec (Claiming.step scaleDelay) s as = some s') {id : String} {r r' : RunRow}
    (hr : s.db.run id = some r) (hr' : s'.db.run id = some r') : r.retryCount ≤ r'.retryCount := by
  let I (m : State) : Prop := Inv m ∧ RowHas m id fun x => r.retryCount ≤ x.retryCount
  have hI : ∀ m b m', I m → Moves scaleDelay m b m' → I m' := fun m b m' hm hb =>
    ⟨hm.1.moves hb, hm.2.step hm.1 hb fun q x x' _ _ hx hmove => hx.trans hmove.retryCount_le⟩
  have h0 : I s.manager := ⟨hinv, hinv.issued id r hr, fun x hx => by
    rw [Option.some.inj (hx.symm.trans hr)]⟩
  have hend : I s'.manager := Runs.exec_invariant (Claiming.step scaleDelay)
    (fun t => I t.manager) (fun _ _ _ ht hs => (step_claimSteps hs).keeps I hI ht) h0 h
  exact hend.2.row r' hr'

/-- Along every run of the manager, for any claims, completions, expiries and ticks, as long as the
definition of the job stays: the retry count of its runs never exceeds its budget and never falls,
no run is claimed more often than the budget allows, and the assignment that answers the claim
number `nth` of a run carries the attempt `nth`. -/
theorem retry_budget (scaleDelay : ℕ → F64 → ℕ → ℕ) (jobs : List JobSpec) (job : JobSpec)
    (hjob : (State.init jobs).job job.name = some job) (as : List ClaimMove)
    (hspec : ∀ a ∈ as, KeepsSpec job a) (s : Claiming)
    (h : Runs.exec (Claiming.step scaleDelay) (Claiming.init jobs) as = some s) :
    (∀ id r, s.db.run id = some r → r.jobId = job.name → r.retryCount ≤ job.retry) ∧
    (∀ id, s.taken.count (id, job.name) ≤ job.retry + 1) ∧
    (∀ id nth attempt, (id, nth, attempt) ∈ s.answers → attempt = nth) ∧
    ∀ pre post t id r r', as = pre ++ post →
      Runs.exec (Claiming.step scaleDelay) (Claiming.init jobs) pre = some t →
      t.db.run id = some r → s.db.run id = some r' → r.retryCount ≤ r'.retryCount := by
  have hrun {bs : List ClaimMove} {t : Claiming} (hbs : ∀ a ∈ bs, KeepsSpec job a)
      (ht : Runs.exec (Claiming.step scaleDelay) (Claiming.init jobs) bs = some t) :
      Budgeted job t :=
    Runs.exec_invariant_along (Claiming.step scaleDelay) (fun _ a => KeepsSpec job a)
      (Budgeted job) (fun _ _ _ hk hi hs => budgeted_step hi hk hs) (budgeted_init hjob)
      (Runs.along_of_forall _ (fun a ha _ => hbs a ha) _) ht
  have hend := hrun hspec h
  refine ⟨hend.bound, hend.limit, fun id nth attempt he => hend.answers _ he, ?_⟩
  intro pre post t id r r' has hpre hr hr'
  obtain ⟨t', ht', hpost⟩ := (Runs.exec_append_eq_some _).mp (has ▸ h)
  obtain rfl : t = t' := Option.some.inj (hpre.symm.trans ht')
  have ht := hrun (fun a ha => hspec a (by rw [has]; exact List.mem_append_left _ ha)) hpre
  exact retryCount_mono ht.inv hpost hr hr'

/-- The run `r` of a job with one retry is claimed, fails, and is claimed again. -/
def claimedTwice : List ClaimMove :=
  ([.statement (.upsertWorker "w"), .statement (.syncJob "j"), .dispatch "r" "j" none 0 90].map
      ClaimMove.manager) ++
    [.lock "r" "w", .check 0, .take 0 "t" 100, .answer 0] ++
    ([.request (report "failed" "t" 0 1), .request (report "failed" "t" 0 1), .load 0, .load 1,
      .decide 0 110, .update 0 110, .project 0, .count 0, .log 0 110, .tickList 170,
      .tickNext false, .tickRequeue].map ClaimMove.manager) ++
    [.lock "r" "w", .check 0, .take 0 "t'" 180, .answer 0]

theorem retry_budget_claimedTwice :
    ∃ s, Runs.exec (Claiming.step fun d _ _ => d) (Claiming.init [flaky]) claimedTwice = some s ∧
      s.answers = [("r", 1, 1), ("r", 0, 0)] ∧
      ∀ id, s.taken.count (id, "j") ≤ 2 := by
  have hrun : (Runs.exec (Claiming.step fun d _ _ => d) (Claiming.init [flaky]) claimedTwice).any
      (fun s => decide (s.answers = [("r", 1, 1), ("r", 0, 0)])) := by decide +kernel
  obtain ⟨s, hs, hanswers⟩ := (Option.any_eq_true _ _).mp hrun
  have hspec : ∀ a ∈ claimedTwice, KeepsSpec flaky a := by
    simp [claimedTwice, KeepsSpec]
  exact ⟨s, hs, of_decide_eq_true hanswers,
    (retry_budget (fun d _ _ => d) [flaky] flaky rfl claimedTwice hspec s hs).2.1⟩

end Synora.Manager
