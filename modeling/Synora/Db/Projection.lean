import Synora.Db.Frames
import Synora.Db.Queries
import Synora.Db.SingleActive

namespace Synora.Db
open Core Table Tables

/-! ## The status of a job next to the status of its runs

`jobs.status` repeats what the runs of the job say. The calls of the store that touch it are
sequences of statements; each is carried out as a whole here. -/

/-- `COALESCE(finished_at, created_at) DESC, created_at DESC` -/
def latest (a b : RunRow) : Prop :=
  b.finishedAt.getD b.createdAt < a.finishedAt.getD a.createdAt ∨
    (a.finishedAt.getD a.createdAt = b.finishedAt.getD b.createdAt ∧ b.createdAt ≤ a.createdAt)

instance : DecidableRel latest := fun _ _ => inferInstanceAs (Decidable (_ ∨ _))

/-- What `reconcile_stale_job_status` makes of a job. -/
def reconciled (t : Tables) (j : JobRow) : DbStatus :=
  let runs := t.jobRuns.filter fun r => decide (r.jobId = j.name)
  if ∃ r ∈ runs, r.status = .running then .running
  else if ∃ r ∈ runs, r.status = .starting ∨ r.status = .syncing then .syncing
  else if ∃ r ∈ runs, r.status = .cancelling then .cancelling
  else if ∃ r ∈ runs, r.status = .queued then .queued
  else if ∃ r ∈ runs, r.status = .retrying then .retrying
  else ((runs.insertionSort latest).head?.map RunRow.status).getD j.status

/-- The calls of the store that write `jobs.status`. -/
inductive Call
  | createRun (id job : String) (worker : Option String) (status : JobStatus) (priority : ℤ)
      (now : Time)
  | claimRun (id worker token : String) (now : Time)
  | setRunStatus (id : String) (status : JobStatus)
  | markJobsRunning (worker : String) (jobs : List String)
  | finishRun (id : String) (c : Completion) (now : Time)
  | finishActiveRunFenced (id : String) (expected : ℕ) (c : Completion)
      (fence : Option (String × String)) (now : Time)
  | setRetry (id : String) (nextRetryAt : Time) (retryCount : ℕ)
  | setRetryFromActiveFenced (id : String) (expected : ℕ) (nextRetryAt : Time)
      (retryCount : ℕ) (fence : Option (String × String)) (now : Time)
  | expireRun (id : String) (now : Time)
  | setRunLost (id : String) (now : Time)
  | createLostRequeue (newId id job : String) (worker : Option String) (now : Time)
  | reconcileStaleJobStatus
deriving DecidableEq, Repr

/-- The job of a run that was just written takes the status. -/
def setStatusOfJob (id : String) (status : JobStatus) (t : Tables) : Tables :=
  match t.run id with
  | some run => after t (.setJobStatus run.jobId status)
  | none => t

/-- An `UPDATE` of one run, then `set_job_status_for_run`; a rejected or idle `UPDATE` ends the
call. -/
def updateAndProject (u : RunStmt) (id : String) (t : Tables) : Tables :=
  if changed t (.updateRun u) = 0 then t
  else after (after t (.updateRun u)) (.setJobStatusForRun id)

/-- One turn of the loop of `mark_jobs_running`. -/
def markRunning (worker : String) (t : Tables) (job : String) : Tables :=
  let q : Stmt := .updateRun (.markJobRunning worker job)
  if 0 < changed t q then after (after t q) (.setJobStatus job .running)
  else if ∃ r ∈ t.jobRuns, r.workerId = some worker ∧ r.jobId = job ∧ r.status.isExecuting then
    after t (.setJobStatus job .running)
  else t

def Call.perform (t : Tables) : Call → Tables
  | .createRun id job worker status priority now =>
    let q : Stmt := .createRun id job worker status priority now
    if changed t q = 0 then t
    else if status = .queued ∧ activeRunsOfJob (after t q) job ≠ [] then after t q
    else after (after t q) (.setJobStatus job status)
  | .claimRun id worker token now =>
    if changed t (claim id worker token now) = 0 then t
    else setStatusOfJob id .syncing (after t (claim id worker token now))
  | .setRunStatus id status =>
    if changed t (.updateRun (.setRunStatus id status)) = 0 then t
    else setStatusOfJob id status (after t (.updateRun (.setRunStatus id status)))
  | .markJobsRunning worker jobs => jobs.foldl (markRunning worker) t
  | .finishRun id c now => updateAndProject (.finishRun id c now) id t
  | .finishActiveRunFenced id expected c fence now =>
    updateAndProject (.finishActiveRunFenced id expected c fence now) id t
  | .setRetry id nextRetryAt retryCount =>
    updateAndProject (.setRetry id nextRetryAt retryCount) id t
  | .setRetryFromActiveFenced id expected nextRetryAt retryCount fence now =>
    updateAndProject (.setRetryFromActiveFenced id expected nextRetryAt retryCount fence now) id t
  | .expireRun id now => updateAndProject (.expireRun id now) id t
  -- this one goes on to the job even when its `UPDATE` has found nothing
  | .setRunLost id now =>
    after (after t (.updateRun (.setRunLost id now))) (.setJobStatusForRun id)
  | .createLostRequeue newId id job worker now =>
    let q : Stmt := .createLostRequeue newId id worker now
    if changed t q = 0 then t else after (after t q) (.setJobStatus job .queued)
  | .reconcileStaleJobStatus =>
    { t with jobs := t.jobs.map fun j => { j with status := reconciled t j } }

/-- The store as a transition system over its calls. -/
def callStep (t : Tables) (c : Call) : Option Tables := some (c.perform t)

/-! ## What a job shows -/

def JobRow.Shows (j : JobRow) : Prop := j.status = .syncing ∨ j.status = .running

def Executes (t : Tables) (job : String) : Prop :=
  ∃ r ∈ t.jobRuns, r.jobId = job ∧ r.status.isExecuting

instance (j : JobRow) : Decidable j.Shows := inferInstanceAs (Decidable (_ ∨ _))

instance (t : Tables) (job : String) : Decidable (Executes t job) :=
  inferInstanceAs (Decidable (∃ r ∈ t.jobRuns, _))

/-- A job with an executing run shows it. -/
def Visible (t : Tables) : Prop := ∀ j ∈ t.jobs, Executes t j.name → j.Shows

instance (t : Tables) : Decidable (Visible t) :=
  inferInstanceAs (Decidable (∀ j ∈ t.jobs, Executes t j.name → j.Shows))

/-- No call writes a status that is not the one of an executing run over that of a job that has
one: `create_run` with another status than `QUEUED`, `SYNCING` or `RUNNING` meets no executing run
of the job, `set_run_status` with another than the last two no other one, and
`create_lost_requeue` is given the job of the lost run. -/
def Call.Modest (t : Tables) : Call → Prop
  | .createRun _ job _ status _ _ =>
    status = .queued ∨ status = .syncing ∨ status = .running ∨ ¬Executes t job
  | .setRunStatus id status => status = .syncing ∨ status = .running ∨
    ∀ r ∈ t.jobRuns, r.id = id → ∀ x ∈ t.jobRuns, x.id ≠ id → x.jobId = r.jobId →
      ¬x.status.isExecuting
  | .createLostRequeue _ id job _ _ => ∀ r ∈ t.jobRuns, r.id = id → r.jobId = job
  | _ => True

/-! ## Writing the job -/

section
variable {t : Tables}

theorem updateJobs_valid (hv : t.Valid) (p : JobRow → Bool) {f : JobRow → JobRow}
    (hf : ∀ j, (f j).name = j.name) : (t.updateJobs p f).2.Valid := by
  have hnames : (update p f t.jobs).map JobRow.name = t.jobs.map JobRow.name :=
    map_key_update t.jobs hf
  exact ⟨hnames.symm ▸ hv.jobNames, hv.workerIds, hv.runIds, hv.logIds,
    fun r hr => hnames.symm ▸ hv.runJobs r hr, hv.runWorkers, hv.oneActive⟩

/-- A job takes a status: that of an executing run, or it has none. -/
theorem visible_setJobStatus {job : String} {status : JobStatus} (hv : t.Valid)
    (hothers : ∀ j ∈ t.jobs, j.name ≠ job → Executes t j.name → j.Shows)
    (hstatus : status = .syncing ∨ status = .running ∨ ¬Executes t job) :
    Visible (after t (.setJobStatus job status)) := by
  have hvalid : (setJobStatus job status t).2.Valid := updateJobs_valid hv _ fun _ => rfl
  rw [after_of_valid (q := .setJobStatus job status) hvalid]
  intro j' hj' hexec
  obtain ⟨j, hj, rfl⟩ := mem_update.mp hj'
  by_cases hname : j.name = job
  · simp only [hname, decide_true, if_true] at hexec ⊢
    rcases hstatus with rfl | rfl | hnone
    · exact Or.inl rfl
    · exact Or.inr rfl
    · exact absurd hexec hnone
  · simp only [hname, decide_false, Bool.false_eq_true, if_false] at hexec ⊢
    exact hothers j hj hname hexec

/-- The job of a run takes its status unless another of its runs is active. -/
theorem visible_setJobStatusForRun {id : String} (hv : t.Valid)
    (hothers : ∀ j ∈ t.jobs, ∀ r ∈ t.jobRuns, r.id ≠ id → r.jobId = j.name →
      r.status.isExecuting → j.Shows)
    (hself : ∀ r, t.run id = some r → r.status ≠ .starting) :
    Visible (after t (.setJobStatusForRun id)) := by
  cases hrun : t.run id with
  | none =>
    have heffect : (setJobStatusForRun id t).2 = t := by simp [setJobStatusForRun, hrun]
    rw [after_of_valid (q := .setJobStatusForRun id) (by exact heffect.symm ▸ hv)]
    change Visible (setJobStatusForRun id t).2
    rw [heffect]
    rintro j hj ⟨r, hr, hjob, hexec⟩
    refine hothers j hj r hr (fun hid => ?_) hjob hexec
    rw [← hid, hv.run_of_mem hr] at hrun
    cases hrun
  | some run =>
    have hvalid : (setJobStatusForRun id t).2.Valid := by
      simp only [setJobStatusForRun, hrun]
      exact updateJobs_valid hv _ fun _ => rfl
    rw [after_of_valid (q := .setJobStatusForRun id) hvalid]
    simp only [Stmt.effect, setJobStatusForRun, hrun]
    rintro j' hj' ⟨r, hr, hjob, hexec⟩
    obtain ⟨j, hj, rfl⟩ := mem_update.mp hj'
    have hactive := DbStatus.isActive_of_isExecuting hexec
    have hname : r.jobId = j.name := by
      rw [hjob]
      split <;> rfl
    by_cases hid : r.id = id
    · obtain rfl : r = run := by
        rw [← hid, hv.run_of_mem hr, Option.some.injEq] at hrun
        exact hrun
      -- it is the active run of its job, so nothing keeps the job from taking its status
      have hfree : ¬∃ x ∈ t.jobRuns, x.jobId = j.name ∧ x.id ≠ id ∧ x.status.isActive := by
        rintro ⟨x, hx, hxj, hxid, hxa⟩
        have hsame := hv.active_unique (hv.run_of_mem hx) hrun hxa hactive (hxj.trans hname.symm)
        exact hxid (hsame ▸ hid)
      rw [if_pos (by simpa only [hname.symm, true_and, decide_eq_true_eq] using hfree)]
      have hne := hself r hrun
      simp only [JobRow.Shows]
      revert hexec hne
      cases r.status <;> simp [DbStatus.isExecuting]
    · rw [if_neg]
      · exact hothers j hj r hr hid hname hexec
      · simp only [decide_eq_true_eq, not_and, not_not]
        exact fun _ => ⟨r, hr, hname, hid, hactive⟩

/-! ## Writing a run -/

theorem jobs_after_updateRun (t : Tables) (u : RunStmt) :
    (after t (.updateRun u)).jobs = t.jobs := by
  obtain ⟨he, -⟩ | ⟨he, -⟩ := after_eq t (.updateRun u) <;> rw [he]
  rfl

/-- The other runs still show after an `UPDATE` of one. -/
theorem shows_others {u : RunStmt} {id : String} (hv : t.Valid) (hvis : Visible t)
    (hid : ∀ r, u.update.guard t r → r.id = id) :
    ∀ j ∈ (after t (.updateRun u)).jobs, ∀ r ∈ (after t (.updateRun u)).jobRuns, r.id ≠ id →
      r.jobId = j.name → r.status.isExecuting → j.Shows := by
  intro j hj r hr hne hname hexec
  have hrun := (after_valid hv (.updateRun u)).run_of_mem hr
  rw [run_after_ne hid hne] at hrun
  exact hvis j (jobs_after_updateRun t u ▸ hj) ⟨r, (run_eq_some hrun).1, hname, hexec⟩

theorem toDb_ne_starting (status : JobStatus) : toDb status ≠ .starting := by
  cases status <;> simp [toDb]

theorem shows_of_toDb {status : JobStatus} (h : (toDb status).isExecuting) :
    status = .syncing ∨ status = .running := by
  cases status <;> simp_all [toDb, DbStatus.isExecuting]

theorem visible_updateAndProject {u : RunStmt} {id : String} (hv : t.Valid) (hvis : Visible t)
    (hid : ∀ r, u.update.guard t r → r.id = id)
    (hwrite : ∀ r, (u.update.write r).status ≠ .starting) :
    Visible (updateAndProject u id t) := by
  unfold updateAndProject
  split
  · exact hvis
  · rename_i hc
    refine visible_setJobStatusForRun (after_valid hv _) (shows_others hv hvis hid) fun r hr => ?_
    obtain ⟨x, -, -, hx⟩ := changed_updateRun_row hv hid (Nat.pos_of_ne_zero hc)
    obtain rfl := Option.some.inj (hx.symm.trans hr)
    exact hwrite x

theorem visible_setRunLost {id : String} {now : Time} (hv : t.Valid) (hvis : Visible t) :
    Visible (after (after t (.updateRun (.setRunLost id now))) (.setJobStatusForRun id)) := by
  have hid : ∀ r, (RunStmt.setRunLost id now).update.guard t r → r.id = id := by
    intro r hg
    simp only [RunStmt.update, setRunLost, decide_eq_true_eq] at hg
    exact hg.1
  refine visible_setJobStatusForRun (after_valid hv _) (shows_others hv hvis hid) fun r hr => ?_
  rw [run_after_update hv (fun _ => rfl) (fun _ => rfl)] at hr
  obtain ⟨x, hx, rfl⟩ := Option.map_eq_some_iff.mp hr
  split
  · simp [RunStmt.update, setRunLost]
  · rename_i hg
    intro hs
    simp [RunStmt.update, setRunLost, (run_eq_some hx).2, hs, DbStatus.isActive] at hg

/-- The job of a run that was just written takes a status. -/
theorem visible_setStatusOfJob {u : RunStmt} {id : String} {status : JobStatus} (hv : t.Valid)
    (hvis : Visible t) (hid : ∀ r, u.update.guard t r → r.id = id)
    (hstatus : ∀ run, (after t (.updateRun u)).run id = some run →
      status = .syncing ∨ status = .running ∨ ¬Executes (after t (.updateRun u)) run.jobId) :
    Visible (setStatusOfJob id status (after t (.updateRun u))) := by
  have hv' := after_valid hv (.updateRun u)
  unfold setStatusOfJob
  split
  · rename_i run hrun
    refine visible_setJobStatus hv' ?_ (hstatus run hrun)
    rintro j hj hne ⟨r, hr, hname, hexec⟩
    refine shows_others hv hvis hid j hj r hr (fun heq => ?_) hname hexec
    rw [← heq, hv'.run_of_mem hr, Option.some.injEq] at hrun
    exact hne (by rw [← hname, hrun])
  · rename_i hnone
    rintro j hj ⟨r, hr, hname, hexec⟩
    refine shows_others hv hvis hid j hj r hr (fun heq => ?_) hname hexec
    rw [← heq, hv'.run_of_mem hr] at hnone
    cases hnone

theorem visible_setRunStatus {id : String} {status : JobStatus} (hv : t.Valid) (hvis : Visible t)
    (hm : (Call.setRunStatus id status).Modest t) :
    Visible ((Call.setRunStatus id status).perform t) := by
  have hid : ∀ r, (RunStmt.setRunStatus id status).update.guard t r → r.id = id := by
    intro r hg
    simpa [RunStmt.update, setRunStatus] using hg
  simp only [Call.perform]
  split
  · exact hvis
  rename_i hc
  refine visible_setStatusOfJob hv hvis hid fun run hrun => ?_
  obtain ⟨x, hx, -, hafter⟩ := changed_updateRun_row hv hid (Nat.pos_of_ne_zero hc)
  obtain rfl := Option.some.inj (hafter.symm.trans hrun)
  by_cases hexec : (toDb status).isExecuting
  · exact (shows_of_toDb hexec).imp_right Or.inl
  · rcases hm with hm | hm | hm
    · exact Or.inl hm
    · exact Or.inr (Or.inl hm)
    · refine Or.inr (Or.inr ?_)
      rintro ⟨r, hr, hjob, hr'⟩
      have hv' := after_valid hv (.updateRun (.setRunStatus id status))
      by_cases hrid : r.id = id
      · obtain rfl := Option.some.inj ((hrid ▸ hv'.run_of_mem hr).symm.trans hafter)
        exact hexec hr'
      · have hrun' := hv'.run_of_mem hr
        rw [run_after_ne hid hrid] at hrun'
        exact hm x (run_eq_some hx).1 (run_eq_some hx).2 r (run_eq_some hrun').1 hrid hjob hr'

/-! ## Creating runs, heartbeats, reconciliation -/

/-- A new row, and the tables it was added to. -/
theorem executes_concat {t' : Tables} {new : RunRow} (h : t'.jobRuns = t.jobRuns ++ [new])
    (job : String) :
    Executes t' job ↔ Executes t job ∨ (new.jobId = job ∧ new.status.isExecuting) := by
  simp [Executes, h, or_and_right, exists_or]

theorem visible_createRun {id job : String} {worker : Option String} {status : JobStatus}
    {priority : ℤ} {now : Time} (hv : t.Valid) (hvis : Visible t)
    (hm : (Call.createRun id job worker status priority now).Modest t) :
    Visible ((Call.createRun id job worker status priority now).perform t) := by
  simp only [Call.perform]
  split
  · exact hvis
  rename_i hc
  obtain ⟨he, -⟩ | ⟨-, hzero⟩ := after_eq t (.createRun id job worker status priority now)
  swap
  · exact absurd hzero hc
  have hv' := after_valid hv (.createRun id job worker status priority now)
  have hexec := executes_concat (congrArg Tables.jobRuns he)
  have hjobs : (after t (.createRun id job worker status priority now)).jobs = t.jobs :=
    by rw [he]; rfl
  split
  · rename_i hq
    intro j hj h
    rcases (hexec _).mp h with h | ⟨-, h⟩
    · exact hvis j (hjobs ▸ hj) h
    · rw [hq.1] at h
      cases h
  · rename_i hq
    refine visible_setJobStatus hv' (fun j hj hne h => ?_) ?_
    · rcases (hexec _).mp h with h | ⟨h, -⟩
      · exact hvis j (hjobs ▸ hj) h
      · exact absurd h.symm hne
    · by_cases hs : (toDb status).isExecuting
      · exact (shows_of_toDb hs).imp_right Or.inl
      · rcases hm with rfl | hm | hm | hm
        · refine Or.inr (Or.inr fun ⟨r, hr, hjob, hr'⟩ => ?_)
          have hempty : activeRunsOfJob (after t (.createRun id job worker .queued priority now))
              job = [] := by simpa using hq
          have hmem : r ∈ activeRunsOfJob
              (after t (.createRun id job worker .queued priority now)) job :=
            mem_runsWhere.mpr ⟨hr, decide_eq_true ⟨hjob, hr'⟩⟩
          rw [hempty] at hmem
          cases hmem
        · exact Or.inl hm
        · exact Or.inr (Or.inl hm)
        · exact Or.inr (Or.inr fun h => ((hexec _).mp h).elim hm fun h => hs h.2)

theorem visible_createLostRequeue {newId id job : String} {worker : Option String} {now : Time}
    (hv : t.Valid) (hvis : Visible t)
    (hm : (Call.createLostRequeue newId id job worker now).Modest t) :
    Visible ((Call.createLostRequeue newId id job worker now).perform t) := by
  simp only [Call.perform]
  split
  · exact hvis
  rename_i hc
  obtain ⟨he, hch, -⟩ | ⟨-, hzero⟩ := after_eq t (.createLostRequeue newId id worker now)
  swap
  · exact absurd hzero hc
  have hv' := after_valid hv (.createLostRequeue newId id worker now)
  rw [hch] at hc
  simp only [Stmt.effect, createLostRequeue] at he hc
  split at hc
  · exact absurd rfl hc
  rename_i run hrun
  split at hc
  swap
  · exact absurd rfl hc
  rename_i hg
  simp only [hrun, if_pos hg] at he
  have hexec := executes_concat (congrArg Tables.jobRuns he)
  have hjob : run.jobId = job := hm run (run_eq_some hrun).1 (run_eq_some hrun).2
  refine visible_setJobStatus hv' (fun j hj hne h => ?_) (Or.inr (Or.inr fun h => ?_))
  · rcases (hexec _).mp h with h | ⟨-, h⟩
    · exact hvis j (congrArg Tables.jobs he ▸ hj) h
    · cases h
  · rcases (hexec _).mp h with ⟨r, hr, hrj, hr'⟩ | ⟨-, h⟩
    · have hfree := List.all_eq_true.mp hg.2 r hr
      have hin : r.status.isInflight := by
        revert hr'
        cases r.status <;> simp [DbStatus.isExecuting, DbStatus.isInflight]
      simp [hrj, hjob, hin] at hfree
    · cases h

theorem visible_markRunning {worker job : String} (hv : t.Valid) (hvis : Visible t) :
    Visible (markRunning worker t job) := by
  unfold markRunning
  dsimp only
  split
  · rename_i hc
    refine visible_setJobStatus (after_valid hv _) ?_ (Or.inr (Or.inl rfl))
    rintro j hj hne ⟨r, hr, hname, hexec⟩
    obtain ⟨he, -⟩ := changed_updateRun_pos hc
    rw [he] at hr hj
    obtain ⟨x, hx, rfl⟩ := mem_update.mp hr
    split at hname
    · rename_i hg
      simp only [RunStmt.update, markJobRunning, decide_eq_true_eq] at hg hname
      exact absurd (hname.symm.trans hg.2.1) hne
    · rename_i hg
      rw [if_neg hg] at hexec
      exact hvis j hj ⟨x, hx, hname, hexec⟩
  · split
    · exact visible_setJobStatus hv (fun j hj _ h => hvis j hj h) (Or.inr (Or.inl rfl))
    · exact hvis

theorem markRunning_valid {worker job : String} (hv : t.Valid) :
    (markRunning worker t job).Valid := by
  unfold markRunning
  dsimp only
  split
  · exact after_valid (after_valid hv _) _
  · split
    · exact after_valid hv _
    · exact hv

theorem markJobsRunning_inv {worker : String} {jobs : List String} (hv : t.Valid)
    (hvis : Visible t) :
    (jobs.foldl (markRunning worker) t).Valid ∧ Visible (jobs.foldl (markRunning worker) t) := by
  induction jobs generalizing t with
  | nil => exact ⟨hv, hvis⟩
  | cons job jobs ih => exact ih (markRunning_valid hv) (visible_markRunning hv hvis)

theorem visible_reconcile (t : Tables) : Visible (Call.reconcileStaleJobStatus.perform t) := by
  rintro j' hj' ⟨r, hr, hname, hexec⟩
  obtain ⟨j, hj, rfl⟩ := List.mem_map.mp hj'
  have hmem : r ∈ t.jobRuns.filter fun r => decide (r.jobId = j.name) :=
    List.mem_filter.mpr ⟨hr, decide_eq_true hname⟩
  simp only [JobRow.Shows, reconciled]
  split
  · exact Or.inr rfl
  rename_i hnone
  rw [if_pos]
  · exact Or.inl rfl
  · refine ⟨r, hmem, ?_⟩
    have hne : r.status ≠ .running := fun h => hnone ⟨r, hmem, h⟩
    revert hexec hne
    cases r.status <;> simp [DbStatus.isExecuting]

theorem updateAndProject_valid {u : RunStmt} {id : String} (hv : t.Valid) :
    (updateAndProject u id t).Valid := by
  unfold updateAndProject
  split
  · exact hv
  · exact after_valid (after_valid hv _) _

theorem setStatusOfJob_valid {id : String} {status : JobStatus} (hv : t.Valid) :
    (setStatusOfJob id status t).Valid := by
  unfold setStatusOfJob
  split
  · exact after_valid hv _
  · exact hv

theorem perform_valid (hv : t.Valid) (hvis : Visible t) (c : Call) : (c.perform t).Valid := by
  cases c with
  | createRun id job worker status priority now =>
    simp only [Call.perform]
    split
    · exact hv
    split
    · exact after_valid hv _
    · exact after_valid (after_valid hv _) _
  | claimRun id worker token now =>
    simp only [Call.perform]
    split
    · exact hv
    · exact setStatusOfJob_valid (after_valid hv _)
  | setRunStatus id status =>
    simp only [Call.perform]
    split
    · exact hv
    · exact setStatusOfJob_valid (after_valid hv _)
  | markJobsRunning worker jobs => exact (markJobsRunning_inv hv hvis).1
  | setRunLost id now => exact after_valid (after_valid hv _) _
  | createLostRequeue newId id job worker now =>
    simp only [Call.perform]
    split
    · exact hv
    · exact after_valid (after_valid hv _) _
  | reconcileStaleJobStatus =>
    have hnames : (t.jobs.map fun j => { j with status := reconciled t j }).map JobRow.name =
        t.jobs.map JobRow.name := by simp [Function.comp_def]
    exact ⟨hnames.symm ▸ hv.jobNames, hv.workerIds, hv.runIds, hv.logIds,
      fun r hr => hnames.symm ▸ hv.runJobs r hr, hv.runWorkers, hv.oneActive⟩
  | _ => exact updateAndProject_valid hv

theorem visible_perform (hv : t.Valid) (hvis : Visible t) {c : Call} (hm : c.Modest t) :
    Visible (c.perform t) := by
  cases c with
  | createRun id job worker status priority now => exact visible_createRun hv hvis hm
  | claimRun id worker token now =>
    simp only [Call.perform]
    split
    · exact hvis
    · refine visible_setStatusOfJob hv hvis (fun r hg => ?_) fun _ _ => Or.inl rfl
      simp only [RunStmt.update, claimRun, decide_eq_true_eq] at hg
      exact hg.1
  | setRunStatus id status => exact visible_setRunStatus hv hvis hm
  | markJobsRunning worker jobs => exact (markJobsRunning_inv hv hvis).2
  | finishRun id c now =>
    refine visible_updateAndProject hv hvis (fun r hg => ?_) fun _ => toDb_ne_starting c.status
    simpa [RunStmt.update, finishRun] using hg
  | finishActiveRunFenced id expected c fence now =>
    refine visible_updateAndProject hv hvis (fun r hg => ?_) fun _ => toDb_ne_starting c.status
    simp only [RunStmt.update, finishActiveRunFenced, decide_eq_true_eq] at hg
    exact hg.1
  | setRetry id nextRetryAt retryCount =>
    refine visible_updateAndProject hv hvis (fun r hg => ?_) fun _ h => by cases h
    simpa [RunStmt.update, setRetry] using hg
  | setRetryFromActiveFenced id expected nextRetryAt retryCount fence now =>
    refine visible_updateAndProject hv hvis (fun r hg => ?_) fun _ h => by cases h
    simp only [RunStmt.update, setRetryFromActiveFenced, decide_eq_true_eq] at hg
    exact hg.1
  | expireRun id now =>
    refine visible_updateAndProject hv hvis (fun r hg => ?_) fun _ h => by cases h
    simp only [RunStmt.update, expireRun, decide_eq_true_eq] at hg
    exact hg.1
  | setRunLost id now => exact visible_setRunLost hv hvis
  | createLostRequeue newId id job worker now => exact visible_createLostRequeue hv hvis hm
  | reconcileStaleJobStatus => exact visible_reconcile t

end

/-- In every state that modest calls of the store lead to, a job with an executing run is shown as
`SYNCING` or `RUNNING`. -/
theorem executing_run_visible {t₀ : Tables} (hv : t₀.Valid) (h₀ : Visible t₀) {cs : List Call}
    (hm : Runs.Along callStep (fun t c => c.Modest t) t₀ cs) {t : Tables}
    (h : Runs.exec callStep t₀ cs = some t) : Visible t := by
  have hinv : t.Valid ∧ Visible t :=
    Runs.exec_invariant_along callStep (fun t c => c.Modest t) (fun t => t.Valid ∧ Visible t)
      (fun t c u hc hi hu => by
        obtain rfl := Option.some.inj hu
        exact ⟨perform_valid hi.1 hi.2 c, visible_perform hi.1 hi.2 hc⟩) ⟨hv, h₀⟩ hm h
  exact hinv.2

/-- One job and one worker, and no run yet. -/
def oneJob : Tables := { empty with jobs := [⟨"j", .pending, ""⟩], workers := [⟨"w", .online⟩] }

/-- A run is claimed and marked running while another one waits in the queue. -/
def claimAndQueue : List Call :=
  [.createRun "r" "j" none .queued 0 90, .claimRun "r" "w" "t" 100, .markJobsRunning "w" ["j"],
    .createRun "r₂" "j" none .queued 0 110]

theorem executing_run_visible_claimAndQueue :
    ∃ t, Runs.exec callStep oneJob claimAndQueue = some t ∧ Executes t "j" ∧ Visible t := by
  have hm : Runs.Along callStep (fun t c => c.Modest t) oneJob claimAndQueue :=
    Runs.along_of_forall callStep (by simp [claimAndQueue, Call.Modest]) oneJob
  exact ⟨_, rfl, by decide +kernel, executing_run_visible (by decide) (by decide) hm rfl⟩

/-- A dispatch that is skipped for a dependency hides the run of its job that is executing. -/
theorem skipped_run_hides_executing :
    ¬∀ cs t, Runs.exec callStep oneJob cs = some t → Visible t := by
  intro h
  have hvis := h [.createRun "r" "j" none .queued 0 90, .claimRun "r" "w" "t" 100,
    .createRun "r₂" "j" none .skipped 0 110] _ rfl
  exact absurd hvis (by decide +kernel)

end Synora.Db
