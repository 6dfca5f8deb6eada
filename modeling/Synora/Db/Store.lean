import Synora.Db.Schema
import Synora.Lib.Runs

namespace Synora.Db
open Core Table

/-- What an `UPDATE`, `INSERT` or `DELETE` reports, and the tables after it. -/
abbrev Effect := ℕ × Tables

/-- `UPDATE job_runs SET write WHERE guard`; the guard may read the table. -/
structure RunUpdate where
  guard : Tables → RunRow → Bool
  write : RunRow → RunRow

def RunUpdate.effect (u : RunUpdate) (t : Tables) : Effect :=
  (matched (u.guard t) t.jobRuns, { t with jobRuns := update (u.guard t) u.write t.jobRuns })

namespace Tables

def updateJobs (t : Tables) (p : JobRow → Bool) (f : JobRow → JobRow) : Effect :=
  (matched p t.jobs, { t with jobs := update p f t.jobs })

def updateLogs (t : Tables) (p : LogRow → Bool) (f : LogRow → LogRow) : Effect :=
  (matched p t.jobLogs, { t with jobLogs := update p f t.jobLogs })

end Tables

open Tables

/-! ## Jobs and workers -/

/-- The row part of `sync_job`: a new job starts `PENDING`, a known one keeps its state. -/
def syncJob (name : String) (t : Tables) : Effect :=
  if (t.job name).isSome then (1, t)
  else (1, { t with jobs := t.jobs ++ [⟨name, .pending, ""⟩] })

def setConfigGeneration (name generation : String) (t : Tables) : Effect :=
  t.updateJobs (fun j => decide (j.name = name)) fun j => { j with configGeneration := generation }

def setJobStatus (name : String) (status : JobStatus) (t : Tables) : Effect :=
  t.updateJobs (fun j => decide (j.name = name)) fun j => { j with status := toDb status }

def setJobStatusForRun (id : String) (t : Tables) : Effect :=
  match t.run id with
  | none => (0, t)
  | some run =>
    t.updateJobs
      (fun j => decide (j.name = run.jobId ∧
        ¬∃ r ∈ t.jobRuns, r.jobId = j.name ∧ r.id ≠ id ∧ r.status.isActive))
      fun j => { j with status := run.status }

def upsertWorker (id : String) (t : Tables) : Effect :=
  if id ∈ t.workers.map WorkerRow.id then
    (1, { t with workers := update (fun w => decide (w.id = id)) (fun w =>
      { w with status := if w.status = .draining ∨ w.status = .maintenance then w.status
                         else .online }) t.workers })
  else (1, { t with workers := t.workers ++ [⟨id, .online⟩] })

def setWorkerStatus (id : String) (status : WorkerStatus) (t : Tables) : Effect :=
  (matched (fun w => decide (w.id = id)) t.workers,
    { t with workers := update (fun w => decide (w.id = id)) (fun w => { w with status }) t.workers })

/-! ## Run rows -/

def createRun (id jobName : String) (worker : Option String) (status : JobStatus) (priority : ℤ)
    (now : Time) (t : Tables) : Effect :=
  (1, { t with jobRuns := t.jobRuns ++ [{
    id, jobId := jobName, workerId := worker, status := toDb status, retryCount := 0,
    lostCount := 0, startedAt := none, finishedAt := none, durationSecs := none,
    exitCode := none, sizeBefore := none, sizeAfter := none, bytesTransferred := none,
    message := none, leaseExpiresAt := none, leaseToken := none, nextRetryAt := none,
    createdAt := now, priority,
    configGeneration := ((t.job jobName).map JobRow.configGeneration).getD "" }] })

/-- No run of the job is queued, executing, retrying or cancelling. -/
def noInflight (t : Tables) (job : String) : Bool :=
  t.jobRuns.all fun r => !(decide (r.jobId = job) && r.status.isInflight)

def createLostRequeue (newId id : String) (worker : Option String) (now : Time) (t : Tables) :
    Effect :=
  match t.run id with
  | none => (0, t)
  | some run =>
    if run.status = .lost ∧ noInflight t run.jobId then
      (1, { t with jobRuns := t.jobRuns ++ [{
        id := newId, jobId := run.jobId, workerId := worker, status := .queued, retryCount := 0,
        lostCount := run.lostCount + 1, startedAt := none, finishedAt := none,
        durationSecs := none, exitCode := none, sizeBefore := none, sizeAfter := none,
        bytesTransferred := none, message := none, leaseExpiresAt := none, leaseToken := none,
        nextRetryAt := none, createdAt := now, priority := 0,
        configGeneration := run.configGeneration }] })
    else (0, t)

def assignQueuedRun (id worker : String) : RunUpdate where
  guard _ r := decide (r.id = id ∧ r.status = .queued ∧ r.workerId = none)
  write r := { r with workerId := some worker }

/-- The reaper takes queued runs back from workers that are not `ONLINE`. -/
def unassignOffline : RunUpdate where
  guard t r := decide (r.status = .queued ∧ (r.workerId = none ∨ ∃ w ∈ r.workerId,
    w ∉ (t.workers.filter fun w => decide (w.status = .online)).map WorkerRow.id))
  write r := { r with workerId := none }

def claimRun (id worker token : String) (now : Time) : RunUpdate where
  guard t r := decide (r.id = id ∧ r.status = .queued ∧
    (r.workerId = none ∨ r.workerId = some worker) ∧
    r.jobId ∉ (t.jobRuns.filter fun a => a.status.isExecuting).map RunRow.jobId)
  write r := { r with
    status := .syncing, workerId := some worker, startedAt := some now,
    leaseExpiresAt := some (now + runLeaseSecs), leaseToken := some token }

def markJobRunning (worker job : String) : RunUpdate where
  guard _ r := decide (r.workerId = some worker ∧ r.jobId = job ∧
    (r.status = .starting ∨ r.status = .syncing))
  write r := { r with status := .running }

def setRunStatus (id : String) (status : JobStatus) : RunUpdate where
  guard _ r := decide (r.id = id)
  write r := { r with status := toDb status }

def setCancellingByJob (job : String) : RunUpdate where
  guard _ r := decide (r.jobId = job ∧ r.status.isExecuting)
  write r := { r with status := .cancelling }

def dropSupersededRuns (now : Time) : RunUpdate where
  guard t q := decide ((q.status = .queued ∨ q.status = .retrying ∨ q.status = .cancelling) ∧
    ∃ a ∈ t.jobRuns, a.jobId = q.jobId ∧ a.id ≠ q.id ∧ a.status.isExecuting)
  write r := { r with
    status := .cancelled, finishedAt := some now, message := some "superseded by an active run" }

/-- `reload` cancels what a changed job has queued. -/
def cancelChanged (job : String) (now : Time) : RunUpdate where
  guard _ r := decide (r.jobId = job ∧ (r.status = .queued ∨ r.status = .retrying))
  write r := { r with
    status := .cancelled, finishedAt := some now,
    message := some "configuration changed before execution" }

/-! ## Leases and completions -/

def leaseLive (now : Time) (r : RunRow) : Prop := ∃ e ∈ r.leaseExpiresAt, now < e

instance (now : Time) (r : RunRow) : Decidable (leaseLive now r) :=
  inferInstanceAs (Decidable (∃ e ∈ r.leaseExpiresAt, now < e))

/-- The owner of an unexpired lease: worker, token, clock and an active status. -/
def holdsLease (worker token : String) (now : Time) (r : RunRow) : Prop :=
  r.workerId = some worker ∧ r.leaseToken = some token ∧ leaseLive now r ∧ r.status.isActive

instance (worker token : String) (now : Time) (r : RunRow) :
    Decidable (holdsLease worker token now r) := inferInstanceAs (Decidable (_ ∧ _ ∧ _ ∧ _))

/-- An empty token answers `false` before any statement is issued. -/
def renewRunLease (id worker token : String) (now : Time) : RunUpdate where
  guard _ r := decide (token ≠ "" ∧ r.id = id ∧ holdsLease worker token now r)
  write r := { r with leaseExpiresAt := some (now + runLeaseSecs) }

def expireRun (id : String) (now : Time) : RunUpdate where
  guard _ r := decide (r.id = id ∧ (∃ e ∈ r.leaseExpiresAt, e ≤ now) ∧ r.status.isActive)
  write r := { r with
    status := .lost, finishedAt := some now, message := some "lease expired (worker lost)" }

def setRunLost (id : String) (now : Time) : RunUpdate where
  guard _ r := decide (r.id = id ∧ r.status.isActive)
  write r := { r with
    status := .lost, finishedAt := some now, message := some "lease expired (worker lost)" }

/-- What a completion writes into the row. -/
structure Completion where
  status : JobStatus
  exitCode : Option ℤ
  sizeBefore : Option ℤ
  sizeAfter : Option ℤ
  bytesTransferred : Option ℤ
  message : Option String
  durationSecs : ℤ
deriving DecidableEq, Repr

def Completion.write (c : Completion) (now : Time) (r : RunRow) : RunRow :=
  { r with
    status := toDb c.status, finishedAt := some now, durationSecs := some c.durationSecs,
    exitCode := c.exitCode, sizeBefore := c.sizeBefore, sizeAfter := c.sizeAfter,
    bytesTransferred := c.bytesTransferred, message := c.message, leaseExpiresAt := none }

/-- Unconditional: the callers own the row. -/
def finishRun (id : String) (c : Completion) (now : Time) : RunUpdate where
  guard _ r := decide (r.id = id)
  write := c.write now

/-- `fence.unwrap_or(("", ""))` with the empty-worker escape of the SQL predicate. -/
def fenceOk (fence : Option (String × String)) (now : Time) (r : RunRow) : Prop :=
  (fence.getD ("", "")).1 = "" ∨
    (r.workerId = some (fence.getD ("", "")).1 ∧ r.leaseToken = some (fence.getD ("", "")).2 ∧
      leaseLive now r)

instance (fence : Option (String × String)) (now : Time) (r : RunRow) :
    Decidable (fenceOk fence now r) := inferInstanceAs (Decidable (_ ∨ _))

def finishActiveRunFenced (id : String) (expected : ℕ) (c : Completion)
    (fence : Option (String × String)) (now : Time) : RunUpdate where
  guard _ r := decide (r.id = id ∧ r.retryCount = expected ∧ fenceOk fence now r ∧
    r.status.isActive)
  write := c.write now

def setRetry (id : String) (nextRetryAt : Time) (retryCount : ℕ) : RunUpdate where
  guard _ r := decide (r.id = id)
  write r := { r with status := .retrying, nextRetryAt := some nextRetryAt, retryCount }

def setRetryFromActiveFenced (id : String) (expected : ℕ) (nextRetryAt : Time) (retryCount : ℕ)
    (fence : Option (String × String)) (now : Time) : RunUpdate where
  guard _ r := decide (r.id = id ∧ r.retryCount = expected ∧ fenceOk fence now r ∧
    r.status.isActive)
  write r := { r with
    status := .retrying, nextRetryAt := some nextRetryAt, retryCount, leaseExpiresAt := none }

/-- The `UPDATE` of `retry_tick`. -/
def requeueRetry (id : String) (retryCount : ℕ) (now : Time) : RunUpdate where
  guard _ r := decide (r.id = id ∧ r.status = .retrying ∧ r.retryCount = retryCount ∧
    ∃ n ∈ r.nextRetryAt, n ≤ now)
  write r := { r with status := .queued }

/-! ## Logs and purging -/

def insertLogWith (runId job path content : String) (now : Time) (t : Tables) : Effect :=
  if (t.log runId).isSome then
    t.updateLogs (fun l => decide (l.runId = runId)) fun l => { l with content }
  else (1, { t with jobLogs := t.jobLogs ++ [⟨runId, job, path, now, content⟩] })

def insertLogFenced (runId worker token job content : String) (now : Time) (t : Tables) : Effect :=
  match t.run runId with
  | none => (0, t)
  | some run =>
    if ¬holdsLease worker token now run then (0, t)
    else if (t.log runId).isNone then
      (1, { t with jobLogs := t.jobLogs ++ [⟨runId, run.jobId, "", now, content⟩] })
    else if run.jobId = job then
      t.updateLogs (fun l => decide (l.runId = runId)) fun l => { l with content }
    else (0, t)

def deleteLogs (job : String) (t : Tables) : Effect :=
  (matched (fun l : LogRow => decide (l.jobId = job)) t.jobLogs,
    { t with jobLogs := t.jobLogs.filter fun l => decide (l.jobId ≠ job) })

def deleteRuns (job : String) (t : Tables) : Effect :=
  (matched (fun r : RunRow => decide (r.jobId = job)) t.jobRuns,
    { t with jobRuns := t.jobRuns.filter fun r => decide (r.jobId ≠ job) })

def deleteJob (name : String) (t : Tables) : Effect :=
  (matched (fun j : JobRow => decide (j.name = name)) t.jobs,
    { t with jobs := t.jobs.filter fun j => decide (j.name ≠ name) })

/-! ## Statements -/

/-- Every `UPDATE` of `job_runs` the daemon issues. -/
inductive RunStmt
  | assignQueuedRun (id worker : String)
  | unassignOffline
  | claimRun (id worker token : String) (now : Time)
  | markJobRunning (worker job : String)
  | setRunStatus (id : String) (status : JobStatus)
  | setCancellingByJob (job : String)
  | dropSupersededRuns (now : Time)
  | cancelChanged (job : String) (now : Time)
  | renewRunLease (id worker token : String) (now : Time)
  | expireRun (id : String) (now : Time)
  | setRunLost (id : String) (now : Time)
  | finishRun (id : String) (c : Completion) (now : Time)
  | finishActiveRunFenced (id : String) (expected : ℕ) (c : Completion)
      (fence : Option (String × String)) (now : Time)
  | setRetry (id : String) (nextRetryAt : Time) (retryCount : ℕ)
  | setRetryFromActiveFenced (id : String) (expected : ℕ) (nextRetryAt : Time)
      (retryCount : ℕ) (fence : Option (String × String)) (now : Time)
  | requeueRetry (id : String) (retryCount : ℕ) (now : Time)
deriving DecidableEq, Repr

def RunStmt.update : RunStmt → RunUpdate
  | .assignQueuedRun id worker => Db.assignQueuedRun id worker
  | .unassignOffline => Db.unassignOffline
  | .claimRun id worker token now => Db.claimRun id worker token now
  | .markJobRunning worker job => Db.markJobRunning worker job
  | .setRunStatus id status => Db.setRunStatus id status
  | .setCancellingByJob job => Db.setCancellingByJob job
  | .dropSupersededRuns now => Db.dropSupersededRuns now
  | .cancelChanged job now => Db.cancelChanged job now
  | .renewRunLease id worker token now => Db.renewRunLease id worker token now
  | .expireRun id now => Db.expireRun id now
  | .setRunLost id now => Db.setRunLost id now
  | .finishRun id c now => Db.finishRun id c now
  | .finishActiveRunFenced id expected c fence now =>
    Db.finishActiveRunFenced id expected c fence now
  | .setRetry id nextRetryAt retryCount => Db.setRetry id nextRetryAt retryCount
  | .setRetryFromActiveFenced id expected nextRetryAt retryCount fence now =>
    Db.setRetryFromActiveFenced id expected nextRetryAt retryCount fence now
  | .requeueRetry id retryCount now => Db.requeueRetry id retryCount now

/-- Every writing statement of the store on the modelled tables. -/
inductive Stmt
  | updateRun (q : RunStmt)
  | createRun (id jobName : String) (worker : Option String) (status : JobStatus)
      (priority : ℤ) (now : Time)
  | createLostRequeue (newId id : String) (worker : Option String) (now : Time)
  | deleteRuns (job : String)
  | syncJob (name : String)
  | setConfigGeneration (name generation : String)
  | setJobStatus (name : String) (status : JobStatus)
  | setJobStatusForRun (id : String)
  | deleteJob (name : String)
  | upsertWorker (id : String)
  | setWorkerStatus (id : String) (status : WorkerStatus)
  | insertLogWith (runId job path content : String) (now : Time)
  | insertLogFenced (runId worker token job content : String) (now : Time)
  | deleteLogs (job : String)
deriving DecidableEq, Repr

def Stmt.effect : Stmt → Tables → Effect
  | .updateRun q => q.update.effect
  | .createRun id jobName worker status priority now =>
    Db.createRun id jobName worker status priority now
  | .createLostRequeue newId id worker now => Db.createLostRequeue newId id worker now
  | .deleteRuns job => Db.deleteRuns job
  | .syncJob name => Db.syncJob name
  | .setConfigGeneration name generation => Db.setConfigGeneration name generation
  | .setJobStatus name status => Db.setJobStatus name status
  | .setJobStatusForRun id => Db.setJobStatusForRun id
  | .deleteJob name => Db.deleteJob name
  | .upsertWorker id => Db.upsertWorker id
  | .setWorkerStatus id status => Db.setWorkerStatus id status
  | .insertLogWith runId job path content now => Db.insertLogWith runId job path content now
  | .insertLogFenced runId worker token job content now =>
    Db.insertLogFenced runId worker token job content now
  | .deleteLogs job => Db.deleteLogs job

inductive DbError
  | conflict
deriving DecidableEq, Repr

/-- One statement: it happens as a whole, or a constraint rejects it as a whole. -/
def execute (q : Stmt) (t : Tables) : Except DbError Effect :=
  if (q.effect t).2.Valid then .ok (q.effect t) else .error .conflict

/-- The tables after a statement, rejected or not. -/
def after (t : Tables) (q : Stmt) : Tables :=
  match execute q t with
  | .ok e => e.2
  | .error _ => t

/-- The rows a statement changed; none when it was rejected. -/
def changed (t : Tables) (q : Stmt) : ℕ :=
  match execute q t with
  | .ok e => e.1
  | .error _ => 0

/-- The store as a transition system over statements. -/
def step (t : Tables) (q : Stmt) : Option Tables := some (after t q)

end Synora.Db
