import Synora.Core.JobState
import Synora.Lib.Table

namespace Synora.Db
open Core Table

/-- The texts of the `status` columns. `starting` occurs in predicates and old rows only. -/
inductive DbStatus
  | pending | scheduled | queued | starting | syncing | running | success
  | successWithWarnings | failed | retrying | cancelling | cancelled | lost | skipped
deriving DecidableEq, Repr

def toDb : JobStatus → DbStatus
  | .pending => .pending
  | .scheduled => .scheduled
  | .queued => .queued
  | .syncing => .syncing
  | .running => .running
  | .success => .success
  | .successWithWarnings => .successWithWarnings
  | .failed => .failed
  | .retrying => .retrying
  | .cancelling => .cancelling
  | .cancelled => .cancelled
  | .lost => .lost
  | .skipped => .skipped

def fromDb : DbStatus → JobStatus
  | .pending => .pending
  | .scheduled => .scheduled
  | .queued => .queued
  | .starting | .syncing => .syncing
  | .running => .running
  | .success => .success
  | .successWithWarnings => .successWithWarnings
  | .failed => .failed
  | .retrying => .retrying
  | .cancelling => .cancelling
  | .cancelled => .cancelled
  | .lost => .lost
  | .skipped => .skipped

theorem fromDb_toDb (s : JobStatus) : fromDb (toDb s) = s := by cases s <;> rfl

/-- `status IN ('STARTING','SYNCING','RUNNING','CANCELLING')` -/
def DbStatus.isActive : DbStatus → Bool
  | .starting | .syncing | .running | .cancelling => true
  | _ => false

/-- `status IN ('STARTING','SYNCING','RUNNING')` -/
def DbStatus.isExecuting : DbStatus → Bool
  | .starting | .syncing | .running => true
  | _ => false

/-- `status IN ('QUEUED','STARTING','SYNCING','RUNNING','RETRYING','CANCELLING')` -/
def DbStatus.isInflight : DbStatus → Bool
  | .queued | .starting | .syncing | .running | .retrying | .cancelling => true
  | _ => false

/-- The statuses a run row ends in. -/
def DbStatus.isTerminal : DbStatus → Bool
  | .success | .successWithWarnings | .failed | .cancelled | .lost | .skipped => true
  | _ => false

theorem DbStatus.not_active_of_terminal {s : DbStatus} (h : s.isTerminal) : s.isActive = false := by
  cases s <;> first | rfl | cases h

theorem DbStatus.isActive_of_isExecuting {s : DbStatus} (h : s.isExecuting) : s.isActive := by
  cases s <;> first | rfl | cases h

/-- Unix seconds. -/
abbrev Time := ℤ

structure JobRow where
  name : String
  status : DbStatus
  configGeneration : String
deriving DecidableEq, Repr

inductive WorkerStatus
  | online | offline | draining | maintenance | stopping
deriving DecidableEq, Repr

structure WorkerRow where
  id : String
  status : WorkerStatus
deriving DecidableEq, Repr

/-- A row of `job_runs`. -/
structure RunRow where
  id : String
  jobId : String
  workerId : Option String
  status : DbStatus
  retryCount : ℕ
  lostCount : ℕ
  startedAt : Option Time
  finishedAt : Option Time
  durationSecs : Option ℤ
  exitCode : Option ℤ
  sizeBefore : Option ℤ
  sizeAfter : Option ℤ
  bytesTransferred : Option ℤ
  message : Option String
  leaseExpiresAt : Option Time
  leaseToken : Option String
  nextRetryAt : Option Time
  createdAt : Time
  priority : ℤ
  configGeneration : String
deriving DecidableEq, Repr

structure LogRow where
  runId : String
  jobId : String
  logPath : String
  createdAt : Time
  content : String
deriving DecidableEq, Repr

structure Tables where
  jobs : List JobRow
  workers : List WorkerRow
  jobRuns : List RunRow
  jobLogs : List LogRow
deriving DecidableEq, Repr

namespace Tables

/-- A freshly migrated database. -/
def empty : Tables := ⟨[], [], [], []⟩

def run (t : Tables) (id : String) : Option RunRow := lookup RunRow.id id t.jobRuns

def log (t : Tables) (id : String) : Option LogRow := lookup LogRow.runId id t.jobLogs

def job (t : Tables) (name : String) : Option JobRow := lookup JobRow.name name t.jobs

/-- The row `id` exists and has one of the four active statuses. -/
def Active (t : Tables) (id : String) : Prop := ∃ r, t.run id = some r ∧ r.status.isActive

instance (t : Tables) (id : String) : Decidable (t.Active id) :=
  match h : t.run id with
  | none => isFalse fun ⟨r, hr, _⟩ => by simp [h] at hr
  | some r => decidable_of_iff (r.status.isActive = true)
      ⟨fun ha => ⟨r, h, ha⟩, fun ⟨r', hr', ha⟩ => by
        rw [h, Option.some.injEq] at hr'
        exact hr' ▸ ha⟩

/-- The partial unique index of migration 8. -/
def OneActiveRunPerJob (t : Tables) : Prop :=
  UniqueWhere (fun r : RunRow => r.status.isActive) RunRow.jobId t.jobRuns

/-- The declared constraints: primary keys, foreign keys, the partial unique index. -/
structure Valid (t : Tables) : Prop where
  jobNames : (t.jobs.map JobRow.name).Nodup
  workerIds : (t.workers.map WorkerRow.id).Nodup
  runIds : (t.jobRuns.map RunRow.id).Nodup
  logIds : (t.jobLogs.map LogRow.runId).Nodup
  runJobs : ∀ r ∈ t.jobRuns, r.jobId ∈ t.jobs.map JobRow.name
  runWorkers : ∀ r ∈ t.jobRuns, ∀ w ∈ r.workerId, w ∈ t.workers.map WorkerRow.id
  oneActive : t.OneActiveRunPerJob

instance (t : Tables) : Decidable t.OneActiveRunPerJob :=
  inferInstanceAs (Decidable (UniqueWhere _ _ _))

instance (t : Tables) : Decidable t.Valid :=
  decidable_of_iff
    ((t.jobs.map JobRow.name).Nodup ∧ (t.workers.map WorkerRow.id).Nodup ∧
      (t.jobRuns.map RunRow.id).Nodup ∧ (t.jobLogs.map LogRow.runId).Nodup ∧
      (∀ r ∈ t.jobRuns, r.jobId ∈ t.jobs.map JobRow.name) ∧
      (∀ r ∈ t.jobRuns, ∀ w ∈ r.workerId, w ∈ t.workers.map WorkerRow.id) ∧
      t.OneActiveRunPerJob)
    ⟨fun ⟨h1, h2, h3, h4, h5, h6, h7⟩ => ⟨h1, h2, h3, h4, h5, h6, h7⟩,
      fun ⟨h1, h2, h3, h4, h5, h6, h7⟩ => ⟨h1, h2, h3, h4, h5, h6, h7⟩⟩

theorem empty_valid : empty.Valid := by decide

theorem run_eq_some {t : Tables} {id : String} {r : RunRow} (h : t.run id = some r) :
    r ∈ t.jobRuns ∧ r.id = id := lookup_eq_some_mem h

theorem Valid.run_of_mem {t : Tables} (h : t.Valid) {r : RunRow} (hr : r ∈ t.jobRuns) :
    t.run r.id = some r := lookup_of_mem h.runIds hr

/-- Two active runs of one job are one run. -/
theorem Valid.active_unique {t : Tables} (h : t.Valid) {r r' : RunRow} {id id' : String}
    (hr : t.run id = some r) (hr' : t.run id' = some r') (ha : r.status.isActive)
    (ha' : r'.status.isActive) (hj : r.jobId = r'.jobId) : r = r' :=
  h.oneActive.eq (run_eq_some hr).1 (run_eq_some hr').1 ha ha' hj

end Tables

end Synora.Db
