import Synora.Db.Frames
import Synora.Engine.Dispatch

namespace Synora.Standalone
open Core Db Engine

structure Config where
  jobs : List JobSpec
  logDir : String
deriving DecidableEq, Repr

/-! ## Run tasks -/

/-- What `run_once` comes back with, as `finish_run` tells the cases apart. -/
inductive Outcome
  | cancelled
  | succeeded (warnings : Bool) (exitCode sizeAfter bytesTransferred : Option ℤ)
      (message : Option String)
  | failed (kind : ErrorKind) (exitCode : Option ℤ) (message : String)
deriving DecidableEq, Repr

/-- `execute_run`, one store operation at a time. -/
inductive TaskPhase
  /-- The log row and the status `RUNNING` are still to be stored, then `register_run`. -/
  | starting (todo : List Stmt)
  /-- In `run_once`. -/
  | executing
  | ended (outcome : Outcome) (durationSecs : ℤ)
  /-- In `finish_run`; then `remove_run`. -/
  | finishing (todo : List Stmt)
deriving DecidableEq, Repr

structure Task where
  runId : String
  job : JobSpec
  phase : TaskPhase
deriving DecidableEq, Repr

def Task.todo (task : Task) : List Stmt :=
  match task.phase with
  | .starting todo | .finishing todo => todo
  | .executing | .ended .. => []

/-- `Store::finish_run` -/
def finishRunStmts (id : String) (c : Completion) (now : Time) : List Stmt :=
  [.updateRun (.finishRun id c now), .setJobStatusForRun id]

/-- `Store::set_run_status` -/
def setRunStatusStmts (id job : String) (status : JobStatus) : List Stmt :=
  [.updateRun (.setRunStatus id status), .setJobStatus job status]

/-- `Store::set_retry` -/
def setRetryStmts (id : String) (nextRetryAt : Time) (retryCount : ℕ) : List Stmt :=
  [.updateRun (.setRetry id nextRetryAt retryCount), .setJobStatusForRun id]

/-- What `execute_run` stores before the provider runs. -/
def startStmts (logDir id : String) (job : JobSpec) (now : Time) : List Stmt :=
  .insertLogWith id job.name (logDir ++ "/" ++ job.name ++ "/current.log") "" now ::
    setRunStatusStmts id job.name .running

/-- What the executor's `finish_run` stores. -/
def finishStmts (scaleDelay : ℕ → F64 → ℕ → ℕ) (id : String) (job : JobSpec) (retryCount : ℕ)
    (outcome : Outcome) (durationSecs : ℤ) (now : Time) : List Stmt :=
  match outcome with
  | .cancelled => finishRunStmts id
      ⟨.cancelled, none, none, none, none, some "cancelled by operator", durationSecs⟩ now
  | .succeeded warnings exitCode sizeAfter bytesTransferred message => finishRunStmts id
      ⟨if warnings then .successWithWarnings else .success, exitCode, none, sizeAfter,
        bytesTransferred, message, durationSecs⟩ now
  | .failed kind exitCode message =>
    match retryDecision scaleDelay kind retryCount job.retry (max job.retryDelay 1).toNat
        job.retryBackoff with
    | .retry delaySecs =>
      setRetryStmts id (now + delaySecs) (retryCount + 1) ++
        setRunStatusStmts id job.name .retrying
    | .noRetry => finishRunStmts id
        ⟨.failed, exitCode, none, none, none, some message, durationSecs⟩ now

/-! ## The process -/

/-- Where the main thread stands: `sync_config`, then the loop of ticks. -/
inductive Main
  | syncing (todo : List JobSpec)
  | forgetting (todo : List String)
  | serving
  /-- In `retry_tick`. -/
  | retrying (now : Time) (due : List RunRow)
  /-- In `execute_queued`. -/
  | claiming (todo : List RunRow)
  /-- `claim_run` has changed the row; the task is not spawned yet. -/
  | claimed (runId : String) (job : JobSpec) (todo : List RunRow)
deriving DecidableEq, Repr

/-- A store operation of the main thread. -/
inductive Instr
  | stmt (q : Stmt)
  /-- The end of `create_run` for a queued run: the job is `QUEUED` unless a run of it executes. -/
  | queuedStatus (job : String)
deriving DecidableEq, Repr

def Instr.run (t : Tables) : Instr → Tables
  | .stmt q => after t q
  | .queuedStatus job =>
    if (activeRunsOfJob t job).isEmpty then after t (.setJobStatus job .queued) else t

structure Process where
  cfg : Config
  /-- `live_jobs` -/
  jobs : List JobSpec
  main : Main
  /-- What the main thread stores next. -/
  pending : List Instr
  tasks : List Task
  /-- The runs whose cancel tokens are registered, by job. -/
  activeRuns : List (String × String)
  /-- A tick has been completed. -/
  ticked : Bool
deriving DecidableEq, Repr

/-- The database and, while the daemon runs, its memory. -/
structure Daemon where
  db : Tables
  proc : Option Process
deriving DecidableEq, Repr

def Daemon.init : Daemon := ⟨.empty, none⟩

def Process.init (cfg : Config) : Process :=
  ⟨cfg, cfg.jobs, .syncing cfg.jobs, [], [], [], false⟩

def Process.job (p : Process) (name : String) : Option JobSpec :=
  p.jobs.find? fun j => decide (j.name = name)

inductive Action
  /-- `Engine::new` with `register_local`. -/
  | start (cfg : Config)
  /-- The process ends, however it does. -/
  | crash
  | flush
  | syncNext (generation : String)
  | listJobs
  | forgetNext
  | serve
  | dispatch (name : String) (forced : Bool) (id : String) (now : Time)
  | listDue (now : Time)
  | retryNext (now : Time)
  | retryEnd
  | listQueued
  | claimNext (token : String) (now : Time)
  /-- A concurrency gate is closed, or the daemon is shutting down. -/
  | claimSkip
  | spawn (now : Time)
  | endTick
  | reload (jobs : List (JobSpec × String)) (now : Time)
  | taskStore (i : ℕ)
  | taskRegister (i : ℕ)
  | taskEnd (i : ℕ) (outcome : Outcome) (durationSecs : ℤ)
  | taskFinish (i : ℕ) (now : Time)
  | taskLeave (i : ℕ)
deriving DecidableEq, Repr

/-- What `dispatch_current` stores for a run that it skips. -/
def skipStmts (name dep id : String) (now : Time) : List Stmt :=
  .createRun id name none .skipped 0 now :: .setJobStatus name .skipped ::
    finishRunStmts id (skipCompletion dep) now

/-- What `dispatch_current` stores. -/
def dispatchInstrs (d : Decision) (name : String) (forced : Bool) (id : String) (now : Time) :
    List Instr :=
  match d with
  | .refused | .existing _ => []
  | .skip dep => (skipStmts name dep id now).map .stmt
  | .queue => [.stmt (.createRun id name (some localWorker) .queued (if forced then 1 else 0) now),
      .queuedStatus name]

/-- What `execute_queued` writes into a run of a job it does not know. -/
def removedCompletion : Completion :=
  ⟨.failed, none, none, none, none, some "job removed from config", 0⟩

/-- What `reload` stores for a changed job. -/
def changeJob (now : Time) (job : JobSpec × String) : List Stmt :=
  [.updateRun (.cancelChanged job.1.name now), .syncJob job.1.name,
    .setConfigGeneration job.1.name job.2]

/-- The main thread, when it has nothing left to store. -/
def mainStep (t : Tables) (p : Process) : Action → Option Daemon
  | .syncNext generation =>
    match p.main with
    | .syncing (job :: todo) => some ⟨t, some { p with
        main := .syncing todo
        pending := [.stmt (.syncJob job.name), .stmt (.setConfigGeneration job.name generation)] }⟩
    | _ => none
  | .listJobs =>
    match p.main with
    | .syncing [] => some ⟨t, some { p with
        main := .forgetting ((t.jobs.map JobRow.name).filter fun name =>
          !decide (name ∈ p.jobs.map JobSpec.name)) }⟩
    | _ => none
  | .forgetNext =>
    match p.main with
    | .forgetting (name :: todo) =>
      if isJobName name then some ⟨t, some { p with
        main := .forgetting todo, pending := (forgetJob name).map .stmt }⟩
      -- `sync_config` fails, and `cmd_start` with it.
      else some ⟨t, none⟩
    | _ => none
  | .serve =>
    match p.main with
    | .forgetting [] => some ⟨t, some { p with main := .serving }⟩
    | _ => none
  | .dispatch name forced id now =>
    match p.main with
    | .serving =>
      -- `RunId::new` does not return an id that is in use.
      if (t.run id).isSome then none
      else some ⟨t, some { p with
        pending := dispatchInstrs (dispatchCurrent t p.jobs name forced) name forced id now }⟩
    | _ => none
  | .listDue now =>
    match p.main with
    | .serving => some ⟨t, some { p with main := .retrying now (dueRetries t now) }⟩
    | _ => none
  | .retryNext at_ =>
    match p.main with
    | .retrying now (run :: due) =>
      let p := { p with main := .retrying now due }
      if (p.job run.jobId).any fun j => !j.enabled then some ⟨t, some { p with
        pending := (finishRunStmts run.id disabledCompletion at_).map .stmt }⟩
      else if !(activeRunsOfJob t run.jobId).isEmpty then some ⟨t, some p⟩
      else some ⟨t, some { p with
        pending := [.stmt (.updateRun (.requeueRetry run.id run.retryCount now))] }⟩
    | _ => none
  | .retryEnd =>
    match p.main with
    | .retrying _ [] => some ⟨t, some { p with main := .serving }⟩
    | _ => none
  | .listQueued =>
    match p.main with
    | .serving => some ⟨t, some { p with main := .claiming (queuedRuns t localWorker) }⟩
    | _ => none
  | .claimNext token now =>
    match p.main with
    | .claiming (run :: todo) =>
      match p.job run.jobId with
      | none => some ⟨t, some { p with
          main := .claiming todo
          pending := (finishRunStmts run.id removedCompletion now).map .stmt }⟩
      | some job =>
        let q : Stmt := .updateRun (.claimRun run.id localWorker token now)
        if 0 < changed t q then some ⟨after t q, some { p with
          main := .claimed run.id job todo
          pending := [.stmt (.setJobStatus run.jobId .syncing)] }⟩
        else some ⟨t, some { p with main := .claiming todo }⟩
    | _ => none
  | .claimSkip =>
    match p.main with
    | .claiming (_ :: todo) => some ⟨t, some { p with main := .claiming todo }⟩
    | _ => none
  | .spawn now =>
    match p.main with
    | .claimed runId job todo => some ⟨t, some { p with
        main := .claiming todo
        tasks := p.tasks ++ [⟨runId, job, .starting (startStmts p.cfg.logDir runId job now)⟩] }⟩
    | _ => none
  | .endTick =>
    match p.main with
    | .claiming [] => some ⟨t, some { p with main := .serving, ticked := true }⟩
    | _ => none
  | .reload jobs now =>
    -- `config_gate`: a reload waits until no pass of a tick is under way.
    match p.main with
    | .serving =>
      let names := jobs.map fun j => j.1.name
      let changed := jobs.filter fun j => !decide (p.job j.1.name = some j.1)
      let removed := (p.jobs.map JobSpec.name).filter fun name => !decide (name ∈ names)
      if removed.all isJobName then some ⟨t, some { p with
        jobs := jobs.map Prod.fst
        activeRuns := p.activeRuns.filter fun a => !decide (a.1 ∈ removed)
        pending := (changed.flatMap (changeJob now) ++ removed.flatMap forgetJob).map .stmt }⟩
      else none
    | _ => none
  | _ => none

section
variable (scaleDelay : ℕ → F64 → ℕ → ℕ)

/-- A run task. -/
def taskStep (t : Tables) (p : Process) (i : ℕ) (task : Task) : Action → Option Daemon
  | .taskStore _ =>
    match task.phase with
    | .starting (q :: todo) =>
      some ⟨after t q, some { p with tasks := p.tasks.set i { task with phase := .starting todo } }⟩
    | .finishing (q :: todo) =>
      some ⟨after t q, some { p with tasks := p.tasks.set i { task with phase := .finishing todo } }⟩
    | _ => none
  | .taskRegister _ =>
    match task.phase with
    | .starting [] => some ⟨t, some { p with
        tasks := p.tasks.set i { task with phase := .executing }
        activeRuns := (task.job.name, task.runId) ::
          p.activeRuns.filter fun a => !decide (a.1 = task.job.name) }⟩
    | _ => none
  | .taskEnd _ outcome durationSecs =>
    match task.phase with
    | .executing => some ⟨t, some { p with
        tasks := p.tasks.set i { task with phase := .ended outcome durationSecs } }⟩
    | _ => none
  | .taskFinish _ now =>
    match task.phase with
    | .ended outcome durationSecs =>
      let retryCount := ((t.run task.runId).map RunRow.retryCount).getD 0
      some ⟨t, some { p with tasks := p.tasks.set i { task with
        phase := .finishing (finishStmts scaleDelay task.runId task.job retryCount outcome
          durationSecs now) } }⟩
    | _ => none
  | .taskLeave _ =>
    match task.phase with
    | .finishing [] => some ⟨t, some { p with
        tasks := p.tasks.eraseIdx i
        activeRuns := p.activeRuns.filter fun a => !decide (a.1 = task.job.name) }⟩
    | _ => none
  | _ => none

/-- The task an action belongs to. -/
def Action.task : Action → Option ℕ
  | .taskStore i | .taskRegister i | .taskEnd i .. | .taskFinish i _ | .taskLeave i => some i
  | _ => none

/-- One step of the daemon: the main thread or one task moves, or the process starts or ends. -/
def step (s : Daemon) (a : Action) : Option Daemon :=
  match a, s.proc with
  | .start cfg, none => some ⟨after s.db (.upsertWorker localWorker), some (.init cfg)⟩
  | .crash, some _ => some ⟨s.db, none⟩
  | a, some p =>
    match a.task with
    | some i => p.tasks[i]?.bind fun task => taskStep scaleDelay s.db p i task a
    | none =>
      match p.pending with
      | i :: pending =>
        if a = .flush then some ⟨i.run s.db, some { p with pending }⟩ else none
      | [] => mainStep s.db p a
  | _, none => none

end

end Synora.Standalone
