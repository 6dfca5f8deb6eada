import Synora.Engine.Dispatch
import Synora.Manager.Complete

namespace Synora.Manager
open Core Db Engine

/-- Where one completion request stands. The locks of `complete` are not modelled: they only
remove interleavings. -/
inductive Phase
  | received
  | loaded (run : RunRow)
  | decided (run : RunRow) (v : Verdict)
  /-- The guarded update changed the row; `set_job_status_for_run` is still to come. -/
  | won (run : RunRow) (v : Verdict)
  /-- `applied = true`, no counter incremented yet. -/
  | applied (run : RunRow) (v : Verdict)
  | requeue (run : RunRow)
  | logging (run : RunRow)
  | answered (code : StatusCode)
deriving DecidableEq, Repr

structure Handler where
  body : CompleteRequest
  phase : Phase
deriving DecidableEq, Repr

/-- `retry_tick`, one store operation at a time. -/
inductive Ticker
  | idle
  | loop (now : Time) (due : List RunRow)
  | drop (now : Time) (run : RunRow) (due : List RunRow)
  | requeue (now : Time) (run : RunRow) (due : List RunRow)
deriving DecidableEq, Repr

/-- The lease part of the reaper, one store operation at a time. -/
inductive Reaper
  | idle
  | loop (now : Time) (expired : List RunRow)
  | lost (now : Time) (run : RunRow) (expired : List RunRow)
deriving DecidableEq, Repr

structure State where
  db : Tables
  /-- The live configuration. -/
  jobs : List JobSpec
  handlers : List Handler
  ticker : Ticker
  reaper : Reaper
  /-- Runs that `dispatch` has created as `SKIPPED` and is about to finish so. -/
  skips : List (String × String)
  /-- Every id `RunId::new` has returned. -/
  runIds : List String
  /-- The `(run, retry_count)` pairs with `applied = true`, latest first. -/
  applied : List (String × ℕ)
  /-- The counter increments, each with the pair it is made for. -/
  counted : List (Counter × String × ℕ)
deriving DecidableEq, Repr

def State.init (jobs : List JobSpec) : State :=
  ⟨Tables.empty, jobs, [], .idle, .idle, [], [], [], []⟩

def State.job (s : State) (name : String) : Option JobSpec :=
  s.jobs.find? fun j => decide (j.name = name)

/-- The statements that other parts of the manager issue at any time: claims, heartbeats,
registration, stop and purge requests, reloads, and the rest of the reaper. -/
def free : Stmt → Bool
  | .updateRun u =>
    match u with
    | .assignQueuedRun .. | .unassignOffline | .claimRun .. | .markJobRunning ..
    | .setCancellingByJob .. | .dropSupersededRuns .. | .cancelChanged ..
    | .renewRunLease .. => true
    | _ => false
  | .createRun .. | .createLostRequeue .. => false
  | _ => true

inductive Action
  | statement (q : Stmt)
  | reload (jobs : List JobSpec)
  /-- `dispatch` queues a run. -/
  | dispatch (id job : String) (worker : Option String) (priority : ℤ) (now : Time)
  /-- `dispatch` skips a run whose dependency has not succeeded. -/
  | skip (id job dep : String) (now : Time)
  | skipFinish (i : ℕ) (now : Time)
  | request (body : CompleteRequest)
  | load (i : ℕ)
  | decide (i : ℕ) (ended : Time)
  | update (i : ℕ) (now : Time)
  | project (i : ℕ)
  | count (i : ℕ)
  | requeue (i : ℕ) (newId : String) (worker : Option String) (now : Time)
  | log (i : ℕ) (now : Time)
  /-- A failed check, a database error or a dropped connection ends a request. -/
  | abort (i : ℕ) (code : StatusCode)
  | tickList (now : Time)
  | tickNext (queryFailed : Bool)
  | tickDrop (now : Time)
  | tickRequeue
  | reapList (now : Time)
  | reapNext
  | reapRequeue (newId : String) (worker : Option String) (now : Time)
  /-- A database error makes the loop of the ticker, or of the reaper, go on. -/
  | tickFail
  | reapFail
deriving DecidableEq, Repr

/-- The request a step of `complete` belongs to. -/
def Action.slot : Action → Option ℕ
  | .load i | .decide i _ | .update i _ | .project i | .count i | .requeue i .. | .log i _
  | .abort i _ => some i
  | _ => none

namespace State

def setPhase (s : State) (i : ℕ) (h : Handler) (phase : Phase) : State :=
  { s with handlers := s.handlers.set i { h with phase } }

end State

section
variable (scaleDelay : ℕ → F64 → ℕ → ℕ)

/-- The steps of `complete`. -/
def completeStep (s : State) (i : ℕ) (h : Handler) : Action → Option State
  | .load _ =>
    match h.phase with
    | .received =>
      match s.db.run h.body.runId with
      | some run => some (s.setPhase i h (.loaded run))
      | none => some (s.setPhase i h (.answered .notFound))
    | _ => none
  | .decide _ ended =>
    match h.phase with
    | .loaded run =>
      match judge scaleDelay (s.job run.jobId) run h.body ended with
      | .answer code => some (s.setPhase i h (.answered code))
      | v => some (s.setPhase i h (.decided run v))
    | _ => none
  | .update _ now =>
    match h.phase with
    | .decided run v =>
      match v.update h.body run now with
      | some u =>
        if 0 < changed s.db (.updateRun u) then
          some { s.setPhase i h (.won run v) with db := after s.db (.updateRun u) }
        else some (s.setPhase i h (.answered .ok))
      | none => none
    | _ => none
  | .project _ =>
    match h.phase with
    | .won run v => some { s.setPhase i h (.applied run v) with
        db := after s.db (.setJobStatusForRun h.body.runId)
        applied := (h.body.runId, run.retryCount) :: s.applied }
    | _ => none
  | .count _ =>
    match h.phase with
    | .applied run v => some
        { s.setPhase i h (if .lost ∈ v.counters h.body then .requeue run else .logging run) with
          counted := (v.counters h.body).map (fun c => (c, h.body.runId, run.retryCount)) ++
            s.counted }
    | _ => none
  | .requeue _ newId worker now =>
    match h.phase with
    | .requeue run =>
      if newId ∈ s.runIds then none
      else some { s.setPhase i h (.logging run) with
        db := after s.db (.createLostRequeue newId h.body.runId worker now)
        runIds := newId :: s.runIds }
    | _ => none
  | .log _ now =>
    match h.phase with
    | .logging run =>
      match h.body.log.filter fun l => !decide (l = "") with
      | some log => some { s.setPhase i h (.answered .ok) with
          db := after s.db (.insertLogWith h.body.runId run.jobId
            ("/var/log/synora/" ++ run.jobId ++ "/current.log") log now) }
      | none => some (s.setPhase i h (.answered .ok))
    | _ => none
  | .abort _ code => some (s.setPhase i h (.answered code))
  | _ => none

/-- The steps of `retry_tick`. -/
def tickStep (s : State) : Action → Option State
  | .tickList now =>
    match s.ticker with
    | .idle => some { s with ticker := .loop now (dueRetries s.db now) }
    | _ => none
  | .tickNext queryFailed =>
    match s.ticker with
    | .loop _ [] => some { s with ticker := .idle }
    | .loop now (run :: due) =>
      if (s.job run.jobId).any fun j => !j.enabled then
        some { s with ticker := .drop now run due }
      else if !queryFailed && !(activeRunsOfJob s.db run.jobId).isEmpty then
        some { s with ticker := .loop now due }
      else some { s with ticker := .requeue now run due }
    | _ => none
  | .tickDrop at_ =>
    match s.ticker with
    | .drop now run due => some { s with
        db := after s.db (.updateRun (.finishRun run.id disabledCompletion at_))
        ticker := .loop now due }
    | _ => none
  | .tickRequeue =>
    match s.ticker with
    | .requeue now run due => some { s with
        db := after s.db (.updateRun (.requeueRetry run.id run.retryCount now))
        ticker := .loop now due }
    | _ => none
  | .tickFail =>
    match s.ticker with
    | .drop now _ due | .requeue now _ due => some { s with ticker := .loop now due }
    | _ => none
  | _ => none

/-- The steps of the reaper's lease loop. -/
def reapStep (s : State) : Action → Option State
  | .reapList now =>
    match s.reaper with
    | .idle => some { s with reaper := .loop now (expiredRuns s.db now) }
    | _ => none
  | .reapNext =>
    match s.reaper with
    | .loop _ [] => some { s with reaper := .idle }
    | .loop now (run :: expired) =>
      let q : Stmt := .updateRun (.expireRun run.id now)
      some { s with
        db := after s.db q
        reaper := if 0 < changed s.db q then .lost now run expired else .loop now expired }
    | _ => none
  | .reapRequeue newId worker at_ =>
    match s.reaper with
    | .lost now run expired =>
      if (s.job run.jobId).any fun j => decide (j.onWorkerLost = .retry) then
        if newId ∈ s.runIds then none
        else some { s with
          db := after s.db (.createLostRequeue newId run.id worker at_)
          runIds := newId :: s.runIds
          reaper := .loop now expired }
      else some { s with reaper := .loop now expired }
    | _ => none
  | .reapFail =>
    match s.reaper with
    | .loop now (_ :: expired) | .lost now _ expired =>
      some { s with reaper := .loop now expired }
    | _ => none
  | _ => none

/-- One step of the manager: any part of it moves, or nothing does. -/
def step (s : State) (a : Action) : Option State :=
  match a with
  | .statement q => if free q then some { s with db := after s.db q } else none
  | .reload jobs =>
    -- `config_gate`: the tick and the reaper hold it for as long as they loop.
    if s.ticker = .idle ∧ s.reaper = .idle then some { s with jobs } else none
  | .dispatch id job worker priority now =>
    if id ∈ s.runIds then none
    else some { s with
      db := after s.db (.createRun id job worker .queued priority now)
      runIds := id :: s.runIds }
  | .skip id job dep now =>
    if id ∈ s.runIds then none
    else some { s with
      db := after s.db (.createRun id job none .skipped 0 now)
      runIds := id :: s.runIds
      skips := (id, dep) :: s.skips }
  | .skipFinish i now =>
    s.skips[i]?.map fun p => { s with
      db := after s.db (.updateRun (.finishRun p.1 (skipCompletion p.2) now)) }
  | .request body => some { s with handlers := s.handlers ++ [⟨body, .received⟩] }
  | .tickList .. | .tickNext .. | .tickDrop .. | .tickRequeue | .tickFail => tickStep s a
  | .reapList .. | .reapNext | .reapRequeue .. | .reapFail => reapStep s a
  | a => a.slot.bind fun i => s.handlers[i]?.bind fun h => completeStep scaleDelay s i h a

end

end Synora.Manager
