import Synora.Db.Queries
import Synora.Lib.Text

namespace Synora.Engine
open Core Db

/-- What `dispatch` writes into a run it skips. -/
def skipCompletion (dep : String) : Completion :=
  ⟨.skipped, none, none, none, none, some ("dependency `" ++ dep ++ "` has not succeeded"), 0⟩

/-- What `retry_tick` writes into a due run of a disabled job. -/
def disabledCompletion : Completion :=
  ⟨.cancelled, none, none, none, none, some "job disabled", 0⟩

/-- What `dispatch_current` finds. -/
inductive Decision
  | refused
  /-- A dependency has not succeeded. -/
  | skip (dep : String)
  /-- A run of the job is in flight; its id is returned. -/
  | existing (id : String)
  | queue
deriving DecidableEq, Repr

def latestIs (t : Tables) (job : String) (p : JobStatus → Bool) : Bool :=
  (runHistory t job 1).head?.any fun r => p (fromDb r.status)

/-- The reads of `dispatch_current`, up to its first write. -/
def dispatchCurrent (t : Tables) (jobs : List JobSpec) (name : String) (forced : Bool) : Decision :=
  match jobs.find? fun j => decide (j.name = name) with
  | none => .refused
  | some job =>
    if !job.enabled then .refused
    else if !forced && decide (job.onWorkerLost = .fail) &&
        latestIs t name (fun s => decide (s = .lost)) then .refused
    else match job.dependsOn.find? fun dep => !latestIs t dep JobStatus.isSuccess with
      | some dep => .skip dep
      | none =>
        match (inflightRunsOfJob t name).head? with
        | some run => .existing run.id
        | none => .queue

/-- `forget_job` rejects names that are paths. -/
def isJobName (name : String) : Bool :=
  let t := name.toList
  !(decide (t = [] ∨ t = ".".toList ∨ '/' ∈ t ∨ '\\' ∈ t ∨ Char.ofNat 0 ∈ t) ||
    Strings.contains t "..".toList)

/-- `forget_job`, statement by statement. -/
def forgetJob (name : String) : List Stmt :=
  [.updateRun (.setCancellingByJob name), .deleteLogs name, .deleteRuns name, .deleteJob name]

end Synora.Engine
