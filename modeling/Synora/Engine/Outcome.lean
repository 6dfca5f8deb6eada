import Synora.Manager.Complete
import Synora.Standalone.Daemon
import Synora.Storage.Context

namespace Synora.Engine
open Core Db Manager Storage

/-! ## What a provider comes back with -/

structure SyncResult where
  exitCode : Option Int32
  sizeHint : Option UInt64
  bytesTransferred : Option UInt64
  message : Option String
  status : Option String
deriving DecidableEq, Repr

inductive ProviderError
  | spawn (reason : String)
  | exit (code : Int32)
  | timeout
  | cancelled
  | config (reason : String)
  | other (reason : String)
deriving DecidableEq, Repr

/-- Classify into the retry-relevant `ErrorKind`. -/
def ProviderError.kind : ProviderError → ErrorKind
  | .timeout => .timeout
  | .config _ | .spawn _ => .configError
  | _ => .providerError

def ProviderError.toString : ProviderError → String
  | .spawn reason => "failed to start process: " ++ reason
  | .exit code => "provider exited with " ++ ToString.toString code.toInt
  | .timeout => "provider timed out"
  | .cancelled => "cancelled by operator"
  | .config reason => "invalid provider config: " ++ reason
  | .other reason => "provider failed: " ++ reason

structure RunOutcome where
  result : Except ProviderError SyncResult
  durationSecs : ℤ

def syncResultFailureReason (job : JobSpec) (r : SyncResult) : Option String :=
  reportedCompletionFailureReason job (r.exitCode.map Int32.toInt) r.status

/-- The result is a success that the engine believes. -/
def RunOutcome.successful (job : JobSpec) (o : RunOutcome) : Option SyncResult :=
  match o.result with
  | .ok r => if (syncResultFailureReason job r).isNone then some r else none
  | .error _ => none

/-- How `finish_run` tells the outcomes apart. -/
def RunOutcome.tail (m : Measures) (job : JobSpec) (spec : MirrorSpec) (o : RunOutcome) :
    Standalone.Outcome :=
  match o.result with
  | .error .cancelled => .cancelled
  | .error e => .failed e.kind none e.toString
  | .ok r =>
    match syncResultFailureReason job r with
    | none => .succeeded (decide (r.status = some "success_with_warnings"))
        (r.exitCode.map Int32.toInt) (sizeAfter m spec.statistics spec.storage r.sizeHint)
        (r.bytesTransferred.map asI64) r.message
    | some reason => .failed .providerError (r.exitCode.map Int32.toInt) reason

end Synora.Engine
