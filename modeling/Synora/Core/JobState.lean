import Mathlib.Data.Int.Basic
import Mathlib.Tactic.Common

namespace Synora.Core

/-- Lifecycle of a job and of a run. -/
inductive JobStatus
  | pending | scheduled | queued | syncing | running | success | successWithWarnings
  | failed | retrying | cancelling | cancelled | lost | skipped
deriving DecidableEq, Repr

def JobStatus.isSuccess : JobStatus → Bool
  | .success | .successWithWarnings => true
  | _ => false

inductive ErrorKind
  | networkError | timeout | proxyError | providerError | storageError | configError
deriving DecidableEq, Repr

inductive RunEvent
  | queued | starting | running | success | successWithWarnings | failed | retrying
  | cancelling | cancelled | lost
deriving DecidableEq, Repr

structure StateError where
  cur : JobStatus
  event : RunEvent
deriving DecidableEq, Repr

/-- Legal transitions; `lost` is terminal for the run row. -/
def transition (cur : JobStatus) (ev : RunEvent) : Except StateError JobStatus :=
  match cur, ev with
  | .queued, .starting => .ok .syncing
  | .queued, .cancelled => .ok .cancelled
  | .syncing, .running => .ok .running
  | .syncing, .successWithWarnings => .ok .successWithWarnings
  | .running, .successWithWarnings => .ok .successWithWarnings
  | .syncing, .success => .ok .success
  | .syncing, .failed => .ok .failed
  | .syncing, .cancelling => .ok .cancelling
  | .syncing, .lost => .ok .lost
  | .running, .success => .ok .success
  | .running, .failed => .ok .failed
  | .running, .cancelling => .ok .cancelling
  | .running, .lost => .ok .lost
  | .failed, .retrying => .ok .retrying
  | .retrying, .queued => .ok .queued
  | .cancelling, .cancelled => .ok .cancelled
  | _, _ => .error ⟨cur, ev⟩

/-- The bits of an `f64`; its arithmetic is a parameter of whatever computes with it. -/
abbrev F64 := UInt64

inductive RetryDecision
  | noRetry
  | retry (delaySecs : ℕ)
deriving DecidableEq, Repr

/-- `scaleDelay d b n` is the float expression `(d as f64 * b.powi(n)) as u64`. -/
def retryDecision (scaleDelay : ℕ → F64 → ℕ → ℕ) (kind : ErrorKind)
    (attempts retryMax delaySecs : ℕ) (backoff : F64) : RetryDecision :=
  if kind = .configError ∨ retryMax ≤ attempts then .noRetry
  else .retry (min (scaleDelay delaySecs backoff attempts) (24 * 3600))

/-- A retry is only decided while the budget lasts. -/
theorem retryDecision_retry {scaleDelay : ℕ → F64 → ℕ → ℕ} {kind : ErrorKind}
    {attempts retryMax delaySecs d : ℕ} {backoff : F64}
    (h : retryDecision scaleDelay kind attempts retryMax delaySecs backoff = .retry d) :
    attempts < retryMax := by
  unfold retryDecision at h
  split at h
  · cases h
  · omega

inductive OnWorkerLost
  | retry | fail
deriving DecidableEq, Repr

/-- Which tool moves the data. -/
inductive ProviderConfig
  | rsync | twoStageRsync | script | docker | git | http
deriving DecidableEq, Repr

/-- The part of a job definition the run lifecycle reads. -/
structure JobSpec where
  name : String
  enabled : Bool
  provider : ProviderConfig
  retry : ℕ
  /-- `retry_delay.whole_seconds()` -/
  retryDelay : ℤ
  retryBackoff : F64
  successExitCodes : List ℤ
  onWorkerLost : OnWorkerLost
  dependsOn : List String
  maxConcurrency : ℕ
deriving DecidableEq, Repr

/-- Claimed-run lease lifetime. -/
def runLeaseSecs : ℤ := 300

/-- Worker id of the runs the standalone engine executes itself. -/
def localWorker : String := "local"

end Synora.Core
