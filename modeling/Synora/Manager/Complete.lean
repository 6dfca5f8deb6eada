import Mathlib.Algebra.Group.Int.Defs
import Mathlib.Algebra.Group.Nat.Defs
import Synora.Db.StoreSpec

namespace Synora.Manager
open Core Db

inductive StatusCode
  | ok | badRequest | forbidden | notFound | conflict | internalServerError
deriving DecidableEq, Repr

/-- The body of a completion together with the run id of its path. -/
structure CompleteRequest where
  runId : String
  leaseToken : String
  workerId : String
  attempt : Option ℕ
  status : String
  exitCode : Option ℤ
  sizeBefore : Option ℤ
  sizeAfter : Option ℤ
  bytesTransferred : Option ℤ
  message : Option String
  log : Option String
deriving DecidableEq, Repr

/-- `value as i32` on an `i64`. -/
def asI32 (v : ℤ) : ℤ := Int.bmod v (2 ^ 32)

/-- `i64::saturating_sub`. -/
def saturatingSub (a b : ℤ) : ℤ := max (-2 ^ 63) (min (2 ^ 63 - 1) (a - b))

def isSuccessText (status : String) : Bool :=
  decide (status = "success" ∨ status = "success_with_warnings")

def processResultIsSuccess (exitCode : Option ℤ) (reportedStatus : Option String)
    (allowedNonzeroExitCodes : List ℤ) : Bool :=
  let statusOk := (reportedStatus.map isSuccessText).getD true
  let exitOk := match exitCode with
    | some 0 => true
    | some code => decide (code ∈ allowedNonzeroExitCodes)
    | none => false
  statusOk && exitOk

/-- Why a reported success is not believed; `none` when it is. -/
def reportedCompletionFailureReason (job : JobSpec) (exitCode : Option ℤ)
    (reportedStatus : Option String) : Option String :=
  let allowedNonzero := match job.provider with
    | .rsync | .twoStageRsync => job.successExitCodes
    | _ => []
  if processResultIsSuccess exitCode reportedStatus allowedNonzero then none
  else match reportedStatus.filter fun s => !isSuccessText s with
    | some status => some ("provider reported status " ++ status)
    | none =>
      match exitCode with
      | some code => some ("provider exited with " ++ toString code)
      | none => some "provider terminated without an exit code"

/-- What `complete` does after it has read the run row. -/
inductive Verdict
  | answer (code : StatusCode)
  | finish (c : Completion)
  | retry (nextRetryAt : Time) (retryCount : ℕ)
deriving DecidableEq, Repr

/-- The five status branches of `complete`, for a run of a known job. -/
def judgeStatus (scaleDelay : ℕ → F64 → ℕ → ℕ) (job : JobSpec) (run : RunRow)
    (body : CompleteRequest) (ended : Time) : Verdict :=
  let duration := saturatingSub ended (run.startedAt.getD run.createdAt)
  let completionValidationError :=
    if isSuccessText body.status then
      reportedCompletionFailureReason job (body.exitCode.map asI32) (some body.status)
    else none
  let effectiveStatus := if completionValidationError.isSome then "failed" else body.status
  let completionMessage := completionValidationError.or body.message
  -- `judge` has refused such a body already; the source checks it twice
  if ∃ attempt ∈ body.attempt, attempt ≠ run.retryCount then .answer .ok
  else match effectiveStatus with
    | "lost" => .finish ⟨.lost, none, none, none, none, completionMessage, duration⟩
    | "cancelled" => .finish ⟨.cancelled, none, none, none, none, completionMessage, duration⟩
    | "success_with_warnings" =>
      .finish ⟨.successWithWarnings, body.exitCode.map asI32, body.sizeBefore, body.sizeAfter,
        body.bytesTransferred, completionMessage, duration⟩
    | "success" =>
      .finish ⟨.success, body.exitCode.map asI32, body.sizeBefore, body.sizeAfter,
        body.bytesTransferred, completionMessage, duration⟩
    | "failed" =>
      match retryDecision scaleDelay .providerError run.retryCount job.retry
          (max job.retryDelay 1).toNat job.retryBackoff with
      | .retry delaySecs => .retry (ended + delaySecs) (run.retryCount + 1)
      | .noRetry =>
        .finish ⟨.failed, body.exitCode.map asI32, none, none, none, completionMessage, duration⟩
    | _ => .answer .badRequest

/-- The identity and generation checks of `complete`, then its status branches. -/
def judge (scaleDelay : ℕ → F64 → ℕ → ℕ) (job : Option JobSpec) (run : RunRow)
    (body : CompleteRequest) (ended : Time) : Verdict :=
  if body.workerId ≠ run.workerId.getD "" ∨ body.leaseToken = "" ∨
      run.leaseToken ≠ some body.leaseToken ∨ body.attempt ≠ some run.retryCount then
    .answer .conflict
  else match job with
    | none => .answer .notFound
    | some job => judgeStatus scaleDelay job run body ended

/-- The guarded `UPDATE` that applies a verdict. -/
def Verdict.update (body : CompleteRequest) (run : RunRow) (now : Time) :
    Verdict → Option RunStmt
  | .answer _ => none
  | .finish c => some (.finishActiveRunFenced body.runId run.retryCount c
      (some (body.workerId, body.leaseToken)) now)
  | .retry nextRetryAt retryCount => some (.setRetryFromActiveFenced body.runId run.retryCount
      nextRetryAt retryCount (some (body.workerId, body.leaseToken)) now)

/-- The counters `complete` increments. -/
inductive Counter
  | success | failures | retries | bytesTransferred | lost
deriving DecidableEq, Repr

def Verdict.counters (body : CompleteRequest) : Verdict → List Counter
  | .answer _ => []
  | .retry _ _ => [.retries]
  | .finish c =>
    match c.status with
    | .lost => [.lost]
    | .success | .successWithWarnings =>
      (if body.bytesTransferred.isSome then [.bytesTransferred] else []) ++ [.success]
    | .failed => [.failures]
    | _ => []

/-- What an applied verdict does to a row: it ends it, or moves it one attempt further. -/
def Verdict.Sound (run : RunRow) : Verdict → Prop
  | .answer _ => True
  | .finish c => (toDb c.status).isTerminal
  | .retry _ retryCount => retryCount = run.retryCount + 1

theorem judgeStatus_sound (scaleDelay : ℕ → F64 → ℕ → ℕ) (job : JobSpec) (run : RunRow)
    (body : CompleteRequest) (ended : Time) :
    (judgeStatus scaleDelay job run body ended).Sound run := by
  unfold judgeStatus
  dsimp only
  split
  · trivial
  split
  · rfl
  · rfl
  · rfl
  · rfl
  · split <;> rfl
  · trivial

theorem judge_sound (scaleDelay : ℕ → F64 → ℕ → ℕ) (job : Option JobSpec) (run : RunRow)
    (body : CompleteRequest) (ended : Time) :
    (judge scaleDelay job run body ended).Sound run := by
  unfold judge
  split
  · trivial
  cases job with
  | none => trivial
  | some job => exact judgeStatus_sound scaleDelay job run body ended

theorem Verdict.counters_nodup (body : CompleteRequest) (v : Verdict) :
    (v.counters body).Nodup := by
  cases v with
  | answer code => exact List.nodup_nil
  | retry nextRetryAt retryCount => exact List.nodup_singleton _
  | finish c =>
    simp only [counters]
    split <;> first | (split <;> decide) | decide

end Synora.Manager
