import Synora.Cluster.System
import Synora.Engine.Outcome

namespace Synora.Cluster
open Core Db Engine Manager Storage

/-! ## The report of an outcome -/

/-- What `outcome_to_complete` reads off the outcome of a run. -/
def reportOf (m : Measures) (ctx : Option RunStorageCtx) (job : JobSpec) (spec : MirrorSpec)
    (log : Option String) (o : RunOutcome) : Outcome :=
  match o.result with
  | .ok r =>
    let validationError := syncResultFailureReason job r
    { ending := if validationError.isNone then
        if r.status = some "success_with_warnings" then .successWithWarnings else .success
        else .failed
      exitCode := r.exitCode.map Int32.toInt
      sizeAfter := sizeAfter m spec.statistics (localStorage ctx spec) r.sizeHint
      bytesTransferred := r.bytesTransferred.map asI64
      message := validationError.or r.message
      log }
  | .error e =>
    { ending := if e = .cancelled then .cancelled else .failed
      exitCode := none
      sizeAfter := none
      bytesTransferred := none
      message := some e.toString
      log }

/-- The request of `outcome_to_complete`, under the token of the assignment. -/
def completeRequest (workerId runId leaseToken : String) (attempt : ℕ) (o : Outcome) :
    CompleteRequest where
  runId := runId
  leaseToken := leaseToken
  workerId := workerId
  attempt := some attempt
  status := o.ending.status
  exitCode := o.exitCode
  sizeBefore := none
  sizeAfter := if o.ending = .success ∨ o.ending = .successWithWarnings then o.sizeAfter else none
  bytesTransferred := o.bytesTransferred
  message := o.message
  log := o.log

/-- A task that the watchdog has not stopped sends this request. -/
theorem outcomeToComplete_of_not_timedOut {w : Worker} {task : Task} (o : Outcome)
    (h : task.cancel ∉ w.timedOut) :
    outcomeToComplete w task o =
      completeRequest w.id task.runId task.leaseToken task.attempt o := by
  simp [outcomeToComplete, completeRequest, h]

/-! ## The columns in question -/

/-- What a tail leaves in the row; the delay of a retry is counted from the end of the run. -/
structure Columns where
  status : DbStatus
  retryCount : ℕ
  delay : Option ℤ
  exitCode : Option ℤ
  sizeAfter : Option ℤ
  bytesTransferred : Option ℤ
deriving DecidableEq, Repr

def columns (ended : Time) (r : RunRow) : Columns where
  status := r.status
  retryCount := r.retryCount
  delay := if r.status = .retrying then r.nextRetryAt.map fun n => n - ended else none
  exitCode := r.exitCode
  sizeAfter := r.sizeAfter
  bytesTransferred := r.bytesTransferred

/-- A run that has ended with this completion. -/
def endedColumns (r : RunRow) (c : Completion) : Columns :=
  ⟨toDb c.status, r.retryCount, none, c.exitCode, c.sizeAfter, c.bytesTransferred⟩

/-- A run that is to be tried again after `d` seconds. -/
def retryColumns (r : RunRow) (d : ℕ) : Columns :=
  ⟨.retrying, r.retryCount + 1, some d, r.exitCode, r.sizeAfter, r.bytesTransferred⟩

theorem delay_eq (ended : ℤ) (d : ℕ) : ended + d - ended = d := by omega

theorem columns_write (c : Completion) (hc : toDb c.status ≠ .retrying) (now ended : Time)
    (r : RunRow) : columns ended (c.write now r) = endedColumns r c := by
  simp [columns, endedColumns, Completion.write, hc]

/-! ## The standalone tail -/

section
variable (scaleDelay : ℕ → F64 → ℕ → ℕ)

/-- An `UPDATE` of the row alone, and then the status of its job. -/
theorem run_after_pair {t : Tables} (hv : t.Valid) {u : RunStmt} {q : Stmt} {id : String}
    {r : RunRow} (hr : t.run id = some r) (hg : u.update.guard t r)
    (hworker : ∀ r, (u.update.write r).workerId = r.workerId)
    (hin : ∀ r, (u.update.write r).status.isActive = false) (hq : q.writesRuns = false) :
    (afterAll t [.updateRun u, q]).run id = some (u.update.write r) := by
  have hrow := run_after_update hv hworker hin id
  rw [hr, Option.map_some, if_pos hg] at hrow
  rw [afterAll_cons, afterAll_cons, afterAll_nil,
    run_after_of_not_writesRuns (after_valid hv _) hq, hrow]

theorem run_after_finishRunStmts {t : Tables} (hv : t.Valid) {id : String} {r : RunRow}
    (hr : t.run id = some r) (c : Completion) (hc : (toDb c.status).isActive = false)
    (now : Time) :
    (afterAll t (Standalone.finishRunStmts id c now)).run id = some (c.write now r) := by
  have hid := (Tables.run_eq_some hr).2
  exact run_after_pair (u := .finishRun id c now) hv hr (by simpa [RunStmt.update, finishRun])
    (fun _ => rfl) (fun _ => hc) rfl

/-- What the standalone tail makes of an outcome. -/
def tailColumns (scaleDelay : ℕ → F64 → ℕ → ℕ) (job : JobSpec) (r : RunRow) :
    Standalone.Outcome → Columns
  | .cancelled => ⟨.cancelled, r.retryCount, none, none, none, none⟩
  | .succeeded warnings exitCode sizeAfter bytesTransferred _ =>
    ⟨if warnings then .successWithWarnings else .success, r.retryCount, none, exitCode, sizeAfter,
      bytesTransferred⟩
  | .failed kind exitCode _ =>
    match retryDecision scaleDelay kind r.retryCount job.retry (max job.retryDelay 1).toNat
        job.retryBackoff with
    | .retry delaySecs => retryColumns r delaySecs
    | .noRetry => ⟨.failed, r.retryCount, none, exitCode, none, none⟩

theorem standalone_columns {t : Tables} (hv : t.Valid) {id : String} {r : RunRow}
    (hr : t.run id = some r) (job : JobSpec) (o : Standalone.Outcome) (durationSecs : ℤ)
    (ended : Time) :
    ∃ r₁, (afterAll t (Standalone.finishStmts scaleDelay id job r.retryCount o durationSecs
        ended)).run id = some r₁ ∧ columns ended r₁ = tailColumns scaleDelay job r o := by
  have hfinish (c : Completion) (hc : (toDb c.status).isActive = false)
      (hret : toDb c.status ≠ .retrying) :
      ∃ r₁, (afterAll t (Standalone.finishRunStmts id c ended)).run id = some r₁ ∧
        columns ended r₁ = endedColumns r c :=
    ⟨_, run_after_finishRunStmts hv hr c hc ended, columns_write c hret ended ended r⟩
  cases o with
  | cancelled => exact hfinish _ rfl (by simp [toDb])
  | succeeded warnings exitCode sizeAfter bytesTransferred message =>
    cases warnings
    · exact hfinish _ rfl (by simp [toDb])
    · exact hfinish _ rfl (by simp [toDb])
  | failed kind exitCode message =>
    cases hd : retryDecision scaleDelay kind r.retryCount job.retry (max job.retryDelay 1).toNat
        job.retryBackoff with
    | retry delaySecs =>
      simp only [Standalone.finishStmts, tailColumns, hd]
      have hid := (Tables.run_eq_some hr).2
      have hfirst := run_after_pair (u := .setRetry id (ended + delaySecs) (r.retryCount + 1))
        (q := .setJobStatusForRun id) hv hr (by simpa [RunStmt.update, setRetry])
        (fun _ => rfl) (fun _ => rfl) rfl
      have hsecond := run_after_pair (u := .setRunStatus id .retrying)
        (q := .setJobStatus job.name .retrying) (afterAll_valid hv _) hfirst
        (by simpa [RunStmt.update, setRunStatus, setRetry]) (fun _ => rfl) (fun _ => rfl) rfl
      refine ⟨_, by rw [afterAll_append]; exact hsecond, ?_⟩
      simp [columns, retryColumns, RunStmt.update, setRunStatus, setRetry, toDb, delay_eq]
    | noRetry =>
      simp only [Standalone.finishStmts, tailColumns, hd]
      exact hfinish ⟨.failed, exitCode, none, none, none, some message, durationSecs⟩ rfl
        (by simp [toDb])

/-! ## The tail through the manager -/

/-- The steps of `complete` up to its guarded `UPDATE`, with nothing in between. -/
def served (scaleDelay : ℕ → F64 → ℕ → ℕ) (s : State) (body : CompleteRequest)
    (ended now : Time) : Option State :=
  Runs.exec (Manager.step scaleDelay) s [.request body, .load s.handlers.length,
    .decide s.handlers.length ended, .update s.handlers.length now]

/-- The fence of a request: it is the owner's, and the lease is live. -/
structure Owns (r : RunRow) (worker token : String) (now : Time) : Prop where
  named : worker ≠ "" ∧ token ≠ ""
  worker : r.workerId = some worker
  token : r.leaseToken = some token
  live : leaseLive now r
  active : r.status.isActive

theorem served_eq {s : State} {body : CompleteRequest} {r : RunRow} {ended now : Time}
    {u : RunStmt} (hr : s.db.run body.runId = some r) {v : Verdict}
    (hv : judge scaleDelay (s.job r.jobId) r body ended = v) (hu : v.update body r now = some u)
    (hc : 0 < changed s.db (.updateRun u)) :
    ∃ s', served scaleDelay s body ended now = some s' ∧ s'.db = after s.db (.updateRun u) := by
  -- The handler of this request is the last one, and it goes through three phases.
  let at_ (phase : Phase) : State := { s with handlers := s.handlers ++ [⟨body, phase⟩] }
  have hrequest : Manager.step scaleDelay s (.request body) = some (at_ .received) := rfl
  have hload : Manager.step scaleDelay (at_ .received) (.load s.handlers.length) =
      some (at_ (.loaded r)) := by
    simp [Manager.step, Action.slot, completeStep, at_, hr, State.setPhase]
  have hdecide : Manager.step scaleDelay (at_ (.loaded r)) (.decide s.handlers.length ended) =
      some (at_ (.decided r v)) := by
    have hv' : judge scaleDelay ((at_ (.loaded r)).job r.jobId) r body ended = v := hv
    cases v with
    | answer code => cases hu
    | _ =>
      simp only [at_] at hv'
      simp [Manager.step, Action.slot, completeStep, at_, State.setPhase, hv']
  have hupdate : Manager.step scaleDelay (at_ (.decided r v)) (.update s.handlers.length now) =
      some { at_ (.won r v) with db := after s.db (.updateRun u) } := by
    simp [Manager.step, Action.slot, completeStep, at_, State.setPhase, hu, hc]
  refine ⟨{ at_ (.won r v) with db := after s.db (.updateRun u) }, ?_, rfl⟩
  simp only [served, Runs.exec_cons, hrequest, Option.bind_some, hload, hdecide, hupdate,
    Runs.exec_nil]

/-- What a verdict makes of the row. -/
def verdictColumns (ended : Time) (r : RunRow) : Verdict → Columns
  | .answer _ => columns ended r
  | .finish c => endedColumns r c
  | .retry nextRetryAt retryCount =>
    ⟨.retrying, retryCount, some (nextRetryAt - ended), r.exitCode, r.sizeAfter,
      r.bytesTransferred⟩

theorem served_columns {s : State} (hvalid : s.db.Valid) (body : CompleteRequest) {r : RunRow}
    {ended now : Time} (hr : s.db.run body.runId = some r)
    (hown : Owns r body.workerId body.leaseToken now) {v : Verdict}
    (hv : judge scaleDelay (s.job r.jobId) r body ended = v) (hne : ∀ code, v ≠ .answer code) :
    ∃ s' r₁, served scaleDelay s body ended now = some s' ∧ s'.db.run body.runId = some r₁ ∧
      columns ended r₁ = verdictColumns ended r v := by
  have hid := (Tables.run_eq_some hr).2
  have hfence : fenceOk (some (body.workerId, body.leaseToken)) now r :=
    Or.inr ⟨hown.worker, hown.token, hown.live⟩
  have happly (u : RunStmt) (hu : v.update body r now = some u) (hg : u.update.guard s.db r)
      (hworker : ∀ r, (u.update.write r).workerId = r.workerId)
      (hin : ∀ r, (u.update.write r).status.isActive = false) :
      ∃ s', served scaleDelay s body ended now = some s' ∧
        s'.db.run body.runId = some (u.update.write r) := by
    have heffect : (u.update.effect s.db).2.Valid :=
      RunUpdate.effect_valid hvalid u.write_id u.write_jobId hworker fun r _ h => by simp [hin r] at h
    have hc : 0 < changed s.db (.updateRun u) := by
      rw [changed_of_valid (q := .updateRun u) heffect]
      exact Table.matched_pos.mpr ⟨r, (Tables.run_eq_some hr).1, hg⟩
    obtain ⟨s', hs', hdb⟩ := served_eq scaleDelay hr hv hu hc
    refine ⟨s', hs', ?_⟩
    rw [hdb, run_after_update hvalid hworker hin, hr, Option.map_some, if_pos hg]
  have hsound := hv ▸ judge_sound scaleDelay (s.job r.jobId) r body ended
  cases v with
  | answer code => exact absurd rfl (hne code)
  | finish c =>
    have hterm : (toDb c.status).isTerminal := hsound
    have hactive : ¬(toDb c.status).isActive := by
      simpa using DbStatus.not_active_of_terminal hterm
    obtain ⟨s', hs', hrow⟩ := happly _ rfl
      (by simp [RunStmt.update, finishActiveRunFenced, hid, hfence, hown.active])
      (fun _ => rfl) (fun _ => Bool.eq_false_iff.mpr hactive)
    refine ⟨s', _, hs', hrow, columns_write c ?_ now ended r⟩
    intro hret
    simp [hret, DbStatus.isTerminal] at hterm
  | retry nextRetryAt retryCount =>
    obtain ⟨s', hs', hrow⟩ := happly _ rfl
      (by simp [RunStmt.update, setRetryFromActiveFenced, hid, hfence, hown.active])
      (fun _ => rfl) (fun _ => rfl)
    exact ⟨s', _, hs', hrow, rfl⟩

/-- The report in the terms of the standalone tail: every error is a provider error, and the
size is that of the resolved path. -/
def reportTail (m : Measures) (ctx : Option RunStorageCtx) (job : JobSpec) (spec : MirrorSpec)
    (o : RunOutcome) : Standalone.Outcome :=
  match o.result with
  | .error .cancelled => .cancelled
  | .error e => .failed .providerError none e.toString
  | .ok r =>
    match syncResultFailureReason job r with
    | none => .succeeded (decide (r.status = some "success_with_warnings"))
        (r.exitCode.map Int32.toInt)
        (sizeAfter m spec.statistics (localStorage ctx spec) r.sizeHint)
        (r.bytesTransferred.map asI64) r.message
    | some reason => .failed .providerError (r.exitCode.map Int32.toInt) reason

/-- The exit codes a success of the job may have, besides `0`. -/
def allowedNonzero (job : JobSpec) : List ℤ :=
  match job.provider with
  | .rsync | .twoStageRsync => job.successExitCodes
  | _ => []

theorem failureReason_eq_none_iff {job : JobSpec} {exitCode : Option ℤ} {status : Option String} :
    reportedCompletionFailureReason job exitCode status = none ↔
      processResultIsSuccess exitCode status (allowedNonzero job) := by
  change (if processResultIsSuccess exitCode status (allowedNonzero job) then none else _) = none ↔ _
  split
  · rename_i hok
    simp [hok]
  · rename_i hbad
    simp only [hbad, iff_false, Bool.false_eq_true]
    split
    · simp
    · split <;> simp

/-- A result that was believed is believed again under the status it is reported with. -/
theorem failureReason_of_reported {job : JobSpec} {exitCode : Option ℤ} {status : Option String}
    {text : String} (ht : isSuccessText text)
    (h : reportedCompletionFailureReason job exitCode status = none) :
    reportedCompletionFailureReason job exitCode (some text) = none := by
  rw [failureReason_eq_none_iff] at h ⊢
  simp only [processResultIsSuccess, Bool.and_eq_true, Option.map_some, Option.getD_some] at h ⊢
  exact ⟨ht, h.2⟩

/-- `i32` to `i64` and back. -/
theorem asI32_comp_toInt : asI32 ∘ Int32.toInt = Int32.toInt := by
  funext code
  exact code.toInt_bmod

/-- The two success branches of `complete`. -/
theorem judgeStatus_success (job : JobSpec) {r : RunRow} {body : CompleteRequest} (ended : Time)
    (hs : body.status = "success" ∨ body.status = "success_with_warnings")
    (ha : body.attempt = some r.retryCount)
    (hnone : reportedCompletionFailureReason job (body.exitCode.map asI32) (some body.status) =
      none) :
    ∃ msg dur, judgeStatus scaleDelay job r body ended = .finish
      ⟨if body.status = "success_with_warnings" then .successWithWarnings else .success,
        body.exitCode.map asI32, body.sizeBefore, body.sizeAfter, body.bytesTransferred, msg,
        dur⟩ := by
  rcases hs with hs | hs <;> rw [hs] at hnone <;>
    simp [judgeStatus, hs, ha, isSuccessText, hnone]

/-- The branches of `complete` for a request of `outcome_to_complete`. -/
theorem judge_completeRequest (job : JobSpec) {r : RunRow} {worker token : String} (id : String)
    {now : Time}
    (hown : Owns r worker token now) (o : Outcome) (ended : Time)
    (hvalid : o.ending = .success ∨ o.ending = .successWithWarnings →
      reportedCompletionFailureReason job (o.exitCode.map asI32) (some o.ending.status) = none) :
    let v := judge scaleDelay (some job) r (completeRequest worker id token r.retryCount o) ended
    (∀ code, v ≠ .answer code) ∧ verdictColumns ended r v = tailColumns scaleDelay job r
      (match o.ending with
      | .cancelled => .cancelled
      | .failed => .failed .providerError (o.exitCode.map asI32) ""
      | .success => .succeeded false (o.exitCode.map asI32) o.sizeAfter o.bytesTransferred none
      | .successWithWarnings =>
        .succeeded true (o.exitCode.map asI32) o.sizeAfter o.bytesTransferred none) := by
  intro v
  have hv : v = judgeStatus scaleDelay job r (completeRequest worker id token r.retryCount o)
      ended := by
    simp [v, judge, completeRequest, hown.worker, hown.token, hown.named.2]
  cases hend : o.ending with
  | cancelled =>
    have hfinish : ∃ msg d, v = .finish ⟨.cancelled, none, none, none, none, msg, d⟩ := by
      simp [hv, judgeStatus, completeRequest, hend, Ending.status, isSuccessText]
    obtain ⟨msg, d, hv⟩ := hfinish
    rw [hv]
    exact ⟨by simp, rfl⟩
  | failed =>
    cases hd : retryDecision scaleDelay .providerError r.retryCount job.retry
        (max job.retryDelay 1).toNat job.retryBackoff with
    | retry d =>
      have hretry : v = .retry (ended + d) (r.retryCount + 1) := by
        simp [hv, judgeStatus, completeRequest, hend, Ending.status, isSuccessText, hd]
      rw [hretry]
      simp [verdictColumns, tailColumns, hd, retryColumns, delay_eq]
    | noRetry =>
      have hfinish : ∃ msg dur, v = .finish ⟨.failed, o.exitCode.map asI32, none, none, none, msg,
          dur⟩ := by
        simp [hv, judgeStatus, completeRequest, hend, Ending.status, isSuccessText, hd]
      obtain ⟨msg, dur, hv⟩ := hfinish
      rw [hv]
      simp [verdictColumns, tailColumns, hd, endedColumns, toDb]
  | success =>
    have hstatus : (completeRequest worker id token r.retryCount o).status = "success" := by
      simp [completeRequest, hend, Ending.status]
    obtain ⟨msg, dur, hfinish⟩ := judgeStatus_success scaleDelay job (r := r) ended
      (Or.inl hstatus) rfl (hvalid (Or.inl hend))
    rw [hv, hfinish]
    simp [completeRequest, hend, Ending.status, verdictColumns, endedColumns, tailColumns, toDb]
  | successWithWarnings =>
    have hstatus : (completeRequest worker id token r.retryCount o).status =
        "success_with_warnings" := by simp [completeRequest, hend, Ending.status]
    obtain ⟨msg, dur, hfinish⟩ := judgeStatus_success scaleDelay job (r := r) ended
      (Or.inr hstatus) rfl (hvalid (Or.inr hend))
    rw [hv, hfinish]
    simp [completeRequest, hend, Ending.status, verdictColumns, endedColumns, tailColumns, toDb]

/-- What the manager makes of a report. -/
theorem judge_columns (m : Measures) (ctx : Option RunStorageCtx) (job : JobSpec)
    (spec : MirrorSpec) (log : Option String) (o : RunOutcome) {r : RunRow}
    {worker token : String} (id : String) {now : Time} (hown : Owns r worker token now)
    (ended : Time) :
    let v := judge scaleDelay (some job) r
      (completeRequest worker id token r.retryCount (reportOf m ctx job spec log o)) ended
    (∀ code, v ≠ .answer code) ∧
      verdictColumns ended r v = tailColumns scaleDelay job r (reportTail m ctx job spec o) := by
  have hbranch := judge_completeRequest scaleDelay job id hown
    (reportOf m ctx job spec log o) ended
  cases hres : o.result with
  | error e =>
    by_cases hc : e = .cancelled
    · subst hc
      obtain ⟨hne, hcol⟩ := hbranch (by simp [reportOf, hres])
      refine ⟨hne, hcol.trans ?_⟩
      simp [reportOf, reportTail, hres]
    · obtain ⟨hne, hcol⟩ := hbranch (by simp [reportOf, hres, hc])
      refine ⟨hne, hcol.trans ?_⟩
      simp [reportOf, reportTail, hres, hc, tailColumns]
  | ok res =>
    cases hreason : syncResultFailureReason job res with
    | none =>
      obtain ⟨hne, hcol⟩ := hbranch (fun hend => by
        have htext : isSuccessText (reportOf m ctx job spec log o).ending.status := by
          rcases hend with hend | hend <;> simp [hend, Ending.status, isSuccessText]
        have hexit : (reportOf m ctx job spec log o).exitCode = res.exitCode.map Int32.toInt := by
          simp [reportOf, hres]
        rw [hexit, Option.map_map, asI32_comp_toInt]
        exact failureReason_of_reported htext hreason)
      refine ⟨hne, hcol.trans ?_⟩
      by_cases hw : res.status = some "success_with_warnings"
      · simp [reportOf, reportTail, hres, hreason, hw, tailColumns, asI32_comp_toInt]
      · simp [reportOf, reportTail, hres, hreason, hw, tailColumns, asI32_comp_toInt]
    | some reason =>
      obtain ⟨hne, hcol⟩ := hbranch (by simp [reportOf, hres, hreason])
      refine ⟨hne, hcol.trans ?_⟩
      simp [reportOf, reportTail, hres, hreason, tailColumns, asI32_comp_toInt]

/-! ## The two tails side by side -/

/-- No attempt is left for a failure that must not be retried, and a size that has to be measured
is the same at the configured and at the resolved path. -/
def SameInBothModes (m : Measures) (ctx : Option RunStorageCtx) (job : JobSpec)
    (spec : MirrorSpec) (o : RunOutcome) (retryCount : ℕ) : Prop :=
  (∀ e, o.result = .error e → e.kind = .configError → job.retry ≤ retryCount) ∧
    ∀ res, o.successful job = some res → res.sizeHint = none →
      measured m spec.statistics spec.storage =
        measured m spec.statistics (localStorage ctx spec)

theorem retryDecision_kind_iff {kind : ErrorKind} {attempts retryMax : ℕ} (delaySecs : ℕ)
    (backoff : F64) :
    retryDecision scaleDelay kind attempts retryMax delaySecs backoff =
        retryDecision scaleDelay .providerError attempts retryMax delaySecs backoff ↔
      (kind = .configError → retryMax ≤ attempts) := by
  unfold retryDecision
  by_cases hmax : retryMax ≤ attempts
  · simp [hmax]
  · by_cases hkind : kind = .configError
    · simp [hkind, hmax]
    · simp [hkind, hmax]

/-- What the two tails make of one failure. -/
theorem failed_columns_iff {job : JobSpec} {r : RunRow} {kind : ErrorKind} {exitCode : Option ℤ}
    {msg msg' : String} :
    tailColumns scaleDelay job r (.failed kind exitCode msg) =
        tailColumns scaleDelay job r (.failed .providerError exitCode msg') ↔
      (kind = .configError → job.retry ≤ r.retryCount) := by
  rw [← retryDecision_kind_iff scaleDelay (max job.retryDelay 1).toNat job.retryBackoff]
  cases hd : retryDecision scaleDelay kind r.retryCount job.retry (max job.retryDelay 1).toNat
      job.retryBackoff <;>
    cases hd' : retryDecision scaleDelay .providerError r.retryCount job.retry
      (max job.retryDelay 1).toNat job.retryBackoff <;>
    simp [tailColumns, hd, hd', retryColumns, Int.ofNat_inj]

/-- The two tails store the same columns exactly under this condition. -/
theorem tailColumns_eq_iff (m : Measures) (ctx : Option RunStorageCtx) (job : JobSpec)
    (spec : MirrorSpec) (o : RunOutcome) (r : RunRow) :
    tailColumns scaleDelay job r (o.tail m job spec) =
        tailColumns scaleDelay job r (reportTail m ctx job spec o) ↔
      SameInBothModes m ctx job spec o r.retryCount := by
  cases hres : o.result with
  | error e =>
    have hsucc : o.successful job = none := by simp [RunOutcome.successful, hres]
    by_cases hc : e = .cancelled
    · subst hc
      simp [RunOutcome.tail, reportTail, SameInBothModes, hres, hsucc, ProviderError.kind]
    · have htail : o.tail m job spec = .failed e.kind none e.toString := by
        simp [RunOutcome.tail, hres]
      have hreport : reportTail m ctx job spec o = .failed .providerError none e.toString := by
        simp [reportTail, hres]
      rw [htail, hreport, failed_columns_iff scaleDelay]
      simp [SameInBothModes, hres, hsucc]
  | ok res =>
    cases hreason : syncResultFailureReason job res with
    | none =>
      have hsucc : o.successful job = some res := by simp [RunOutcome.successful, hres, hreason]
      simp [RunOutcome.tail, reportTail, SameInBothModes, hres, hreason, hsucc, tailColumns,
        sizeAfter_eq_iff]
    | some reason =>
      have hsucc : o.successful job = none := by simp [RunOutcome.successful, hres, hreason]
      simp [RunOutcome.tail, reportTail, SameInBothModes, hres, hreason, hsucc]

end

/-- One attempt of a run in both modes: a row of the standalone database, and a row of the
manager's whose worker holds the lease when its completion arrives. -/
structure TwinRuns (job : JobSpec) where
  standalone : Tables
  manager : State
  id : String
  worker : String
  token : String
  row : RunRow
  row' : RunRow
  ended : Time
  ended' : Time
  now : Time
  valid : standalone.Valid
  valid' : manager.db.Valid
  stored : standalone.run id = some row
  stored' : manager.db.run id = some row'
  known : manager.job row'.jobId = some job
  owned : Owns row' worker token now
  sameCount : row'.retryCount = row.retryCount
  sameExit : row'.exitCode = row.exitCode
  sameSize : row'.sizeAfter = row.sizeAfter
  sameBytes : row'.bytesTransferred = row.bytesTransferred

/-- Status, attempt, delay, exit code, size and traffic are the same after `finish_run`, and after
`outcome_to_complete` and `complete`. -/
def TwinRuns.Agree {job : JobSpec} (run : TwinRuns job) (scaleDelay : ℕ → F64 → ℕ → ℕ)
    (m : Measures) (ctx : Option RunStorageCtx) (spec : MirrorSpec) (log : Option String)
    (o : RunOutcome) : Prop :=
  ∃ r r' s,
    (afterAll run.standalone (Standalone.finishStmts scaleDelay run.id job run.row.retryCount
      (o.tail m job spec) o.durationSecs run.ended)).run run.id = some r ∧
    served scaleDelay run.manager (completeRequest run.worker run.id run.token run.row'.retryCount
      (reportOf m ctx job spec log o)) run.ended' run.now = some s ∧
    s.db.run run.id = some r' ∧ columns run.ended r = columns run.ended' r'

/-- The two tails agree exactly if no attempt is left for a failure that must not be retried, and
a size that has to be measured is the same at both paths. -/
theorem modes_agree_iff (scaleDelay : ℕ → F64 → ℕ → ℕ) (m : Measures)
    (ctx : Option RunStorageCtx) (job : JobSpec) (run : TwinRuns job) (spec : MirrorSpec)
    (log : Option String) (o : RunOutcome) :
    run.Agree scaleDelay m ctx spec log o ↔
      SameInBothModes m ctx job spec o run.row.retryCount := by
  obtain ⟨r, hr, hcol⟩ := standalone_columns scaleDelay run.valid run.stored job
    (o.tail m job spec) o.durationSecs run.ended
  obtain ⟨hne, hverdict⟩ := judge_columns scaleDelay m ctx job spec log o run.id run.owned
    run.ended'
  obtain ⟨s, r', hs, hr', hcol'⟩ := served_columns scaleDelay run.valid'
    (completeRequest run.worker run.id run.token run.row'.retryCount
      (reportOf m ctx job spec log o)) run.stored' run.owned (by rw [run.known]) hne
  have hstart (out : Standalone.Outcome) :
      tailColumns scaleDelay job run.row' out = tailColumns scaleDelay job run.row out := by
    cases out <;> simp [tailColumns, retryColumns, run.sameCount, run.sameExit, run.sameSize,
      run.sameBytes]
  rw [← tailColumns_eq_iff scaleDelay, ← hstart (reportTail m ctx job spec o),
    ← hverdict, ← hcol, ← hcol']
  constructor
  · rintro ⟨x, x', s₁, hx, hs₁, hx', heq⟩
    obtain rfl : x = r := Option.some.inj (hx.symm.trans hr)
    obtain rfl : s₁ = s := Option.some.inj (hs₁.symm.trans hs)
    obtain rfl : x' = r' := Option.some.inj (hx'.symm.trans hr')
    exact heq
  · intro heq
    exact ⟨r, r', s, hr, hs, hr', heq⟩

/-- The run `r` of `j` is claimed by this worker. -/
def claimedBy (worker : String) : Tables :=
  afterAll .empty [.upsertWorker worker, .syncJob "j", .createRun "r" "j" none .queued 0 90,
    .updateRun (.claimRun "r" worker "t" 100)]

/-- The first attempt of a job with one retry. -/
def firstAttempt : TwinRuns ⟨"j", true, .rsync, 1, 5, 0, [], .retry, [], 1⟩ where
  standalone := claimedBy localWorker
  manager := { State.init [⟨"j", true, .rsync, 1, 5, 0, [], .retry, [], 1⟩] with
    db := claimedBy "w" }
  id := "r"
  worker := "w"
  token := "t"
  row := _
  row' := _
  ended := 150
  ended' := 160
  now := 160
  valid := afterAll_valid Tables.empty_valid _
  valid' := afterAll_valid Tables.empty_valid _
  stored := rfl
  stored' := rfl
  known := rfl
  owned := ⟨by decide, rfl, rfl, ⟨400, rfl, by decide⟩, rfl⟩
  sameCount := rfl
  sameExit := rfl
  sameSize := rfl
  sameBytes := rfl

def plainMirror : MirrorSpec :=
  ⟨"j".toList, Mirror.Path.ofText "/srv/j".toList, none, .provider, .never⟩

/-- A provider that cannot be configured fails for good on its own, and is tried again by the
manager. -/
theorem config_error_retried_by_manager :
    ¬firstAttempt.Agree (fun d _ _ => d) ⟨fun _ => none, fun _ => 0⟩ none plainMirror none
      ⟨.error (.config "no url"), 3⟩ := by
  rintro ⟨r, r', s, hr, hs, hr', heq⟩
  have hfailed : ((afterAll firstAttempt.standalone (Standalone.finishStmts (fun d _ _ => d) "r"
      ⟨"j", true, .rsync, 1, 5, 0, [], .retry, [], 1⟩ 0
      (.failed .configError none (ProviderError.toString (.config "no url"))) 3 150)).run "r").any
        (fun r => decide (r.status = .failed)) = true := by decide +kernel
  have hretrying : (served (fun d _ _ => d) firstAttempt.manager
      (completeRequest "w" "r" "t" 0 ⟨.failed, none, none, none,
        some (ProviderError.toString (.config "no url")), none⟩) 160 160).any (fun s =>
        (s.db.run "r").any fun r => decide (r.status = .retrying)) = true := by decide +kernel
  obtain ⟨x, hx, hxs⟩ := (Option.any_eq_true _ _).mp hfailed
  obtain ⟨u, hu, hrow⟩ := (Option.any_eq_true _ _).mp hretrying
  obtain ⟨x', hx', hxs'⟩ := (Option.any_eq_true _ _).mp hrow
  obtain rfl : x = r := Option.some.inj (hx.symm.trans hr)
  obtain rfl : u = s := Option.some.inj (hu.symm.trans hs)
  obtain rfl : x' = r' := Option.some.inj (hx'.symm.trans hr')
  have hstatus : x.status = x'.status := congrArg Columns.status heq
  rw [of_decide_eq_true hxs, of_decide_eq_true hxs'] at hstatus
  cases hstatus

end Synora.Cluster
