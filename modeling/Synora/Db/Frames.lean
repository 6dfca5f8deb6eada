import Synora.Db.StoreSpec

namespace Synora.Db
open Core Table Tables

/-! ## Statements that no constraint rejects -/

/-- Rows that do not enter the unique index cannot violate it. -/
theorem RunUpdate.effect_valid {u : RunUpdate} {t : Tables} (hv : t.Valid)
    (hid : ∀ r, (u.write r).id = r.id) (hjob : ∀ r, (u.write r).jobId = r.jobId)
    (hworker : ∀ r, (u.write r).workerId = r.workerId)
    (hin : ∀ r, u.guard t r → (u.write r).status.isActive → r.status.isActive) :
    (u.effect t).2.Valid := by
  have hmem : ∀ r' ∈ update (u.guard t) u.write t.jobRuns,
      ∃ r ∈ t.jobRuns, r'.jobId = r.jobId ∧ r'.workerId = r.workerId := by
    intro r' hr'
    obtain ⟨r, hr, rfl⟩ := mem_update.mp hr'
    refine ⟨r, hr, ?_⟩
    split
    · exact ⟨hjob r, hworker r⟩
    · exact ⟨rfl, rfl⟩
  refine ⟨hv.jobNames, hv.workerIds, ?_, hv.logIds, ?_, ?_, ?_⟩
  · exact (map_key_update t.jobRuns hid).symm ▸ hv.runIds
  · intro r' hr'
    obtain ⟨r, hr, hj, -⟩ := hmem r' hr'
    exact hj ▸ hv.runJobs r hr
  · intro r' hr' w hw
    obtain ⟨r, hr, -, hwk⟩ := hmem r' hr'
    exact hv.runWorkers r hr w (hwk ▸ hw)
  · exact hv.oneActive.update hjob hin

theorem deleteRuns_valid {t : Tables} (hv : t.Valid) (job : String) :
    (deleteRuns job t).2.Valid := by
  have hsub : (t.jobRuns.filter fun r => decide (r.jobId ≠ job)).Sublist t.jobRuns :=
    List.filter_sublist
  refine ⟨hv.jobNames, hv.workerIds, hv.runIds.sublist (hsub.map _), hv.logIds, ?_, ?_, ?_⟩
  · exact fun r hr => hv.runJobs r (hsub.subset hr)
  · exact fun r hr => hv.runWorkers r (hsub.subset hr)
  · exact hv.oneActive.sublist ((hsub.filter _).map _)

theorem after_of_valid {t : Tables} {q : Stmt} (h : (q.effect t).2.Valid) :
    after t q = (q.effect t).2 := by
  simp [after, execute, h]

theorem changed_of_valid {t : Tables} {q : Stmt} (h : (q.effect t).2.Valid) :
    changed t q = (q.effect t).1 := by
  simp [changed, execute, h]

/-- An `UPDATE` that keeps owners and deactivates its rows is carried out. -/
theorem run_after_update {t : Tables} (hv : t.Valid) {u : RunStmt}
    (hworker : ∀ r, (u.update.write r).workerId = r.workerId)
    (hin : ∀ r, (u.update.write r).status.isActive = false) (id : String) :
    (after t (.updateRun u)).run id =
      (t.run id).map fun r => if u.update.guard t r then u.update.write r else r := by
  have hvalid : (u.update.effect t).2.Valid :=
    RunUpdate.effect_valid hv u.write_id u.write_jobId hworker fun r _ h => by simp [hin r] at h
  rw [after_of_valid (q := .updateRun u) hvalid]
  exact u.update.effect_run u.write_id t id

/-- A statement that takes the run out of the active statuses, whatever its row says. -/
def Stmt.Retires (id : String) : Stmt → Prop
  | .updateRun (.finishRun id' c _) => id' = id ∧ (toDb c.status).isActive = false
  | .updateRun (.setRetry id' ..) => id' = id
  | _ => False

theorem Stmt.Retires.not_active {t : Tables} (hv : t.Valid) {q : Stmt} {id : String}
    (h : q.Retires id) : ¬(after t q).Active id := by
  have key (u : RunStmt) (hworker : ∀ r, (u.update.write r).workerId = r.workerId)
      (hin : ∀ r, (u.update.write r).status.isActive = false)
      (hguard : ∀ r, r.id = id → u.update.guard t r) : ¬(after t (.updateRun u)).Active id := by
    rintro ⟨r', hr', ha⟩
    rw [run_after_update hv hworker hin] at hr'
    obtain ⟨r, hr, rfl⟩ := Option.map_eq_some_iff.mp hr'
    rw [if_pos (hguard r (run_eq_some hr).2), hin r] at ha
    cases ha
  cases q with
  | updateRun u =>
    cases u with
    | finishRun id' c now =>
      obtain ⟨rfl, hc⟩ := h
      exact key _ (fun _ => rfl) (fun _ => hc) (fun r hr => by simp [RunStmt.update, finishRun, hr])
    | setRetry id' nextRetryAt retryCount =>
      obtain rfl : id' = id := h
      exact key _ (fun _ => rfl) (fun _ => rfl) (fun r hr => by simp [RunStmt.update, setRetry, hr])
    | _ => cases h
  | _ => cases h

/-! ## Statements that activate nothing -/

/-- The statement makes no row active. -/
def Stmt.quiet : Stmt → Bool
  | .updateRun u =>
    match u with
    | .claimRun .. => false
    | .setRunStatus _ status => !(toDb status).isActive
    | .finishRun _ c _ | .finishActiveRunFenced _ _ c .. => !(toDb c.status).isActive
    | _ => true
  | .createRun _ _ _ status .. => !(toDb status).isActive
  | _ => true

/-- A row that is active after a quiet statement was active before, with the same owner. -/
theorem quiet_active {t : Tables} (hv : t.Valid) {q : Stmt} (hq : q.quiet) {id : String}
    {r' : RunRow} (h : (after t q).run id = some r') (ha : r'.status.isActive) :
    ∃ r, t.run id = some r ∧ r.status.isActive ∧ r.workerId = r'.workerId ∧
      r.jobId = r'.jobId := by
  obtain heq | ⟨u, r, rfl, hr, hg, hw, -⟩ | ⟨-, r, hr, hins⟩ | ⟨job, rfl, hnone⟩ := after_run hv q id
  · exact ⟨r', heq ▸ h, ha, rfl, rfl⟩
  · obtain rfl := Option.some.inj (hw.symm.trans h)
    refine ⟨r, hr, ?_⟩
    -- The owner changes only on queued rows, which stay queued; a status is either left active,
    -- or written by a statement whose `quiet` says that it is not.
    cases u with
    | assignQueuedRun | unassignOffline =>
      have hqueued : r.status = .queued := by
        simp only [RunStmt.update, assignQueuedRun, unassignOffline, decide_eq_true_eq] at hg
        first | exact hg.2.1 | exact hg.1
      have hactive : r.status.isActive := ha
      rw [hqueued] at hactive
      cases hactive
    | claimRun => cases hq
    | markJobRunning worker job =>
      simp only [RunStmt.update, markJobRunning, decide_eq_true_eq] at hg
      refine ⟨?_, rfl, rfl⟩
      rcases hg.2.2 with hs | hs <;> rw [hs] <;> rfl
    | setCancellingByJob job =>
      simp only [RunStmt.update, setCancellingByJob, decide_eq_true_eq] at hg
      refine ⟨?_, rfl, rfl⟩
      cases hs : r.status <;> rw [hs] at hg <;> first | rfl | cases hg.2
    | renewRunLease => exact ⟨ha, rfl, rfl⟩
    | setRunStatus _ status | finishRun _ c _ | finishActiveRunFenced _ _ c _ _ =>
      simp only [Stmt.quiet, Bool.not_eq_true'] at hq
      exact absurd (hq.symm.trans ha) Bool.false_ne_true
    | dropSupersededRuns | cancelChanged | expireRun | setRunLost | setRetry
    | setRetryFromActiveFenced | requeueRetry => cases ha
  · obtain rfl := Option.some.inj (hr.symm.trans h)
    rcases hins.source with ⟨_, _, status, _, _, rfl, hs⟩ | ⟨_, _, _, rfl, hs⟩
    · simp only [Stmt.quiet, Bool.not_eq_true'] at hq
      rw [hs, hq] at ha
      cases ha
    · rw [hs] at ha
      cases ha
  · rw [hnone] at h
    cases h

/-! ## Statements that leave an active row alone -/

/-- The statement cannot touch the active row `r`. -/
def Stmt.Spares (r : RunRow) : Stmt → Prop
  | .updateRun u =>
    match u with
    | .finishRun id .. | .setRetry id .. | .setRunStatus id _ => id ≠ r.id
    | .setCancellingByJob job => job ≠ r.jobId
    | .assignQueuedRun .. | .unassignOffline | .claimRun .. | .cancelChanged ..
    | .requeueRetry .. => True
    | _ => False
  | .deleteRuns job => job ≠ r.jobId
  | _ => True

theorem Stmt.Spares.run {t : Tables} (hv : t.Valid) {q : Stmt} {r : RunRow} (h : q.Spares r)
    (hr : t.run r.id = some r) (ha : r.status.isActive) : (after t q).run r.id = some r := by
  obtain heq | ⟨u, r', rfl, hr', hg, -, -⟩ | ⟨hnone, -⟩ | ⟨job, rfl, -⟩ := after_run hv q r.id
  · exact heq.trans hr
  · obtain rfl := Option.some.inj (hr'.symm.trans hr)
    exfalso
    cases u with
    | finishRun | setRetry | setRunStatus =>
      simp only [RunStmt.update, finishRun, setRetry, setRunStatus, decide_eq_true_eq] at hg
      exact h hg.symm
    | setCancellingByJob job =>
      simp only [RunStmt.update, setCancellingByJob, decide_eq_true_eq] at hg
      exact h hg.1.symm
    | assignQueuedRun | unassignOffline | claimRun | requeueRetry =>
      -- The guard asks for a status that is not active.
      simp only [RunStmt.update, assignQueuedRun, unassignOffline, claimRun, requeueRetry,
        decide_eq_true_eq] at hg
      first
        | rw [hg.2.1] at ha; cases ha
        | rw [hg.1] at ha; cases ha
    | cancelChanged job now =>
      simp only [RunStmt.update, cancelChanged, decide_eq_true_eq] at hg
      rcases hg.2 with hs | hs <;> rw [hs] at ha <;> cases ha
    | _ => exact h
  · rw [hnone] at hr
    cases hr
  · obtain ⟨he, -⟩ | ⟨he, -⟩ := after_eq t (.deleteRuns job)
    · rw [he]
      refine lookup_filter t.jobRuns hr ?_ hv.runIds
      simpa using Ne.symm h
    · rw [he]
      exact hr

end Synora.Db
