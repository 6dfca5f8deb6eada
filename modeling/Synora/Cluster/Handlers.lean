import Synora.Cluster.System
import Synora.Db.SingleActive

namespace Synora.Cluster
open Core Db Manager

/-! ## The handlers of `heartbeat` and `claim`, one store operation at a time -/

/-- `touch_heartbeat`, as far as the status goes. -/
def touchHeartbeat (t : Tables) (worker : String) : Tables :=
  if workerIs t worker .offline then after t (.setWorkerStatus worker .online) else t

/-- The answer to a heartbeat, from the tables as they stand after its renewals. -/
def heartbeatResponse (m : State) (worker : String) (activeRuns : List (String × String))
    (valid : List String) : Response :=
  let invalid := (activeRuns.map Prod.fst).filter fun id => !decide (id ∈ valid)
  let offers := if workerIs m.db worker .online then
      ((assignedRuns m.db worker).take 32).filter fun r => (m.job r.jobId).isSome
    else []
  let stop := ((cancellingRunsOf m.db worker).head?.map RunRow.id).toList
  .heartbeat (invalid ++ stop) (offers.map RunRow.id)

/-- The tables after a successful `claim_run`: the row is taken and the job set to `SYNCING`. -/
def afterClaim (t : Tables) (runId worker token job : String) (now : Time) : Tables :=
  after (after t (claim runId worker token now)) (.setJobStatus job .syncing)

/-- `claim` up to its `UPDATE`: the answer that ends it early, or none. -/
def takeRun (m : State) (worker runId token : String) (now : Time) : State × Option Response :=
  match m.db.run runId with
  | none => (m, some .rejected)
  | some queued =>
    if (m.job queued.jobId).isNone then (m, some .rejected)
    else if !(activeRunsOfJob m.db queued.jobId).isEmpty then (m, some (.claim none))
    else if changed m.db (claim runId worker token now) = 0 then (m, some (.claim none))
    else ({ m with db := afterClaim m.db runId worker token queued.jobId now }, none)

/-- The rest of `claim`, once the run has been taken. -/
def claimResponse (m : State) (runId : String) : Response :=
  match m.db.run runId with
  | none => .rejected
  | some run =>
    if (m.job run.jobId).isNone then .rejected
    else .claim (some ⟨runId, run.leaseToken.getD "", run.retryCount, run.jobId⟩)

theorem touchHeartbeat_valid {t : Tables} (hv : t.Valid) (worker : String) :
    (touchHeartbeat t worker).Valid := by
  unfold touchHeartbeat
  split
  · exact after_valid hv _
  · exact hv

/-- Without interference a heartbeat is its renewals and then its answer. -/
theorem serveHeartbeat_eq (m : State) (worker : String) (activeRuns : List (String × String))
    (now : Time) :
    serveHeartbeat m worker activeRuns now =
      let r := renewLeases worker now (touchHeartbeat m.db worker) (activeRuns.take 256)
      ({ m with db := r.1 }, heartbeatResponse { m with db := r.1 } worker activeRuns r.2) := rfl

theorem takeRun_some {m m' : State} {worker runId token : String} {now : Time} {r : Response}
    (h : takeRun m worker runId token now = (m', some r)) :
    m' = m ∧ (r = .rejected ∨ r = .claim none) := by
  unfold takeRun at h
  split at h
  · cases h
    exact ⟨rfl, Or.inl rfl⟩
  split at h
  · cases h
    exact ⟨rfl, Or.inl rfl⟩
  split at h
  · cases h
    exact ⟨rfl, Or.inr rfl⟩
  split at h
  · cases h
    exact ⟨rfl, Or.inr rfl⟩
  · cases h

/-- A claim that goes through has met a queued run of a configured job and has made it active. -/
theorem takeRun_none {m m' : State} {worker runId token : String} {now : Time}
    (h : takeRun m worker runId token now = (m', none)) :
    ∃ queued, m.db.run runId = some queued ∧ (m.job queued.jobId).isSome ∧
      Claims m.db runId worker token now ∧
      m' = { m with db := afterClaim m.db runId worker token queued.jobId now } := by
  unfold takeRun at h
  split at h
  · cases h
  rename_i queued hq
  split at h
  · cases h
  rename_i hjob
  split at h
  · cases h
  split at h
  · cases h
  rename_i hc
  cases h
  exact ⟨queued, hq, by simpa [Option.isSome_iff_ne_none] using hjob, Nat.pos_of_ne_zero hc, rfl⟩

theorem run_afterClaim (t : Tables) (runId worker token job id : String) (now : Time) :
    (afterClaim t runId worker token job now).run id =
      (after t (claim runId worker token now)).run id := by
  unfold afterClaim
  obtain ⟨he, -⟩ | ⟨he, -⟩ := after_eq (after t (claim runId worker token now))
    (.setJobStatus job .syncing) <;> rw [he]
  rfl

/-- Without interference a claim is its two halves. -/
theorem serveClaim_eq {m : State} (hv : m.db.Valid) (worker runId token : String) (now : Time) :
    serveClaim m worker runId token now =
      match takeRun m worker runId token now with
      | (m', some r) => (m', r)
      | (m', none) => (m', claimResponse m' runId) := by
  cases hr : m.db.run runId with
  | none => simp [serveClaim, takeRun, hr]
  | some queued =>
    by_cases hj : (m.job queued.jobId).isNone
    · simp [serveClaim, takeRun, hr, hj]
    by_cases ha : !(activeRunsOfJob m.db queued.jobId).isEmpty
    · simp [serveClaim, takeRun, hr, hj, ha]
    by_cases hc : changed m.db (claim runId worker token now) = 0
    · have hc' : changed m.db (.updateRun (.claimRun runId worker token now)) = 0 := hc
      simp [serveClaim, takeRun, hr, hj, ha, hc, hc']
    -- The row that was taken is still of the same job, which is configured.
    obtain ⟨r, hr', -, hrow⟩ := Claims.row hv (Nat.pos_of_ne_zero hc)
    obtain rfl : queued = r := Option.some.inj (hr.symm.trans hr')
    rw [← run_afterClaim m.db runId worker token queued.jobId] at hrow
    have hc' : ¬changed m.db (.updateRun (.claimRun runId worker token now)) = 0 := hc
    have hjob : ∀ t : Tables, ({ m with db := t } : State).job queued.jobId = m.job queued.jobId :=
      fun _ => rfl
    simp only [afterClaim, claim] at hrow
    simp [serveClaim, takeRun, claimResponse, afterClaim, claim, claimRun, hr, hj, ha, hc', hrow,
      hjob]

end Synora.Cluster
