import Synora.Db.StoreSpec

namespace Synora.Db
open Core Table Tables

/-- The `UPDATE` of `claim_run`; the call answers `true` exactly when it changes a row. -/
def claim (id worker token : String) (now : Time) : Stmt :=
  .updateRun (.claimRun id worker token now)

def Claims (t : Tables) (id worker token : String) (now : Time) : Prop :=
  0 < changed t (claim id worker token now)

instance (t : Tables) (id worker token : String) (now : Time) :
    Decidable (Claims t id worker token now) := inferInstanceAs (Decidable (0 < _))

/-- A successful claim found its row queued and leaves it `SYNCING` under the new lease. -/
theorem Claims.row {t : Tables} (hv : t.Valid) {id worker token : String} {now : Time}
    (h : Claims t id worker token now) :
    ∃ r, t.run id = some r ∧ r.status = .queued ∧
      (after t (claim id worker token now)).run id =
        some ((Db.claimRun id worker token now).write r) := by
  have hid : ∀ r, (RunStmt.claimRun id worker token now).update.guard t r → r.id = id := by
    intro r hg
    simp only [RunStmt.update, claimRun, decide_eq_true_eq] at hg
    exact hg.1
  obtain ⟨r, hr, hg, hafter⟩ := changed_updateRun_row hv hid h
  simp only [RunStmt.update, claimRun, decide_eq_true_eq] at hg
  exact ⟨r, hr, hg.2.1, hafter⟩

theorem Claims.active {t : Tables} (hv : t.Valid) {id worker token : String} {now : Time}
    (h : Claims t id worker token now) : (after t (claim id worker token now)).Active id := by
  obtain ⟨r, -, -, hr⟩ := h.row hv
  exact ⟨_, hr, rfl⟩

/-- A claim leaves every other row alone. -/
theorem run_after_claim_ne (t : Tables) {id other : String} (worker token : String) (now : Time)
    (hne : other ≠ id) : (after t (claim id worker token now)).run other = t.run other := by
  refine run_after_ne (fun r hg => ?_) hne
  simp only [RunStmt.update, claimRun, decide_eq_true_eq] at hg
  exact hg.1

/-- While a run of a job is active, every claim on a run of that job answers `false`. -/
theorem not_claims_of_active {t : Tables} (hv : t.Valid) {id id' worker token : String}
    {now : Time} {r r' : RunRow} (hr : t.run id = some r) (ha : r.status.isActive)
    (hr' : t.run id' = some r') (hj : r'.jobId = r.jobId) : ¬Claims t id' worker token now := by
  intro hc
  obtain ⟨q, hq, hqueued, hafter⟩ := hc.row hv
  obtain rfl : r' = q := by rw [hr'] at hq; exact Option.some.inj hq
  by_cases hid : id = id'
  · subst hid
    rw [hr] at hr'
    obtain rfl := Option.some.inj hr'
    rw [hqueued] at ha
    cases ha
  · -- Both rows would be active, and the index admits one of them.
    have hkeep := run_after_claim_ne t worker token now hid
    rw [hr] at hkeep
    have hsame := (after_valid hv _).active_unique hkeep hafter ha rfl hj.symm
    have hids := congrArg RunRow.id hsame
    rw [(run_eq_some hkeep).2, (run_eq_some hafter).2] at hids
    exact hid hids

/-- A row that is there before and after a statement keeps what no `UPDATE` writes. -/
theorem kept_after {α : Type*} {f : RunRow → α}
    (hf : ∀ (u : RunStmt) (r : RunRow), f (u.update.write r) = f r) {t : Tables} (hv : t.Valid)
    (q : Stmt) {id : String} {r r' : RunRow} (hr : t.run id = some r)
    (hr' : (after t q).run id = some r') : f r' = f r := by
  obtain h | ⟨u, s, rfl, hs, -, h, -⟩ | ⟨h, -⟩ | ⟨job, -, h⟩ := after_run hv q id
  · rw [h, hr] at hr'
    rw [Option.some.inj hr']
  · rw [hr] at hs
    rw [h] at hr'
    rw [← Option.some.inj hr', ← Option.some.inj hs]
    exact hf u r
  · simp [hr] at h
  · simp [hr'] at h

theorem jobId_after {t : Tables} (hv : t.Valid) (q : Stmt) {id : String} {r r' : RunRow}
    (hr : t.run id = some r) (hr' : (after t q).run id = some r') : r'.jobId = r.jobId :=
  kept_after RunStmt.write_jobId hv q hr hr'

/-- A run that stays active through a list of statements keeps its job. -/
theorem jobId_afterAll {t : Tables} (hv : t.Valid) (qs : List Stmt) {id : String} {r : RunRow}
    (hr : t.run id = some r) (ha : ∀ k ≤ qs.length, (afterAll t (qs.take k)).Active id) :
    ∃ r', (afterAll t qs).run id = some r' ∧ r'.status.isActive ∧ r'.jobId = r.jobId := by
  induction qs generalizing t r with
  | nil =>
    obtain ⟨r', hr', hact⟩ := ha 0 le_rfl
    rw [List.take_nil, afterAll_nil, hr] at hr'
    exact ⟨r, hr, Option.some.inj hr' ▸ hact, rfl⟩
  | cons q qs ih =>
    obtain ⟨r₁, hr₁, -⟩ := ha 1 (by simp)
    rw [List.take_succ_cons, List.take_zero, afterAll_cons, afterAll_nil] at hr₁
    obtain ⟨r', hr', hact, hjob⟩ := ih (after_valid hv q) hr₁ fun k hk => by
      simpa using ha (k + 1) (by simpa using hk)
    exact ⟨r', hr', hact, hjob.trans (jobId_after hv q hr hr₁)⟩

/-- Whatever statements workers, managers and ticks interleave, starting from the empty
database: a job has at most one run in an active status, and between two successful claims
on runs of one job the first of the two runs has left the active statuses. -/
theorem single_active_run (qs : List Stmt) :
    (∀ job, ((afterAll empty qs).jobRuns.filter fun r =>
      decide (r.jobId = job) && r.status.isActive).length ≤ 1) ∧
    ∀ pre mid id worker token now id' worker' token' now' r r',
      qs = pre ++ claim id worker token now :: mid ++ [claim id' worker' token' now'] →
      Claims (afterAll empty pre) id worker token now →
      Claims (afterAll empty (pre ++ claim id worker token now :: mid)) id' worker' token' now' →
      (afterAll empty pre).run id = some r →
      (afterAll empty (pre ++ claim id worker token now :: mid)).run id' = some r' →
      r'.jobId = r.jobId →
      ∃ k ≤ mid.length, ¬(afterAll empty (pre ++ claim id worker token now :: mid.take k)).Active id := by
  refine ⟨fun job => (afterAll_valid empty_valid qs).oneActive.length_le_one job, ?_⟩
  intro pre mid id worker token now id' worker' token' now' r r' _ hc hc' hr hr' hj
  by_contra! hall
  have hv := afterAll_valid empty_valid pre
  obtain ⟨r₀, hr₀, -, hafter⟩ := hc.row hv
  obtain rfl : r = r₀ := Option.some.inj (hr.symm.trans hr₀)
  have hv' := after_valid hv (claim id worker token now)
  obtain ⟨r₁, hr₁, hact, hjob⟩ := jobId_afterAll hv' mid hafter fun k hk => by
    simpa [afterAll_append] using hall k hk
  rw [afterAll_append, afterAll_cons] at hc' hr'
  exact not_claims_of_active (afterAll_valid hv' mid) hr₁ hact hr' (hj.trans hjob.symm) hc'

/-- The second run of a job is claimed after the first one has finished. -/
theorem single_active_run_next : ∃ k ≤ 2, ¬(afterAll empty
    ([.upsertWorker "w", .syncJob "j", .createRun "r" "j" none .queued 0 90] ++
      claim "r" "w" "t" 100 :: [Stmt.updateRun (.finishRun "r"
        ⟨.success, some 0, none, none, none, none, 10⟩ 110),
        .createRun "r'" "j" none .queued 0 120].take k)).Active "r" :=
  (single_active_run _).2
    [.upsertWorker "w", .syncJob "j", .createRun "r" "j" none .queued 0 90]
    [.updateRun (.finishRun "r" ⟨.success, some 0, none, none, none, none, 10⟩ 110),
      .createRun "r'" "j" none .queued 0 120]
    "r" "w" "t" 100 "r'" "w" "t'" 130 _ _ rfl (by decide) (by decide) rfl rfl (by decide)

end Synora.Db
