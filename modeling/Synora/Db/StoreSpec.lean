import Synora.Db.Store

namespace Synora.Db
open Core Table Tables

/-! ## What one statement can do -/

theorem after_eq (t : Tables) (q : Stmt) :
    (after t q = (q.effect t).2 ∧ changed t q = (q.effect t).1 ∧ (q.effect t).2.Valid) ∨
      (after t q = t ∧ changed t q = 0) := by
  unfold after changed execute
  by_cases h : (q.effect t).2.Valid
  · exact Or.inl (by simp [h])
  · exact Or.inr (by simp [h])

theorem after_valid {t : Tables} (h : t.Valid) (q : Stmt) : (after t q).Valid := by
  obtain ⟨he, -, hv⟩ | ⟨he, -⟩ := after_eq t q
  · rw [he]
    exact hv
  · rw [he]
    exact h

theorem RunStmt.write_id (u : RunStmt) (r : RunRow) : (u.update.write r).id = r.id := by
  cases u <;> rfl

theorem RunStmt.write_jobId (u : RunStmt) (r : RunRow) : (u.update.write r).jobId = r.jobId := by
  cases u <;> rfl

theorem RunStmt.write_createdAt (u : RunStmt) (r : RunRow) :
    (u.update.write r).createdAt = r.createdAt := by
  cases u <;> rfl

theorem RunUpdate.effect_run (u : RunUpdate) (hu : ∀ r, (u.write r).id = r.id) (t : Tables)
    (id : String) :
    (u.effect t).2.run id = (t.run id).map fun r => if u.guard t r then u.write r else r :=
  lookup_update t.jobRuns hu

/-- A row as an `INSERT` leaves it: never leased, never retried. -/
structure Inserted (q : Stmt) (id : String) (r : RunRow) : Prop where
  source : (∃ job worker status priority now,
      q = .createRun id job worker status priority now ∧ r.status = toDb status) ∨
    (∃ src worker now, q = .createLostRequeue id src worker now ∧ r.status = .queued)
  id_eq : r.id = id
  leaseToken : r.leaseToken = none
  retryCount : r.retryCount = 0

/-- What a statement can do to the row `id`: nothing, one guarded `UPDATE`, its `INSERT`,
or its removal with the job. -/
theorem after_run {t : Tables} (hv : t.Valid) (q : Stmt) (id : String) :
    (after t q).run id = t.run id ∨
    (∃ u r, q = .updateRun u ∧ t.run id = some r ∧ u.update.guard t r ∧
      (after t q).run id = some (u.update.write r) ∧ 0 < changed t q) ∨
    (t.run id = none ∧ ∃ r, (after t q).run id = some r ∧ Inserted q id r) ∨
    (∃ job, q = .deleteRuns job ∧ (after t q).run id = none) := by
  obtain ⟨he, hc, -⟩ | ⟨he, -⟩ := after_eq t q
  swap
  · -- A rejected statement has done nothing.
    exact Or.inl (by rw [he])
  rw [he, hc]
  cases q with
  | updateRun u =>
    change (u.update.effect t).2.run id = t.run id ∨ _
    have hu := u.update.effect_run u.write_id t id
    cases hr : t.run id with
    | none => exact Or.inl (by rw [hu, hr, Option.map_none])
    | some r =>
      rw [hr, Option.map_some] at hu
      by_cases hg : u.update.guard t r
      · rw [if_pos hg] at hu
        refine Or.inr (Or.inl ⟨u, r, rfl, rfl, hg, hu, ?_⟩)
        exact matched_pos.mpr ⟨r, (run_eq_some hr).1, hg⟩
      · exact Or.inl (by rw [hu, if_neg hg])
  | createRun nid job worker status priority now =>
    obtain h | ⟨hn, hid, h⟩ := lookup_concat RunRow.id id t.jobRuns _
    · exact Or.inl h
    · obtain rfl : nid = id := hid
      refine Or.inr (Or.inr (Or.inl ⟨hn, _, h, ?_⟩))
      exact ⟨Or.inl ⟨_, _, _, _, _, rfl, rfl⟩, rfl, rfl, rfl⟩
  | createLostRequeue nid src worker now =>
    simp only [Stmt.effect, createLostRequeue]
    split
    · exact Or.inl rfl
    split
    · obtain h | ⟨hn, hid, h⟩ := lookup_concat RunRow.id id t.jobRuns _
      · exact Or.inl h
      · obtain rfl : nid = id := hid
        refine Or.inr (Or.inr (Or.inl ⟨hn, _, h, ?_⟩))
        exact ⟨Or.inr ⟨_, _, _, rfl, rfl⟩, rfl, rfl, rfl⟩
    · exact Or.inl rfl
  | deleteRuns job =>
    simp only [Stmt.effect, deleteRuns, Tables.run]
    cases hr : lookup RunRow.id id (t.jobRuns.filter fun r => decide (r.jobId ≠ job)) with
    | none => exact Or.inr (Or.inr (Or.inr ⟨job, rfl, rfl⟩))
    | some r =>
      obtain ⟨hm, rfl⟩ := lookup_eq_some_mem hr
      exact Or.inl (hv.run_of_mem (List.mem_filter.mp hm).1).symm
  | setJobStatusForRun rid =>
    simp only [Stmt.effect, setJobStatusForRun]
    split <;> exact Or.inl rfl
  | syncJob name =>
    simp only [Stmt.effect, syncJob]
    split <;> exact Or.inl rfl
  | upsertWorker wid =>
    simp only [Stmt.effect, upsertWorker]
    split <;> exact Or.inl rfl
  | insertLogWith rid job path content now =>
    simp only [Stmt.effect, insertLogWith]
    split <;> exact Or.inl rfl
  | insertLogFenced rid worker token job content now =>
    simp only [Stmt.effect, insertLogFenced]
    split
    · exact Or.inl rfl
    · split
      · exact Or.inl rfl
      · split
        · exact Or.inl rfl
        · split <;> exact Or.inl rfl
  | setConfigGeneration name generation => exact Or.inl rfl
  | setJobStatus name status => exact Or.inl rfl
  | deleteJob name => exact Or.inl rfl
  | setWorkerStatus wid status => exact Or.inl rfl
  | deleteLogs job => exact Or.inl rfl

/-- A row that was not there is the row that the statement inserts. -/
theorem inserted_of_new {t : Tables} (hv : t.Valid) {q : Stmt} {id : String} {r : RunRow}
    (hn : t.run id = none) (hr : (after t q).run id = some r) : Inserted q id r := by
  obtain h | ⟨u, x, -, hx, -⟩ | ⟨-, x, hx, hins⟩ | ⟨job, -, h⟩ := after_run hv q id
  · simp [h, hn] at hr
  · simp [hn] at hx
  · obtain rfl : x = r := Option.some.inj (hx.symm.trans hr)
    exact hins
  · simp [hr] at h

/-- The statements on the table `job_runs`. -/
def Stmt.writesRuns : Stmt → Bool
  | .updateRun _ | .createRun .. | .createLostRequeue .. | .deleteRuns _ => true
  | _ => false

theorem run_after_of_not_writesRuns {t : Tables} (hv : t.Valid) {q : Stmt}
    (hq : q.writesRuns = false) (id : String) : (after t q).run id = t.run id := by
  obtain h | ⟨u, r, rfl, -⟩ | ⟨-, r, -, hins⟩ | ⟨job, rfl, -⟩ := after_run hv q id
  · exact h
  · cases hq
  · obtain ⟨_, _, _, _, _, rfl, -⟩ | ⟨_, _, _, rfl, -⟩ := hins.source <;> cases hq
  · cases hq

/-- An `UPDATE` that reports rows has changed one that met its guard. -/
theorem changed_updateRun_pos {t : Tables} {u : RunStmt} (hc : 0 < changed t (.updateRun u)) :
    after t (.updateRun u) = (u.update.effect t).2 ∧ (after t (.updateRun u)).Valid ∧
      ∃ r ∈ t.jobRuns, u.update.guard t r := by
  obtain ⟨he, hn, hv⟩ | ⟨-, hn⟩ := after_eq t (.updateRun u)
  · rw [hn] at hc
    exact ⟨he, by rw [he]; exact hv, matched_pos.mp hc⟩
  · omega

/-- An `UPDATE` by id that reports rows found its row, and has rewritten it. -/
theorem changed_updateRun_row {t : Tables} (hv : t.Valid) {u : RunStmt} {id : String}
    (hid : ∀ r, u.update.guard t r → r.id = id) (hc : 0 < changed t (.updateRun u)) :
    ∃ r, t.run id = some r ∧ u.update.guard t r ∧
      (after t (.updateRun u)).run id = some (u.update.write r) := by
  obtain ⟨he, -, r, hr, hg⟩ := changed_updateRun_pos hc
  obtain rfl := hid r hg
  have hrun := hv.run_of_mem hr
  refine ⟨r, hrun, hg, ?_⟩
  rw [he, u.update.effect_run u.write_id, hrun, Option.map_some, if_pos hg]

/-- An `UPDATE` by id leaves every other row alone. -/
theorem run_after_ne {t : Tables} {u : RunStmt} {id other : String}
    (hid : ∀ r, u.update.guard t r → r.id = id) (hne : other ≠ id) :
    (after t (.updateRun u)).run other = t.run other := by
  obtain ⟨he, -⟩ | ⟨he, -⟩ := after_eq t (.updateRun u)
  · rw [he]
    change (u.update.effect t).2.run other = _
    rw [u.update.effect_run u.write_id]
    cases hr : t.run other with
    | none => rfl
    | some r =>
      have hg : ¬u.update.guard t r := fun hg => hne ((run_eq_some hr).2.symm.trans (hid r hg))
      rw [Option.map_some, if_neg hg]
  · rw [he]

/-- The run of an `UPDATE` whose guard asks for an id and an active status. -/
def RunStmt.activeTarget : RunStmt → Option String
  | .expireRun id _ | .setRunLost id _ | .finishActiveRunFenced id ..
  | .setRetryFromActiveFenced id .. => some id
  | _ => none

/-- Such an `UPDATE`, when it reports rows, has rewritten an active one. -/
theorem changed_activeTarget {t : Tables} (hv : t.Valid) {u : RunStmt} {id : String}
    (hu : u.activeTarget = some id) (hc : 0 < changed t (.updateRun u)) :
    ∃ r, t.run id = some r ∧ r.status.isActive ∧
      (after t (.updateRun u)).run id = some (u.update.write r) := by
  have hguard : ∀ r, u.update.guard t r → r.id = id ∧ r.status.isActive := by
    intro r hg
    cases u with
    | expireRun eid now =>
      simp only [RunStmt.update, expireRun, decide_eq_true_eq] at hg
      exact ⟨hg.1.trans (Option.some.inj hu), hg.2.2⟩
    | setRunLost eid now =>
      simp only [RunStmt.update, setRunLost, decide_eq_true_eq] at hg
      exact ⟨hg.1.trans (Option.some.inj hu), hg.2⟩
    | finishActiveRunFenced eid expected c fence now =>
      simp only [RunStmt.update, finishActiveRunFenced, decide_eq_true_eq] at hg
      exact ⟨hg.1.trans (Option.some.inj hu), hg.2.2.2⟩
    | setRetryFromActiveFenced eid expected nextRetryAt retryCount fence now =>
      simp only [RunStmt.update, setRetryFromActiveFenced, decide_eq_true_eq] at hg
      exact ⟨hg.1.trans (Option.some.inj hu), hg.2.2.2⟩
    | _ => cases hu
  obtain ⟨r, hr, hg, hafter⟩ := changed_updateRun_row hv (fun r hg => (hguard r hg).1) hc
  exact ⟨r, hr, (hguard r hg).2, hafter⟩

/-- An `UPDATE` that reports no rows leaves the tables alone. -/
theorem after_of_changed_eq_zero {t : Tables} {u : RunStmt} (hc : changed t (.updateRun u) = 0) :
    after t (.updateRun u) = t := by
  obtain ⟨he, hn, -⟩ | ⟨he, -⟩ := after_eq t (.updateRun u)
  · rw [hn] at hc
    rw [he]
    change { t with jobRuns := update (u.update.guard t) u.update.write t.jobRuns } = t
    rw [update_of_matched_eq_zero _ hc]
  · exact he

theorem after_createRun_of_changed_eq_zero {t : Tables} {id job : String} {worker : Option String}
    {status : JobStatus} {priority : ℤ} {now : Time}
    (hc : changed t (.createRun id job worker status priority now) = 0) :
    after t (.createRun id job worker status priority now) = t := by
  obtain ⟨-, hn, -⟩ | ⟨he, -⟩ := after_eq t (.createRun id job worker status priority now)
  · rw [hn] at hc
    cases hc
  · exact he

/-! ## Runs of statements -/

/-- The tables after a list of statements, each rejected or applied. -/
def afterAll (t : Tables) (qs : List Stmt) : Tables := qs.foldl after t

@[simp] theorem afterAll_nil (t : Tables) : afterAll t [] = t := rfl

@[simp] theorem afterAll_cons (t : Tables) (q : Stmt) (qs : List Stmt) :
    afterAll t (q :: qs) = afterAll (after t q) qs := rfl

theorem afterAll_append (t : Tables) (qs qs' : List Stmt) :
    afterAll t (qs ++ qs') = afterAll (afterAll t qs) qs' := List.foldl_append

theorem exec_step (t : Tables) (qs : List Stmt) : Runs.exec step t qs = some (afterAll t qs) := by
  induction qs generalizing t with
  | nil => rfl
  | cons q qs ih => simpa [step] using ih (after t q)

theorem afterAll_valid {t : Tables} (h : t.Valid) (qs : List Stmt) : (afterAll t qs).Valid :=
  Runs.exec_invariant step Tables.Valid
    (fun t q u hv hu => by
      obtain rfl : after t q = u := by simpa [step] using hu
      exact after_valid hv q)
    h (exec_step t qs)

end Synora.Db
