import Synora.Manager.Invariant

namespace Synora.Manager
open Core Db Table

/-! ## How long a lease lasts -/

/-- While the run is active, its lease does not run out before `until_`. -/
def LeasedTo (t : Tables) (id : String) (until_ : Time) : Prop :=
  ∀ r, t.run id = some r → r.status.isActive → ∃ e, r.leaseExpiresAt = some e ∧ until_ ≤ e

theorem LeasedTo.mono {t : Tables} {id : String} {u u' : Time} (h : LeasedTo t id u)
    (hu : u' ≤ u) : LeasedTo t id u' := by
  intro r hr ha
  obtain ⟨e, he, hle⟩ := h r hr ha
  exact ⟨e, he, hu.trans hle⟩

/-- The reaper cannot expire a leased run early. -/
theorem LeasedTo.le_of_expired {t : Tables} (hv : t.Valid) {id : String} {u now : Time}
    (h : LeasedTo t id u) (hc : 0 < changed t (.updateRun (.expireRun id now))) : u ≤ now := by
  obtain ⟨-, -, r, hr, hg⟩ := changed_updateRun_pos hc
  simp only [RunStmt.update, expireRun, decide_eq_true_eq] at hg
  obtain ⟨rfl, ⟨e, he, hle⟩, ha⟩ := hg
  obtain ⟨e', he', hu⟩ := h r (hv.run_of_mem hr) ha
  obtain rfl : e' = e := Option.some.inj (he'.symm.trans he)
  exact hu.trans hle

/-- The time at which a statement grants or renews a lease. -/
def leaseStamp : Stmt → Option Time
  | .updateRun (.claimRun _ _ _ now) | .updateRun (.renewRunLease _ _ _ now) => some now
  | _ => none

/-- A renewal that reports a row has moved the lease on. -/
theorem leasedTo_of_renewed {t : Tables} (hv : t.Valid) {id worker token : String} {now : Time}
    (hc : 0 < changed t (.updateRun (.renewRunLease id worker token now))) :
    LeasedTo (after t (.updateRun (.renewRunLease id worker token now))) id
      (now + runLeaseSecs) := by
  have hid : ∀ r, (RunStmt.renewRunLease id worker token now).update.guard t r → r.id = id := by
    intro r hg
    simp only [RunStmt.update, renewRunLease, decide_eq_true_eq] at hg
    exact hg.2.1
  obtain ⟨r, -, -, hafter⟩ := changed_updateRun_row hv hid hc
  intro r' hr' _
  rw [hafter, Option.some.injEq] at hr'
  exact ⟨now + runLeaseSecs, by rw [← hr']; rfl, le_rfl⟩

section
variable {scaleDelay : ℕ → F64 → ℕ → ℕ} {s s' : State} {a : Action}

/-- A statement leaves an active row with the lease it had, or with one it grants itself. -/
theorem Issues.lease_of_guard (inv : Inv s) {u : RunStmt} (hq : Issues s a s' (.updateRun u))
    {r : RunRow} (hg : u.update.guard s.db r)
    (hact : (u.update.write r).status.isActive) :
    (r.status.isActive ∧ (u.update.write r).leaseExpiresAt = r.leaseExpiresAt) ∨
      ∃ now, leaseStamp (.updateRun u) = some now ∧
        (u.update.write r).leaseExpiresAt = some (now + runLeaseSecs) := by
  cases hq with
  | free hf =>
    cases u with
    | claimRun id worker token now => exact Or.inr ⟨now, rfl, rfl⟩
    | renewRunLease id worker token now => exact Or.inr ⟨now, rfl, rfl⟩
    | assignQueuedRun id worker => exact Or.inl ⟨hact, rfl⟩
    | unassignOffline => exact Or.inl ⟨hact, rfl⟩
    | markJobRunning worker job =>
      simp only [RunStmt.update, markJobRunning, decide_eq_true_eq] at hg
      refine Or.inl ⟨?_, rfl⟩
      rcases hg.2.2 with hs | hs <;> rw [hs] <;> rfl
    | setCancellingByJob job =>
      simp only [RunStmt.update, setCancellingByJob, decide_eq_true_eq] at hg
      exact Or.inl ⟨DbStatus.isActive_of_isExecuting hg.2, rfl⟩
    | dropSupersededRuns now => cases hact
    | cancelChanged job now => cases hact
    | _ => cases hf
  | skipFinish hp => cases hact
  | complete ha hh hp hu hc =>
    rename_i i h run v now
    have hsound := inv.verdicts h (List.mem_of_getElem? hh) run v hp
    cases v with
    | answer code => cases hu
    | finish c =>
      cases hu
      have hinactive : (toDb c.status).isActive = false := DbStatus.not_active_of_terminal hsound
      exact absurd hact (by simpa [RunStmt.update, finishActiveRunFenced, Completion.write]
        using hinactive)
    | retry nextRetryAt count =>
      cases hu
      cases hact
  | expire => cases hact
  | tickDrop ht => cases hact
  | tickRequeue ht ht' => cases hact

/-- Of all steps only a free statement grants or renews a lease. -/
theorem Moves.db_stamped (h : Moves scaleDelay s a s') :
    s'.db = s.db ∨ ∃ q, Issues s a s' q ∧ s'.db = after s.db q ∧
      (a = .statement q ∨ leaseStamp q = none) := by
  cases h with
  | statement hf => exact Or.inr ⟨_, .free hf, rfl, Or.inl rfl⟩
  | update hh hp hu hc =>
    refine Or.inr ⟨_, .complete rfl hh hp hu hc, rfl, Or.inr ?_⟩
    rename_i v u
    cases v <;> cases hu <;> rfl
  | dispatch hid => exact Or.inr ⟨_, .create hid List.mem_cons_self, rfl, Or.inr rfl⟩
  | skip hid => exact Or.inr ⟨_, .create hid List.mem_cons_self, rfl, Or.inr rfl⟩
  | skipFinish hp => exact Or.inr ⟨_, .skipFinish hp, rfl, Or.inr rfl⟩
  | project hh hp => exact Or.inr ⟨_, .free rfl, rfl, Or.inr rfl⟩
  | requeue hh hp hid => exact Or.inr ⟨_, .requeue hid List.mem_cons_self, rfl, Or.inr rfl⟩
  | log hh hp => exact Or.inr ⟨_, .free rfl, rfl, Or.inr rfl⟩
  | tickDrop ht => exact Or.inr ⟨_, .tickDrop ht, rfl, Or.inr rfl⟩
  | tickRequeue ht => exact Or.inr ⟨_, .tickRequeue ht rfl, rfl, Or.inr rfl⟩
  | reapNext ht => exact Or.inr ⟨_, .expire, rfl, Or.inr rfl⟩
  | reapRequeue ht hj hid => exact Or.inr ⟨_, .requeue hid List.mem_cons_self, rfl, Or.inr rfl⟩
  | _ => exact Or.inl rfl

/-- The manager creates runs that are queued or skipped. -/
theorem Moves.not_active_of_new (inv : Inv s) (h : Moves scaleDelay s a s') {id : String}
    {r : RunRow} (hn : s.db.run id = none) (hr : s'.db.run id = some r) : ¬r.status.isActive := by
  have hnew : ∀ q, (∀ job worker status priority now,
      q = .createRun id job worker status priority now → ¬(toDb status).isActive) →
      (after s.db q).run id = some r → ¬r.status.isActive := by
    intro q hq hr
    obtain ⟨job, worker, status, priority, now, rfl, hs⟩ | ⟨src, worker, now, -, hs⟩ :=
      (inserted_of_new inv.valid hn hr).source
    · rw [hs]
      exact hq _ _ _ _ _ rfl
    · simp [hs, DbStatus.isActive]
  cases h with
  | dispatch hid | skip hid =>
    refine hnew _ ?_ hr
    rintro _ _ _ _ _ ⟨⟩
    decide
  | statement hf =>
    refine hnew _ ?_ hr
    rintro _ _ _ _ _ rfl
    cases hf
  | skipFinish _ | update _ _ _ _ | project _ _ | requeue _ _ _ | log _ _ | tickDrop _
  | tickRequeue _ | reapNext _ | reapRequeue _ _ _ =>
    exact hnew _ (by rintro _ _ _ _ _ ⟨⟩) hr
  | _ => exact absurd (hn.symm.trans hr) (by simp)

/-- The statement of an action, if it is one, grants and renews leases at `clock` only. -/
def Action.Timely (clock : Time) : Action → Prop
  | .statement q => ∀ now, leaseStamp q = some now → now = clock
  | _ => True

/-- A timely step does not shorten a lease that ends before a new one would. -/
theorem LeasedTo.moves (inv : Inv s) (h : Moves scaleDelay s a s') {clock : Time}
    (ht : a.Timely clock) {id : String} {u : Time} (hu : u ≤ clock + runLeaseSecs)
    (hl : LeasedTo s.db id u) : LeasedTo s'.db id u := by
  intro r' hr' hact
  cases hr : s.db.run id with
  | none => exact absurd hact (h.not_active_of_new inv hr hr')
  | some r =>
    obtain hdb | ⟨q, hq, hdb, hstamp⟩ := h.db_stamped
    · exact hl r' (hdb ▸ hr') hact
    rw [hdb] at hr'
    obtain hsame | ⟨w, x, rfl, hx, hg, hw, -⟩ | ⟨hnone, -⟩ | ⟨job, -, hnone⟩ :=
      after_run inv.valid q id
    · exact hl r' (hsame ▸ hr') hact
    · obtain rfl : x = r := Option.some.inj (hx.symm.trans hr)
      obtain rfl : w.update.write x = r' := Option.some.inj (hw.symm.trans hr')
      obtain ⟨ha, hlease⟩ | ⟨now, hnow, hlease⟩ := hq.lease_of_guard inv hg hact
      · rw [hlease]
        exact hl x hr ha
      · -- The new lease is counted from the clock.
        rcases hstamp with rfl | hnone
        · obtain rfl := ht now hnow
          exact ⟨_, hlease, hu⟩
        · rw [hnone] at hnow
          cases hnow
    · simp [hr] at hnone
    · simp [hr'] at hnone

theorem LeasedTo.exec {as : List Action} (inv : Inv s) {clock : Time}
    (ht : ∀ a ∈ as, a.Timely clock) (h : Runs.exec (step scaleDelay) s as = some s')
    {id : String} {u : Time} (hu : u ≤ clock + runLeaseSecs) (hl : LeasedTo s.db id u) :
    LeasedTo s'.db id u := by
  induction as generalizing s with
  | nil =>
    obtain rfl : s = s' := Option.some.inj h
    exact hl
  | cons a as ih =>
    obtain ⟨t, hs, hrest⟩ := (Runs.exec_cons_eq_some _).mp h
    have hfirst := hl.moves inv (step_moves hs) (ht a List.mem_cons_self) hu
    exact ih (inv_step inv hs) (fun b hb => ht b (List.mem_cons_of_mem a hb)) hrest hfirst

end

end Synora.Manager
