import Synora.Manager.Lifecycle

namespace Synora.Manager
open Core Db Table Engine

variable {scaleDelay : ℕ → F64 → ℕ → ℕ} {s s' : State} {a : Action}

/-- The statement a step from `s` to `s'` issues. -/
inductive Issues (s : State) (a : Action) (s' : State) : Stmt → Prop
  | free {q : Stmt} (h : free q) : Issues s a s' q
  | create {id job : String} {worker : Option String} {status : JobStatus} {priority : ℤ}
      {now : Time} (h : id ∉ s.runIds) (h' : id ∈ s'.runIds) :
      Issues s a s' (.createRun id job worker status priority now)
  | skipFinish {p : String × String} {now : Time} (h : p ∈ s.skips) :
      Issues s a s' (.updateRun (.finishRun p.1 (skipCompletion p.2) now))
  | complete {i : ℕ} {h : Handler} {run : RunRow} {v : Verdict} {now : Time} {u : RunStmt}
      (ha : a = .update i now) (hh : s.handlers[i]? = some h) (hp : h.phase = .decided run v)
      (hu : v.update h.body run now = some u) (hc : 0 < changed s.db (.updateRun u)) :
      Issues s a s' (.updateRun u)
  | requeue {newId id : String} {worker : Option String} {now : Time}
      (h : newId ∉ s.runIds) (h' : newId ∈ s'.runIds) :
      Issues s a s' (.createLostRequeue newId id worker now)
  | expire {id : String} {now : Time} : Issues s a s' (.updateRun (.expireRun id now))
  | tickDrop {now at_ : Time} {run : RunRow} {due : List RunRow}
      (h : s.ticker = .drop now run due) :
      Issues s a s' (.updateRun (.finishRun run.id disabledCompletion at_))
  | tickRequeue {now : Time} {run : RunRow} {due : List RunRow}
      (h : s.ticker = .requeue now run due) (h' : s'.ticker = .loop now due) :
      Issues s a s' (.updateRun (.requeueRetry run.id run.retryCount now))

/-- A step leaves the database alone or issues one statement. -/
theorem Moves.db (h : Moves scaleDelay s a s') :
    s'.db = s.db ∨ ∃ q, Issues s a s' q ∧ s'.db = after s.db q := by
  cases h with
  | statement hf => exact Or.inr ⟨_, .free hf, rfl⟩
  | dispatch hid => exact Or.inr ⟨_, .create hid List.mem_cons_self, rfl⟩
  | skip hid => exact Or.inr ⟨_, .create hid List.mem_cons_self, rfl⟩
  | skipFinish hp => exact Or.inr ⟨_, .skipFinish hp, rfl⟩
  | update hh hp hu hc => exact Or.inr ⟨_, .complete rfl hh hp hu hc, rfl⟩
  | project hh hp => exact Or.inr ⟨_, .free rfl, rfl⟩
  | requeue hh hp hid => exact Or.inr ⟨_, .requeue hid List.mem_cons_self, rfl⟩
  | log hh hp => exact Or.inr ⟨_, .free rfl, rfl⟩
  | tickDrop ht => exact Or.inr ⟨_, .tickDrop ht, rfl⟩
  | tickRequeue ht => exact Or.inr ⟨_, .tickRequeue ht rfl, rfl⟩
  | reapNext ht => exact Or.inr ⟨_, .expire, rfl⟩
  | reapRequeue ht hj hid => exact Or.inr ⟨_, .requeue hid List.mem_cons_self, rfl⟩
  | _ => exact Or.inl rfl

theorem Moves.runIds (h : Moves scaleDelay s a s') {id : String} (hid : id ∈ s.runIds) :
    id ∈ s'.runIds := by
  cases h <;> first | exact hid | exact List.mem_cons_of_mem _ hid

/-- The due runs the tick has still to look at. -/
def Ticker.pending : Ticker → List RunRow
  | .idle => []
  | .loop _ due => due
  | .drop _ run due | .requeue _ run due => run :: due

/-- What holds of the row `id` while it is there; ids are issued once, so it never comes back. -/
structure RowHas (s : State) (id : String) (P : RunRow → Prop) : Prop where
  issued : id ∈ s.runIds
  row : ∀ r, s.db.run id = some r → P r

/-- The invariant of the manager. -/
structure Inv (s : State) : Prop where
  valid : s.db.Valid
  issued : ∀ id r, s.db.run id = some r → id ∈ s.runIds
  skips : ∀ p ∈ s.skips, RowHas s p.1 fun r => r.status = .skipped
  due : (s.ticker.pending.map RunRow.id).Nodup
  dueRows : ∀ x ∈ s.ticker.pending, RowHas s x.id fun r =>
    r.status = .retrying ∨ r.status = .cancelled
  verdicts : ∀ h ∈ s.handlers, ∀ run v, h.phase = .decided run v → v.Sound run

/-- How one statement moves the status and the attempt of a row. -/
inductive RowMove (q : Stmt) (r r' : RunRow) : Prop
  | stay (hs : r'.status = r.status) (hn : r'.retryCount = r.retryCount)
  | claim (hs : r.status = .queued) (hs' : r'.status = .syncing)
      (hn : r'.retryCount = r.retryCount)
  | start (hs : r.status = .starting ∨ r.status = .syncing) (hs' : r'.status = .running)
      (hn : r'.retryCount = r.retryCount)
  | stop (hs : r.status.isExecuting) (hs' : r'.status = .cancelling)
      (hn : r'.retryCount = r.retryCount)
  | withdraw (hs : r.status = .queued ∨ r.status = .retrying ∨ r.status = .cancelling)
      (hs' : r'.status = .cancelled) (hn : r'.retryCount = r.retryCount)
  | finish (hs : r.status.isActive) (hs' : r'.status.isTerminal)
      (hn : r'.retryCount = r.retryCount)
  | retry (expected : ℕ) (nextRetryAt : Time) (count : ℕ) (fence : Option (String × String))
      (now : Time)
      (hq : q = .updateRun (.setRetryFromActiveFenced r.id expected nextRetryAt count fence now))
      (hs : r.status.isActive) (hs' : r'.status = .retrying)
      (hn : r'.retryCount = r.retryCount + 1)
  | requeue (count : ℕ) (now : Time) (hq : q = .updateRun (.requeueRetry r.id count now))
      (hs : r.status = .retrying) (hs' : r'.status = .queued)
      (hn : r'.retryCount = r.retryCount)

/-- A row that a statement has matched moves along the lifecycle. -/
theorem Issues.rowMove_of_guard (inv : Inv s) {u : RunStmt} (hq : Issues s a s' (.updateRun u))
    {r : RunRow} (hr : s.db.run r.id = some r) (hg : u.update.guard s.db r) :
    RowMove (.updateRun u) r (u.update.write r) := by
  cases hq with
  | free hf =>
    cases u with
    | claimRun id worker token now =>
      simp only [RunStmt.update, claimRun, decide_eq_true_eq] at hg
      exact .claim hg.2.1 rfl rfl
    | markJobRunning worker job =>
      simp only [RunStmt.update, markJobRunning, decide_eq_true_eq] at hg
      exact .start hg.2.2 rfl rfl
    | setCancellingByJob job =>
      simp only [RunStmt.update, setCancellingByJob, decide_eq_true_eq] at hg
      exact .stop hg.2 rfl rfl
    | dropSupersededRuns now =>
      simp only [RunStmt.update, dropSupersededRuns, decide_eq_true_eq] at hg
      exact .withdraw hg.1 rfl rfl
    | cancelChanged job now =>
      simp only [RunStmt.update, cancelChanged, decide_eq_true_eq] at hg
      exact .withdraw (hg.2.imp_right Or.inl) rfl rfl
    | assignQueuedRun id worker => exact .stay rfl rfl
    | unassignOffline => exact .stay rfl rfl
    | renewRunLease id worker token now => exact .stay rfl rfl
    | _ => cases hf
  | skipFinish hp =>
    simp only [RunStmt.update, finishRun, decide_eq_true_eq] at hg
    have hs := (inv.skips _ hp).row r (hg ▸ hr)
    exact .stay hs.symm rfl
  | complete ha hh hp hu hc =>
    rename_i i h run v now
    have hsound := inv.verdicts h (List.mem_of_getElem? hh) run v hp
    cases v with
    | answer code => cases hu
    | finish c =>
      cases hu
      simp only [RunStmt.update, finishActiveRunFenced, decide_eq_true_eq] at hg
      exact .finish hg.2.2.2 hsound rfl
    | retry nextRetryAt count =>
      cases hu
      simp only [RunStmt.update, setRetryFromActiveFenced, decide_eq_true_eq] at hg
      obtain ⟨hid, hn, -, ha⟩ := hg
      refine .retry _ _ _ _ _ (by rw [hid]) ha rfl ?_
      rw [hn]
      exact hsound
  | expire =>
    simp only [RunStmt.update, expireRun, decide_eq_true_eq] at hg
    exact .finish hg.2.2 rfl rfl
  | tickDrop ht =>
    rename_i now at_ run due
    simp only [RunStmt.update, finishRun, decide_eq_true_eq] at hg
    have hmem : run ∈ s.ticker.pending := by rw [ht]; exact List.mem_cons_self
    -- The row was `RETRYING` when it was listed, and only a withdrawal can have come between.
    rcases (inv.dueRows run hmem).row r (hg ▸ hr) with hs | hs
    · exact .withdraw (Or.inr (Or.inl hs)) rfl rfl
    · exact .stay hs.symm rfl
  | tickRequeue ht ht' =>
    simp only [RunStmt.update, requeueRetry, decide_eq_true_eq] at hg
    exact .requeue _ _ (by rw [hg.1]) hg.2.1 rfl rfl

/-- The row `id` before and after a statement. -/
theorem Issues.rowMove (inv : Inv s) {q : Stmt} (hq : Issues s a s' q) {id : String} {r r' : RunRow}
    (hr : s.db.run id = some r) (hr' : (after s.db q).run id = some r') : RowMove q r r' := by
  obtain h | ⟨u, x, rfl, hx, hg, h, -⟩ | ⟨h, -⟩ | ⟨job, -, h⟩ := after_run inv.valid q id
  · rw [h, hr, Option.some.injEq] at hr'
    subst hr'
    exact .stay rfl rfl
  · rw [hr, Option.some.injEq] at hx
    subst hx
    rw [h, Option.some.injEq] at hr'
    subst hr'
    have hid := (Tables.run_eq_some hr).2
    exact hq.rowMove_of_guard inv (by rw [hid]; exact hr) hg
  · simp [hr] at h
  · simp [hr'] at h

/-- A row that appears has an id that this step has issued. -/
theorem Issues.fresh (inv : Inv s) {q : Stmt} (hq : Issues s a s' q) {id : String} {r : RunRow}
    (hr : s.db.run id = none) (hr' : (after s.db q).run id = some r) :
    id ∉ s.runIds ∧ id ∈ s'.runIds := by
  obtain ⟨job, worker, status, priority, now, rfl, -⟩ | ⟨src, worker, now, rfl, -⟩ :=
    (inserted_of_new inv.valid hr hr').source
  · cases hq with
    | free hf => cases hf
    | create hid hid' => exact ⟨hid, hid'⟩
  · cases hq with
    | free hf => cases hf
    | requeue hid hid' => exact ⟨hid, hid'⟩

theorem RowMove.retryCount_le {q : Stmt} {r r' : RunRow} (h : RowMove q r r') :
    r.retryCount ≤ r'.retryCount := by
  cases h <;> omega

/-- Nothing leads out of a terminal status. -/
theorem RowMove.of_terminal {q : Stmt} {r r' : RunRow} (h : RowMove q r r')
    (ht : r.status.isTerminal) : r'.status = r.status ∧ r'.retryCount = r.retryCount := by
  have hna := DbStatus.not_active_of_terminal ht
  cases h with
  | stay hs hn => exact ⟨hs, hn⟩
  | claim hs hs' hn => simp [hs, DbStatus.isTerminal] at ht
  | start hs hs' hn => rcases hs with hs | hs <;> simp [hs, DbStatus.isTerminal] at ht
  | stop hs hs' hn =>
    cases hr : r.status <;> simp [hr, DbStatus.isTerminal, DbStatus.isExecuting] at ht hs
  | withdraw hs hs' hn => rcases hs with hs | hs | hs <;> simp [hs, DbStatus.isTerminal] at ht
  | finish hs hs' hn => simp [hna] at hs
  | retry expected nextRetryAt count fence now hq hs hs' hn => simp [hna] at hs
  | requeue count now hq hs hs' hn => simp [hs, DbStatus.isTerminal] at ht

/-- What a step does to the row `id`, once that id has been issued. -/
theorem Moves.row (inv : Inv s) (h : Moves scaleDelay s a s') {id : String} {r' : RunRow}
    (hid : id ∈ s.runIds) (hr' : s'.db.run id = some r') :
    ∃ r, s.db.run id = some r ∧
      (r' = r ∨ ∃ q, Issues s a s' q ∧ RowMove q r r') := by
  obtain hdb | ⟨q, hq, hdb⟩ := h.db
  · exact ⟨r', by rw [← hdb, hr'], Or.inl rfl⟩
  · rw [hdb] at hr'
    cases hr : s.db.run id with
    | none => exact absurd hid (hq.fresh inv hr hr').1
    | some r => exact ⟨r, rfl, Or.inr ⟨q, hq, hq.rowMove inv hr hr'⟩⟩

/-- A property of a row survives a step if every move of the row keeps it. -/
theorem RowHas.step (inv : Inv s) (h : Moves scaleDelay s a s') {id : String}
    {P : RunRow → Prop} (hp : RowHas s id P)
    (hm : ∀ q r r', Issues s a s' q → r.id = id → P r → RowMove q r r' → P r') :
    RowHas s' id P := by
  refine ⟨h.runIds hp.issued, ?_⟩
  intro r' hr'
  obtain ⟨r, hr, rfl | ⟨q, hq, hmove⟩⟩ := h.row inv hp.issued hr'
  · exact hp.row _ hr
  · exact hm q r r' hq (Tables.run_eq_some hr).2 (hp.row r hr) hmove

/-! ## The invariant is kept -/

theorem Inv.run_none (inv : Inv s) {id : String} (hid : id ∉ s.runIds) : s.db.run id = none := by
  cases hr : s.db.run id with
  | none => rfl
  | some r => exact absurd (inv.issued id r hr) hid

theorem valid_step (hv : s.db.Valid) (h : Moves scaleDelay s a s') : s'.db.Valid := by
  obtain hdb | ⟨q, -, hdb⟩ := h.db
  · rw [hdb]
    exact hv
  · rw [hdb]
    exact after_valid hv q

theorem issued_step (inv : Inv s) (h : Moves scaleDelay s a s') {id : String} {r : RunRow}
    (hr' : s'.db.run id = some r) : id ∈ s'.runIds := by
  by_cases hid : id ∈ s.runIds
  · exact h.runIds hid
  obtain hdb | ⟨q, hq, hdb⟩ := h.db
  · rw [hdb, inv.run_none hid] at hr'
    cases hr'
  · rw [hdb] at hr'
    exact (hq.fresh inv (inv.run_none hid) hr').2

/-- The row `dispatch` has just created to be skipped. -/
theorem skip_row (inv : Inv s) {id job : String} {now : Time} {r : RunRow}
    (hid : id ∉ s.runIds)
    (hr : (after s.db (.createRun id job none .skipped 0 now)).run id = some r) :
    r.status = .skipped := by
  obtain ⟨job', worker, status, priority, now', hq, hs⟩ | ⟨src, worker, now', hq, -⟩ :=
    (inserted_of_new inv.valid (inv.run_none hid) hr).source
  · cases hq
    exact hs
  · cases hq

theorem skips_step (inv : Inv s) (h : Moves scaleDelay s a s') {p : String × String}
    (hp : p ∈ s'.skips) : RowHas s' p.1 fun r => r.status = .skipped := by
  have hkeep (hp : p ∈ s.skips) : RowHas s' p.1 fun r => r.status = .skipped := by
    refine (inv.skips p hp).step inv h ?_
    intro q r r' _ _ hs hm
    have ht : r.status.isTerminal := by rw [hs]; rfl
    exact (hm.of_terminal ht).1.trans hs
  cases h with
  | skip hid =>
    rcases List.mem_cons.mp hp with rfl | hp
    · exact ⟨List.mem_cons_self, fun r hr => skip_row inv hid hr⟩
    · exact hkeep hp
  | _ => exact hkeep hp

theorem runsWhere_ids_nodup {t : Tables} (hv : t.Valid) (p : RunRow → Bool) :
    ((runsWhere t p).map RunRow.id).Nodup := by
  rw [runsWhere, ((List.perm_insertionSort runOrder _).map RunRow.id).nodup_iff]
  exact hv.runIds.sublist (List.filter_sublist.map RunRow.id)

theorem due_step (inv : Inv s) (h : Moves scaleDelay s a s') :
    (s'.ticker.pending.map RunRow.id).Nodup := by
  have hdue := inv.due
  cases h with
  | tickList ht => exact runsWhere_ids_nodup inv.valid _
  | tickEnd ht => exact List.nodup_nil
  | tickNext ht hn =>
    rw [ht] at hdue
    rcases hn with rfl | rfl | rfl
    · exact hdue
    · exact hdue.of_cons
    · exact hdue
  | tickDrop ht =>
    rw [ht] at hdue
    exact hdue.of_cons
  | tickRequeue ht =>
    rw [ht] at hdue
    exact hdue.of_cons
  | tickFail ht =>
    rcases ht with ht | ht
    · rw [ht] at hdue
      exact hdue.of_cons
    · rw [ht] at hdue
      exact hdue.of_cons
  | _ => exact hdue

theorem pending_subset (h : Moves scaleDelay s a s') {x : RunRow}
    (hx : x ∈ s'.ticker.pending) :
    x ∈ s.ticker.pending ∨ (s'.db = s.db ∧ s'.runIds = s.runIds ∧ ∃ now, x ∈ dueRetries s.db now) := by
  cases h with
  | tickList ht => exact Or.inr ⟨rfl, rfl, _, hx⟩
  | tickEnd ht => cases hx
  | tickNext ht hn =>
    rw [ht]
    rcases hn with rfl | rfl | rfl
    · exact Or.inl hx
    · exact Or.inl (List.mem_cons_of_mem _ hx)
    · exact Or.inl hx
  | tickDrop ht =>
    rw [ht]
    exact Or.inl (List.mem_cons_of_mem _ hx)
  | tickRequeue ht =>
    rw [ht]
    exact Or.inl (List.mem_cons_of_mem _ hx)
  | tickFail ht =>
    rcases ht with ht | ht
    · rw [ht]
      exact Or.inl (List.mem_cons_of_mem _ hx)
    · rw [ht]
      exact Or.inl (List.mem_cons_of_mem _ hx)
  | _ => exact Or.inl hx

theorem dueRows_step (inv : Inv s) (h : Moves scaleDelay s a s') {x : RunRow}
    (hx : x ∈ s'.ticker.pending) :
    RowHas s' x.id fun r => r.status = .retrying ∨ r.status = .cancelled := by
  obtain hold | ⟨hdb, hids, now, hnew⟩ := pending_subset h hx
  · refine (inv.dueRows x hold).step inv h ?_
    intro q r r' hq hid hs hm
    cases hm with
    | stay hs' hn => rwa [hs']
    | withdraw hs₀ hs' hn => exact Or.inr hs'
    | requeue count now hq' hs₀ hs' hn =>
      -- The tick requeues the run it has just taken off the list.
      subst hq'
      have hdue := inv.due
      generalize hid' : r.id = rid at hq
      cases hq with
      | free hf => cases hf
      | complete ha hh hp hu hc => rename_i v _; cases v <;> cases hu
      | tickRequeue ht ht' =>
        rw [ht] at hdue
        rw [ht'] at hx
        exact absurd (List.mem_map.mpr ⟨x, hx, hid.symm.trans hid'⟩) (List.nodup_cons.mp hdue).1
    | claim hs₀ hs' hn => rcases hs with hs | hs <;> simp [hs] at hs₀
    | start hs₀ hs' hn => rcases hs with hs | hs <;> simp [hs] at hs₀
    | stop hs₀ hs' hn => rcases hs with hs | hs <;> simp [hs, DbStatus.isExecuting] at hs₀
    | finish hs₀ hs' hn => rcases hs with hs | hs <;> simp [hs, DbStatus.isActive] at hs₀
    | retry expected nextRetryAt count fence now hq hs₀ hs' hn =>
      rcases hs with hs | hs <;> simp [hs, DbStatus.isActive] at hs₀
  · obtain ⟨hmem, hp⟩ := mem_runsWhere.mp hnew
    have hrun := inv.valid.run_of_mem hmem
    refine ⟨by rw [hids]; exact inv.issued x.id x hrun, ?_⟩
    intro r hr
    rw [hdb, hrun, Option.some.injEq] at hr
    subst hr
    simp only [decide_eq_true_eq] at hp
    exact Or.inl hp.1

/-- The handlers of a state after one of them has moved. -/
theorem mem_setPhase {i : ℕ} {h x : Handler} {phase : Phase}
    (hx : x ∈ (s.setPhase i h phase).handlers) : x ∈ s.handlers ∨ x = { h with phase } :=
  List.mem_or_eq_of_mem_set hx

theorem verdicts_step (inv : Inv s) (h : Moves scaleDelay s a s') {x : Handler} {run : RunRow}
    {v : Verdict} (hx : x ∈ s'.handlers) (hp : x.phase = .decided run v) : v.Sound run := by
  have hkeep (hx : x ∈ s.handlers) : v.Sound run := inv.verdicts x hx run v hp
  cases h with
  | request body =>
    rcases List.mem_append.mp hx with hx | hx
    · exact hkeep hx
    · rw [List.mem_singleton.mp hx] at hp
      cases hp
  | decide hh hp' hv =>
    rcases mem_setPhase hx with hx | rfl
    · exact hkeep hx
    · cases hp
      rw [← hv]
      exact judge_sound ..
  | count hh hp' =>
    rcases mem_setPhase hx with hx | rfl
    · exact hkeep hx
    · simp only at hp
      split at hp <;> cases hp
  | load hh hp' hr | update hh hp' hu hc | project hh hp' | requeue hh hp' hid | log hh hp'
  | answer a code hh =>
    rcases mem_setPhase hx with hx | rfl
    · exact hkeep hx
    · cases hp
  | _ => exact hkeep hx

theorem inv_init (jobs : List JobSpec) : Inv (State.init jobs) where
  valid := Tables.empty_valid
  issued id r hr := by cases hr
  skips p hp := by cases hp
  due := List.nodup_nil
  dueRows x hx := by cases hx
  verdicts h hh := by cases hh

theorem Inv.moves (inv : Inv s) (h : Moves scaleDelay s a s') : Inv s' where
  valid := valid_step inv.valid h
  issued _ _ hr := issued_step inv h hr
  skips _ hp := skips_step inv h hp
  due := due_step inv h
  dueRows _ hx := dueRows_step inv h hx
  verdicts _ hx _ _ hp := verdicts_step inv h hx hp

theorem inv_step (inv : Inv s) (h : step scaleDelay s a = some s') : Inv s' :=
  inv.moves (step_moves h)

theorem inv_exec {jobs : List JobSpec} {as : List Action}
    (h : Runs.exec (step scaleDelay) (State.init jobs) as = some s) : Inv s :=
  Runs.exec_invariant (step scaleDelay) Inv (fun _ _ _ inv hs => inv_step inv hs) (inv_init jobs) h

end Synora.Manager
