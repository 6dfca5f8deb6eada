import Synora.Db.SingleActive
import Synora.Manager.Invariant

namespace Synora.Manager
open Core Db Table Engine

variable {scaleDelay : ℕ → F64 → ℕ → ℕ} {s s' : State} {a : Action}

/-! ## Where the rows of a job come from -/

theorem RowMove.inflight_of {q : Stmt} {r r' : RunRow} (h : RowMove q r r')
    (hi : r'.status.isInflight) : r.status.isInflight := by
  cases h with
  | stay hs hn => rwa [hs] at hi
  | claim hs hs' hn => rw [hs]; rfl
  | start hs hs' hn => rcases hs with hs | hs <;> rw [hs] <;> rfl
  | stop hs hs' hn =>
    cases hr : r.status <;> simp_all [DbStatus.isExecuting, DbStatus.isInflight]
  | withdraw hs hs' hn => simp [hs', DbStatus.isInflight] at hi
  | finish hs hs' hn =>
    cases hr : r'.status <;> simp_all [DbStatus.isTerminal, DbStatus.isInflight]
  | retry expected nextRetryAt count fence now hq hs hs' hn =>
    cases hr : r.status <;> simp_all [DbStatus.isActive, DbStatus.isInflight]
  | requeue count now hq hs hs' hn => rw [hs]; rfl

theorem noInflight_iff {t : Tables} (hv : t.Valid) {job : String} :
    noInflight t job ↔ ∀ id r, t.run id = some r → r.jobId = job → ¬r.status.isInflight := by
  simp only [noInflight, List.all_eq_true, Bool.not_eq_true', Bool.and_eq_false_iff,
    decide_eq_false_iff_not]
  constructor
  · intro h id r hr hj hi
    rcases h r (Tables.run_eq_some hr).1 with hne | hni
    · exact hne hj
    · simp [hni] at hi
  · intro h r hr
    by_cases hj : r.jobId = job
    · exact Or.inr (by simpa using h r.id r (hv.run_of_mem hr) hj)
    · exact Or.inl hj

/-- What the `INSERT` of `create_run` makes. -/
theorem createRun_row {t : Tables} {id job : String} {worker : Option String} {status : JobStatus}
    {priority : ℤ} {now : Time} {r : RunRow} (hn : t.run id = none)
    (hr : (after t (.createRun id job worker status priority now)).run id = some r) :
    r.jobId = job ∧ r.status = toDb status ∧ r.createdAt = now := by
  obtain ⟨he, -⟩ | ⟨he, -⟩ := after_eq t (.createRun id job worker status priority now)
  · rw [he] at hr
    obtain h | ⟨-, -, h⟩ := lookup_concat RunRow.id id t.jobRuns _
    · exact absurd (hr.symm.trans (h.trans hn)) (by simp)
    · obtain rfl := Option.some.inj (h.symm.trans hr)
      exact ⟨rfl, rfl, rfl⟩
  · rw [he, hn] at hr
    cases hr

/-- What the `INSERT` of `create_lost_requeue` makes, and what it has checked. -/
theorem createLostRequeue_row {t : Tables} {newId id : String} {worker : Option String}
    {now : Time} {r : RunRow} (hn : t.run newId = none)
    (hr : (after t (.createLostRequeue newId id worker now)).run newId = some r) :
    ∃ run, t.run id = some run ∧ noInflight t run.jobId ∧ r.jobId = run.jobId := by
  obtain ⟨he, -⟩ | ⟨he, -⟩ := after_eq t (.createLostRequeue newId id worker now)
  · rw [he] at hr
    simp only [Stmt.effect, createLostRequeue] at hr
    split at hr
    · simp [hn] at hr
    · rename_i run hrun
      split at hr
      · rename_i hg
        refine ⟨run, hrun, hg.2, ?_⟩
        obtain h | ⟨-, -, h⟩ := lookup_concat RunRow.id newId t.jobRuns _
        · exact absurd (hr.symm.trans (h.trans hn)) (by simp)
        · obtain rfl := Option.some.inj (h.symm.trans hr)
          rfl
      · simp [hn] at hr
  · rw [he, hn] at hr
    cases hr

/-- The ways in which a step creates a row. -/
inductive Creates (s : State) (a : Action) (r : RunRow) : Prop
  | dispatch {worker : Option String} {priority : ℤ} {now : Time}
      (ha : a = .dispatch r.id r.jobId worker priority now)
  | skip {dep : String} {now : Time} (ha : a = .skip r.id r.jobId dep now)
      (hs : r.status = .skipped)
  | safeStop {i : ℕ} {worker : Option String} {now : Time} {h : Handler} {run src : RunRow}
      (ha : a = .requeue i r.id worker now) (hh : s.handlers[i]? = some h)
      (hp : h.phase = .requeue run) (hr : s.db.run h.body.runId = some src)
      (hn : noInflight s.db r.jobId) (hj : r.jobId = src.jobId)
  | reaper {worker : Option String} {now at_ : Time} {run src : RunRow} {expired : List RunRow}
      (ha : a = .reapRequeue r.id worker at_) (ht : s.reaper = .lost now run expired)
      (hp : (s.job run.jobId).any fun j => decide (j.onWorkerLost = .retry))
      (hr : s.db.run run.id = some src) (hn : noInflight s.db r.jobId) (hj : r.jobId = src.jobId)

/-- A row was there before, in flight if it is so now, or this step has created it. -/
theorem Moves.origin (inv : Inv s) (h : Moves scaleDelay s a s') {id : String} {r' : RunRow}
    (hr' : s'.db.run id = some r') :
    (∃ r, s.db.run id = some r ∧ r.jobId = r'.jobId ∧
      (r'.status.isInflight → r.status.isInflight)) ∨
      (s.db.run id = none ∧ Creates s a r') := by
  cases hr : s.db.run id with
  | some r =>
    refine Or.inl ⟨r, rfl, ?_⟩
    obtain hdb | ⟨q, hq, hdb⟩ := h.db
    · obtain rfl : r = r' := Option.some.inj (hr.symm.trans (hdb ▸ hr'))
      exact ⟨rfl, fun hi => hi⟩
    · rw [hdb] at hr'
      exact ⟨(jobId_after inv.valid q hr hr').symm, (hq.rowMove inv hr hr').inflight_of⟩
  | none =>
    refine Or.inr ⟨rfl, ?_⟩
    obtain rfl := (Tables.run_eq_some hr').2
    have hnew {q : Stmt} (hr' : (after s.db q).run r'.id = some r') : Inserted q r'.id r' :=
      inserted_of_new inv.valid hr hr'
    -- A statement that is no `INSERT` of a run creates none.
    have hnone {q : Stmt} (hc : ∀ id job worker status priority now,
          q ≠ .createRun id job worker status priority now)
        (hl : ∀ newId id worker now, q ≠ .createLostRequeue newId id worker now)
        (hr' : (after s.db q).run r'.id = some r') : Creates s a r' := by
      obtain ⟨job, worker, status, priority, now, hq, -⟩ | ⟨src, worker, now, hq, -⟩ :=
        (hnew hr').source
      · exact absurd hq (hc _ _ _ _ _ _)
      · exact absurd hq (hl _ _ _ _)
    cases h with
    | dispatch hid =>
      obtain ⟨job, worker, status, priority, now, hq, -⟩ | ⟨src, worker, now, hq, -⟩ :=
        (hnew hr').source
      · cases hq
        obtain ⟨hj, -⟩ := createRun_row hr hr'
        exact .dispatch (by rw [hj])
      · cases hq
    | skip hid =>
      obtain ⟨job, worker, status, priority, now, hq, -⟩ | ⟨src, worker, now, hq, -⟩ :=
        (hnew hr').source
      · cases hq
        obtain ⟨hj, hs, -⟩ := createRun_row hr hr'
        exact .skip (by rw [hj]) hs
      · cases hq
    | requeue hh hp hid =>
      obtain ⟨job, worker, status, priority, now, hq, -⟩ | ⟨src, worker, now, hq, -⟩ :=
        (hnew hr').source
      · cases hq
      · cases hq
        obtain ⟨run, hrun, hn, hj⟩ := createLostRequeue_row hr hr'
        exact .safeStop rfl hh hp hrun (hj ▸ hn) hj
    | reapRequeue ht hj hid =>
      obtain ⟨job, worker, status, priority, now, hq, -⟩ | ⟨src, worker, now, hq, -⟩ :=
        (hnew hr').source
      · cases hq
      · cases hq
        obtain ⟨run, hrun, hn, hjob⟩ := createLostRequeue_row hr hr'
        exact .reaper rfl ht hj hrun (hjob ▸ hn) hjob
    | statement hf =>
      refine hnone ?_ ?_ hr'
      · rintro _ _ _ _ _ _ rfl
        cases hf
      · rintro _ _ _ _ rfl
        cases hf
    | skipFinish _ | update _ _ _ _ | project _ _ | log _ _ | tickDrop _ | tickRequeue _
    | reapNext _ => exact hnone (by simp) (by simp) hr'
    | _ => exact absurd (hr.symm.trans hr') (by simp)

theorem Moves.kept {α : Type*} {f : RunRow → α}
    (hf : ∀ (u : RunStmt) (r : RunRow), f (u.update.write r) = f r) (hv : s.db.Valid)
    (h : Moves scaleDelay s a s') {id : String} {r r' : RunRow} (hr : s.db.run id = some r)
    (hr' : s'.db.run id = some r') : f r' = f r := by
  obtain hdb | ⟨q, -, hdb⟩ := h.db
  · rw [hdb, hr, Option.some.injEq] at hr'
    rw [hr']
  · rw [hdb] at hr'
    exact kept_after hf hv q hr hr'

/-- A row goes only with the other rows of its job. -/
theorem Moves.gone (hv : s.db.Valid) (h : Moves scaleDelay s a s') {id : String} {r : RunRow}
    (hr : s.db.run id = some r) (hn : s'.db.run id = none) :
    a = .statement (.deleteRuns r.jobId) := by
  have hstay {q : Stmt} (hq : ∀ job, q ≠ .deleteRuns job) (hn : (after s.db q).run id = none) :
      False := by
    obtain h | ⟨u, x, -, -, -, h, -⟩ | ⟨h, -⟩ | ⟨job, rfl, -⟩ := after_run hv q id
    · simp [h, hr] at hn
    · simp [h] at hn
    · simp [hr] at h
    · exact hq job rfl
  cases h with
  | statement hf =>
    rename_i q
    by_cases hq : ∃ job, q = .deleteRuns job
    · obtain ⟨job, rfl⟩ := hq
      by_cases hj : r.jobId = job
      · rw [hj]
      · obtain ⟨he, -⟩ | ⟨he, -⟩ := after_eq s.db (.deleteRuns job)
        · have hkeep : (after s.db (.deleteRuns job)).run id = some r := by
            rw [he]
            refine lookup_filter s.db.jobRuns hr ?_ hv.runIds
            simpa using hj
          exact absurd (hkeep.symm.trans hn) (by simp)
        · rw [he, hr] at hn
          cases hn
    · exact (hstay (fun job hjob => hq ⟨job, hjob⟩) hn).elim
  | skipFinish _ | update _ _ _ _ | project _ _ | log _ _ | tickDrop _ | tickRequeue _ | reapNext _
  | dispatch _ | skip _ | requeue _ _ _ | reapRequeue _ _ _ => exact (hstay (by simp) hn).elim
  | _ => exact absurd (hr.symm.trans hn) (by simp)

/-- The newest run of a job stays so while no other is created and the job is not purged. -/
theorem Moves.newest (inv : Inv s) (h : Moves scaleDelay s a s') {job : String} {r : RunRow}
    (hr : (runHistory s.db job 1).head? = some r) (hnew : ∀ x, Creates s a x → x.jobId ≠ job)
    (hdel : a ≠ .statement (.deleteRuns job)) :
    ∃ r', s'.db.run r.id = some r' ∧ (runHistory s'.db job 1).head? = some r' := by
  have hv' := valid_step inv.valid h
  obtain ⟨hmem, hjob, hle⟩ := (head_runHistory inv.valid).mp hr
  have hrun := inv.valid.run_of_mem hmem
  cases hr' : s'.db.run r.id with
  | none =>
    have hgone := h.gone inv.valid hrun hr'
    exact absurd (hjob ▸ hgone) hdel
  | some r' =>
    refine ⟨r', rfl, (head_runHistory hv').mpr ⟨(Tables.run_eq_some hr').1, ?_, ?_⟩⟩
    · exact (h.kept RunStmt.write_jobId inv.valid hrun hr').trans hjob
    · intro x hx hj
      have hx' := hv'.run_of_mem hx
      obtain ⟨x₀, hx₀, hj₀, -⟩ | ⟨-, hc⟩ := h.origin inv hx'
      · obtain ⟨hmem₀, hid₀⟩ := Tables.run_eq_some hx₀
        have hat := h.kept RunStmt.write_createdAt inv.valid hrun hr'
        have hat₀ := h.kept RunStmt.write_createdAt inv.valid hx₀ hx'
        have hid := (Tables.run_eq_some hr').2
        have hold := hle x₀ hmem₀ (hj₀.trans hj)
        rwa [Db.newest, ← hat, ← hat₀, ← hid, hid₀] at hold
      · exact absurd hj (hnew x hc)

/-! ## The job of a row that somebody has read -/

/-- The row that a request has loaded. -/
def Handler.row (h : Handler) : Option RunRow :=
  match h.phase with
  | .loaded run | .decided run _ | .won run _ | .applied run _ | .requeue run | .logging run =>
    some run
  | .received | .answered _ => none

/-- The expired rows the reaper has still to deal with. -/
def Reaper.rows : Reaper → List RunRow
  | .idle => []
  | .loop _ expired => expired
  | .lost _ run expired => run :: expired

/-- A row that was read is still of the same job, if it is there. -/
structure KnownJobs (s : State) : Prop where
  handlers : ∀ h ∈ s.handlers, ∀ run ∈ h.row, RowHas s h.body.runId fun r => r.jobId = run.jobId
  reaper : ∀ run ∈ s.reaper.rows, RowHas s run.id fun r => r.jobId = run.jobId

theorem RowHas.jobId_step (inv : Inv s) (h : Moves scaleDelay s a s') {id job : String}
    (hp : RowHas s id fun r => r.jobId = job) : RowHas s' id fun r => r.jobId = job := by
  refine ⟨h.runIds hp.issued, fun r' hr' => ?_⟩
  obtain ⟨r, hr, -⟩ := h.row inv hp.issued hr'
  obtain ⟨r₀, hr₀, hj, -⟩ | ⟨hnone, -⟩ := h.origin inv hr'
  · rw [← hj]
    exact hp.row r₀ hr₀
  · simp [hr] at hnone

theorem knownJobs_init (jobs : List JobSpec) : KnownJobs (State.init jobs) :=
  ⟨by simp [State.init], by simp [State.init, Reaper.rows]⟩

theorem Inv.rowHas_jobId (inv : Inv s) {id : String} {run : RunRow}
    (hr : s.db.run id = some run) : RowHas s id fun r => r.jobId = run.jobId := by
  refine ⟨inv.issued id run hr, fun r hr' => ?_⟩
  obtain rfl : r = run := Option.some.inj (hr'.symm.trans hr)
  rfl

/-- A request keeps the row it has loaded until it is answered. -/
theorem Moves.handler_row (h : Moves scaleDelay s a s') {x : Handler} (hx : x ∈ s'.handlers)
    {run : RunRow} (hr : run ∈ x.row) :
    (∃ y ∈ s.handlers, y.body = x.body ∧ run ∈ y.row) ∨ s.db.run x.body.runId = some run := by
  have hkeep (hx : x ∈ s.handlers) : ∃ y ∈ s.handlers, y.body = x.body ∧ run ∈ y.row :=
    ⟨x, hx, rfl, hr⟩
  have hset {i : ℕ} {y : Handler} {phase : Phase} (hy : s.handlers[i]? = some y)
      (hx : x ∈ (s.setPhase i y phase).handlers)
      (hphase : run ∈ ({ y with phase } : Handler).row → run ∈ y.row) :
      ∃ y ∈ s.handlers, y.body = x.body ∧ run ∈ y.row := by
    rcases mem_setPhase hx with hx | rfl
    · exact hkeep hx
    · exact ⟨y, List.mem_of_getElem? hy, rfl, hphase hr⟩
  cases h with
  | request body =>
    rcases List.mem_append.mp hx with hx | hx
    · exact Or.inl (hkeep hx)
    · rw [List.mem_singleton.mp hx] at hr
      cases hr
  | load hh hp hrun =>
    rcases mem_setPhase hx with hx | rfl
    · exact Or.inl (hkeep hx)
    · obtain rfl := Option.some.inj hr
      exact Or.inr hrun
  | decide hh hp hv => exact Or.inl (hset hh hx (by simp [Handler.row, hp]))
  | update hh hp hu hc => exact Or.inl (hset hh hx (by simp [Handler.row, hp]))
  | project hh hp => exact Or.inl (hset hh hx (by simp [Handler.row, hp]))
  | count hh hp =>
    refine Or.inl (hset hh hx ?_)
    split <;> simp [Handler.row, hp]
  | requeue hh hp hid => exact Or.inl (hset hh hx (by simp [Handler.row, hp]))
  | log hh hp => exact Or.inl (hset hh hx (by simp [Handler.row]))
  | answer a code hh => exact Or.inl (hset hh hx (by simp [Handler.row]))
  | _ => exact Or.inl (hkeep hx)

/-- The reaper deals with rows it has listed. -/
theorem Moves.reaper_rows (h : Moves scaleDelay s a s') {run : RunRow}
    (hr : run ∈ s'.reaper.rows) : run ∈ s.reaper.rows ∨ run ∈ s.db.jobRuns := by
  cases h with
  | reapList ht => exact Or.inr (mem_runsWhere.mp hr).1
  | reapEnd ht => cases hr
  | reapNext ht =>
    left
    rw [ht]
    dsimp only at hr
    rw [apply_ite Reaper.rows] at hr
    split at hr
    · exact hr
    · exact List.mem_cons_of_mem _ hr
  | reapRequeue ht hj hid =>
    left
    simp only [ht, Reaper.rows] at hr ⊢
    exact List.mem_cons_of_mem _ hr
  | reapSkip a ht =>
    left
    rcases ht with ht | ht <;> simp only [ht, Reaper.rows] at hr ⊢ <;>
      exact List.mem_cons_of_mem _ hr
  | _ => exact Or.inl hr

theorem knownJobs_step (inv : Inv s) (hk : KnownJobs s) (h : Moves scaleDelay s a s') :
    KnownJobs s' where
  handlers x hx run hr := by
    obtain ⟨y, hy, hbody, hrow⟩ | hrow := h.handler_row hx hr
    · exact hbody ▸ (hk.handlers y hy run hrow).jobId_step inv h
    · exact (inv.rowHas_jobId hrow).jobId_step inv h
  reaper run hr := by
    rcases h.reaper_rows hr with hr | hr
    · exact (hk.reaper run hr).jobId_step inv h
    · exact (inv.rowHas_jobId (inv.valid.run_of_mem hr)).jobId_step inv h

end Synora.Manager
