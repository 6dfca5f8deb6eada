import Synora.Db.StoreSpec
import Synora.Engine.Reload

namespace Synora.Engine
open Core Db Table Script World

variable {cal : Calendar} {r : Reload} {cfg : ResolvedConfig} {w w' : World} {name other : String}

/-! ## What the world holds of one job -/

structure JobView where
  live : Option JobDef
  row : Option JobRow
  column : Option JobColumns
  schedule : Option ScheduleRow
  runs : List RunRow
  logs : List LogRow
  events : List EventRow
  history : List HistoryRow

def World.runsOf (w : World) (name : String) : List RunRow :=
  w.tables.jobRuns.filter fun r => decide (r.jobId = name)

def World.view (w : World) (name : String) : JobView where
  live := w.job name
  row := w.tables.job name
  column := w.column name
  schedule := w.schedule name
  runs := w.runsOf name
  logs := w.tables.jobLogs.filter fun l => decide (l.jobId = name)
  events := w.events.filter fun e => decide (e.jobId = some name)
  history := w.configHistory.filter fun h => decide (h.jobName = name)

/-- The code does not reach the job. -/
def Foreign (name : String) (f : World → World) : Prop := ∀ w, (f w).view name = w.view name

/-- No line of the script reaches the job. -/
def ForeignTo (name : String) (ops : List (Op World String)) : Prop :=
  ∀ op ∈ ops, ∀ v, op.Keeps fun w => w.view name = v

theorem Foreign.keeps {f : World → World} (h : Foreign name f) (v : JobView) (w : World)
    (hw : w.view name = v) : (f w).view name = v := (h w).trans hw

theorem foreign_updateRun {q : RunStmt}
    (hq : ∀ t r, q.update.guard t r → r.jobId ≠ name) : Foreign name (exec (.updateRun q)) := by
  intro w
  have hr : (exec (.updateRun q) w).runsOf name = w.runsOf name := by
    refine filter_update_of_disjoint w.tables.jobRuns (fun r hr => ?_) fun r hr => ?_
    · simpa using hq w.tables r hr
    · rw [RunStmt.write_jobId]
      simpa using hq w.tables r hr
  simp only [World.view, hr]
  rfl

theorem foreign_cancelChanged (h : name ≠ other) (now : Time) :
    Foreign name (exec (.updateRun (.cancelChanged other now))) := by
  refine foreign_updateRun fun t r hr hn => h ?_
  simp only [RunStmt.update, cancelChanged, decide_eq_true_eq] at hr
  exact hn.symm.trans hr.1

theorem foreign_setCancelling (h : name ≠ other) :
    Foreign name (exec (.updateRun (.setCancellingByJob other))) := by
  refine foreign_updateRun fun t r hr hn => h ?_
  simp only [RunStmt.update, setCancellingByJob, decide_eq_true_eq] at hr
  exact hn.symm.trans hr.1

theorem foreign_syncJob {job : JobDef} (h : name ≠ job.name) (now : Time) :
    Foreign name (World.syncJob job now) := by
  intro w
  have hrow : (World.syncJob job now w).tables.job name = w.tables.job name := by
    simp only [World.syncJob, Stmt.effect, Db.syncJob]
    split
    · rfl
    · obtain hl | ⟨-, hk, -⟩ := lookup_concat JobRow.name name w.tables.jobs ⟨job.name, .pending, ""⟩
      · exact hl
      · exact absurd hk.symm h
  have hcol : (World.syncJob job now w).column name = w.column name :=
    lookup_upsert_of_ne w.columns (fun _ => rfl) h
  simp only [World.view, hrow, hcol]
  congr 1
  all_goals
    simp only [World.syncJob, Stmt.effect, Db.syncJob, World.runsOf]
    split <;> rfl

theorem foreign_setConfigGeneration (h : name ≠ other) (id : String) :
    Foreign name (exec (.setConfigGeneration other id)) := by
  intro w
  have hrow : (exec (.setConfigGeneration other id) w).tables.job name =
      if name = other then
        (w.tables.job name).map fun j => { j with configGeneration := id }
      else w.tables.job name := lookup_update_key w.tables.jobs (by intro _; rfl) other
  rw [if_neg h] at hrow
  simp only [World.view, hrow]
  rfl

theorem foreign_storeSchedule {job : JobDef} (h : name ≠ job.name) (now : Time)
    (immediate : Bool) : Foreign name (storeSchedule cal job now immediate) := by
  intro w
  have hs : (storeSchedule cal job now immediate w).schedule name = w.schedule name :=
    getSchedule_syncSchedule_of_ne w.schedules h
  simp only [World.view, hs]
  rfl

theorem foreign_deleteLogs (h : name ≠ other) : Foreign name (exec (.deleteLogs other)) := by
  intro w
  simp only [World.view, exec, Stmt.effect, Db.deleteLogs, filter_delete_of_ne h]
  rfl

theorem foreign_deleteEvents (h : name ≠ other) : Foreign name (deleteEvents other) := by
  intro w
  have he : some name ≠ some other := fun he => h (Option.some.inj he)
  simp only [World.view, deleteEvents, filter_delete_of_ne he]
  rfl

theorem foreign_deleteHistory (h : name ≠ other) : Foreign name (deleteHistory other) := by
  intro w
  simp only [World.view, deleteHistory, filter_delete_of_ne h]
  rfl

theorem foreign_deleteRuns (h : name ≠ other) : Foreign name (exec (.deleteRuns other)) := by
  intro w
  simp only [World.view, World.runsOf, exec, Stmt.effect, Db.deleteRuns, filter_delete_of_ne h]
  rfl

theorem foreign_deleteSchedule (h : name ≠ other) : Foreign name (World.deleteSchedule other) := by
  intro w
  have hs : (World.deleteSchedule other w).schedule name = w.schedule name :=
    (getSchedule_deleteSchedule w.schedules name other).trans (if_neg h)
  simp only [World.view, hs]
  rfl

theorem foreign_deleteJob (h : name ≠ other) : Foreign name (World.deleteJob other) := by
  intro w
  have hrow : (World.deleteJob other w).tables.job name = w.tables.job name :=
    (lookup_delete w.tables.jobs other).trans (if_neg h)
  have hcol : (World.deleteJob other w).column name = w.column name :=
    (lookup_delete w.columns other).trans (if_neg h)
  simp only [World.view, hrow, hcol]
  rfl

theorem foreign_deleteRepository (path : String) : Foreign name (deleteRepository path) := by
  intro w
  rw [deleteRepository]
  split <;> rfl

theorem foreign_dropLive (h : name ≠ other) : Foreign name (dropLive other) := by
  intro w
  have hl : (dropLive other w).job name = w.job name :=
    (lookup_delete w.liveJobs other).trans (if_neg h)
  simp only [World.view, hl]
  rfl

theorem foreign_insertLive {job : JobDef} (h : name ≠ job.name) :
    Foreign name (fun w => w.insertLive job) := by
  intro w
  have hl : (w.insertLive job).job name = w.job name := by
    have hd : lookup JobDef.name name (w.liveJobs.filter fun j => decide (j.name ≠ job.name)) =
        w.job name := (lookup_delete w.liveJobs job.name).trans (if_neg h)
    have hn : lookup JobDef.name name [job] = none := by simp [lookup, Ne.symm h]
    rw [World.job, World.insertLive, lookup_append, hd, hn, Option.or_none]
  simp only [World.view, hl]
  rfl

theorem foreign_foldl_insertLive {jobs : List JobDef} (h : name ∉ jobs.map JobDef.name) :
    Foreign name (fun w => jobs.foldl insertLive w) := by
  induction jobs with
  | nil => exact fun _ => rfl
  | cons job jobs ih =>
    rw [List.map_cons, List.mem_cons, not_or] at h
    intro w
    exact (ih h.2 (w.insertLive job)).trans (foreign_insertLive h.1 w)

theorem foreign_insertHistory {row : HistoryRow} (h : row.jobName ≠ name) :
    Foreign name (insertHistory row) := by
  intro w
  have hh : (insertHistory row w).configHistory.filter (fun x => decide (x.jobName = name)) =
      w.configHistory.filter fun x => decide (x.jobName = name) := by
    simp [insertHistory, h]
  simp only [World.view, hh]
  rfl

theorem foreign_insertEvent {event : EventRow} (h : event.jobId ≠ some name) :
    Foreign name (insertEvent event) := by
  intro w
  have he : (insertEvent event w).events.filter (fun x => decide (x.jobId = some name)) =
      w.events.filter fun x => decide (x.jobId = some name) := by
    simp [insertEvent, h]
  simp only [World.view, he]
  rfl

/-! ## Whole scripts -/

theorem ForeignTo.append {ops ops' : List (Op World String)} (h : ForeignTo name ops)
    (h' : ForeignTo name ops') : ForeignTo name (ops ++ ops') := by
  intro op hop
  obtain hop | hop := List.mem_append.mp hop
  · exact h op hop
  · exact h' op hop

theorem foreignTo_flatMap {α : Type*} {as : List α} {block : α → List (Op World String)}
    (h : ∀ a ∈ as, ForeignTo name (block a)) : ForeignTo name (as.flatMap block) := by
  intro op hop
  obtain ⟨a, ha, hop⟩ := List.mem_flatMap.mp hop
  exact h a ha op hop

/-- Nor does it change what is known of the job. -/
theorem ForeignTo.keeps {ops : List (Op World String)} (h : ForeignTo name ops)
    (P : JobView → Prop) : ∀ op ∈ ops, op.Keeps fun w => P (w.view name) := by
  intro op hop
  have hk := h op hop
  have hview {f : World → World} (hf : ∀ v u, World.view u name = v → (f u).view name = v)
      (u : World) (hu : P (u.view name)) : P ((f u).view name) := by
    rwa [hf _ u rfl]
  cases op with
  | call f => exact hview hk
  | attempt f => exact hview hk
  | memory f => exact hview hk
  | check p e => trivial
  | assert p => trivial

/-- A script that never reaches a job leaves it as it was, however it ends. -/
theorem ForeignTo.view_run {ops : List (Op World String)} (h : ForeignTo name ops)
    (fails : ℕ → Option String) (n : ℕ) (w : World) :
    (run fails n ops w).2.view name = w.view name :=
  run_keeps (fun op hop => h op hop (w.view name)) rfl

theorem ForeignTo.view_ok {ops : List (Op World String)} {fails : ℕ → Option String} {n : ℕ}
    (h : ForeignTo name ops) (hr : run fails n ops w = (.ok, w')) :
    w'.view name = w.view name := by
  have hv := h.view_run fails n w
  rwa [hr] at hv

theorem foreignTo_syncScheduleFor {job : JobDef} (h : name ≠ job.name) (id : String) (now : Time)
    (immediate : Bool) : ForeignTo name (syncScheduleFor cal job id now immediate) := by
  intro op hop v
  simp only [syncScheduleFor, List.mem_cons, List.not_mem_nil, or_false] at hop
  obtain rfl | rfl | rfl | rfl | rfl := hop
  · exact (foreign_setConfigGeneration h id).keeps v
  · trivial
  · trivial
  · exact fun _ hw => hw
  · exact (foreign_storeSchedule h now immediate).keeps v

theorem foreignTo_applyChanged {job : JobDef} (h : name ≠ job.name) :
    ForeignTo name (applyChanged cal r job) := by
  intro op hop v
  simp only [applyChanged, List.mem_cons] at hop
  obtain rfl | rfl | hop := hop
  · exact (foreign_cancelChanged h r.now).keeps v
  · exact (foreign_syncJob h (r.stamps job.name)).keeps v
  · exact foreignTo_syncScheduleFor h _ _ _ op hop v

theorem foreignTo_forgetJobCurrent (h : name ≠ other) (path : Option String) :
    ForeignTo name (forgetJobCurrent other path) := by
  refine ForeignTo.append ?_ ?_
  · intro op hop v
    simp only [List.mem_cons, List.not_mem_nil, or_false] at hop
    obtain rfl | rfl | rfl | rfl | rfl | rfl | rfl | rfl | rfl | rfl := hop
    · trivial
    · exact (foreign_setCancelling h).keeps v
    · exact (foreign_dropLive h).keeps v
    · exact fun _ hw => hw
    · exact (foreign_deleteLogs h).keeps v
    · exact (foreign_deleteEvents h).keeps v
    · exact (foreign_deleteHistory h).keeps v
    · exact (foreign_deleteRuns h).keeps v
    · exact (foreign_deleteSchedule h).keeps v
    · exact (foreign_deleteJob h).keeps v
  · intro op hop v
    cases path with
    | none => simp at hop
    | some path =>
      simp only [List.mem_cons, List.not_mem_nil, or_false] at hop
      obtain rfl | rfl := hop
      · exact fun _ hw => hw
      · exact (foreign_deleteRepository path).keeps v

/-- What the lines of a purge keep of the live map. -/
theorem forgetJobCurrent_keeps {I : List JobDef → List ScheduleRow → Prop}
    (hlive : ∀ jobs rows, I jobs rows → I (jobs.filter fun j => decide (j.name ≠ other)) rows)
    (hrows : ∀ jobs rows, I jobs rows → I jobs (Engine.deleteSchedule other rows))
    (path : Option String) :
    ∀ op ∈ forgetJobCurrent other path, op.Keeps fun u => I u.liveJobs u.schedules := by
  intro op hop
  simp only [forgetJobCurrent, List.mem_append, List.mem_cons, List.not_mem_nil, or_false] at hop
  obtain (rfl | rfl | rfl | rfl | rfl | rfl | rfl | rfl | rfl | rfl) | hop := hop
  · trivial
  · exact fun _ hu => hu
  · exact fun u hu => hlive u.liveJobs u.schedules hu
  iterate 5 exact fun _ hu => hu
  · exact fun u hu => hrows u.liveJobs u.schedules hu
  · exact fun _ hu => hu
  cases path with
  | none => simp at hop
  | some path =>
    simp only [List.mem_cons, List.not_mem_nil, or_false] at hop
    obtain rfl | rfl := hop
    · exact fun _ hu => hu
    · intro u hu
      rw [deleteRepository]
      split <;> exact hu

theorem forgetJobCurrent_keeps_live {I : List JobDef → Prop}
    (hI : ∀ jobs, I jobs → I (jobs.filter fun j => decide (j.name ≠ other)))
    (path : Option String) :
    ∀ op ∈ forgetJobCurrent other path, op.Keeps fun u => I u.liveJobs :=
  forgetJobCurrent_keeps (fun jobs _ h => hI jobs h) (fun _ _ h => h) path

/-- The end of a reload, line by line. -/
theorem publish_keeps {I : World → Prop}
    (hlive : ∀ u, I u → I ((w.changedJobs cfg).foldl insertLive u))
    (hhistory : ∀ job ∈ w.changedJobs cfg, ∀ u, I u →
      I (insertHistory ⟨r.now, job.name, w.job job.name, job⟩ u))
    (hrouting : ∀ u, I u → I { u with routing := cfg.routing })
    (hevent : ∀ message u, I u → I (insertEvent ⟨none, none, "INFO", message⟩ u)) :
    ∀ op ∈ publish r cfg w, op.Keeps I := by
  intro op hop
  simp only [publish, List.cons_append, List.mem_cons, List.mem_append, List.mem_map,
    List.not_mem_nil, or_false] at hop
  obtain rfl | ⟨job, hj, rfl⟩ | rfl | rfl := hop
  · exact hlive
  · exact hhistory job hj
  · intro u hu
    rw [setRouting]
    split
    · exact hrouting u hu
    · exact hu
  · exact hevent _

theorem foreignTo_publish (h : name ∉ (w.changedJobs cfg).map JobDef.name) :
    ForeignTo name (publish r cfg w) := by
  intro op hop v
  refine publish_keeps (I := fun u => u.view name = v) ?_ ?_ ?_ ?_ op hop
  · exact (foreign_foldl_insertLive h).keeps v
  · intro job hj
    have hn : job.name ≠ name := ne_of_mem_of_not_mem (List.mem_map_of_mem hj) h
    exact (foreign_insertHistory hn).keeps v
  · exact fun _ hu => hu
  · exact fun message => (foreign_insertEvent (by simp)).keeps v

/-! ## The block of a changed job -/

theorem run_applyChanged_ok {job : JobDef} {n : ℕ}
    (h : run r.fails n (applyChanged cal r job) w = (.ok, w')) :
    w' = storeSchedule cal job r.now false (exec (.setConfigGeneration job.name (r.ids job.name))
      (World.syncJob job (r.stamps job.name)
        (exec (.updateRun (.cancelChanged job.name r.now)) w))) := by
  simp only [applyChanged, syncScheduleFor, run_call_ok, run_check_ok, run_assert_ok,
    run_nil_ok] at h
  exact h.2.2.2.2.2.2.2.symm

/-- A run that waits for its turn is cancelled. -/
def cancelWaiting (now : Time) (r : RunRow) : RunRow :=
  if r.status = .queued ∨ r.status = .retrying then
    { r with
      status := .cancelled, finishedAt := some now
      message := some "configuration changed before execution" }
  else r

theorem runsOf_syncJob (job : JobDef) (now : Time) (w : World) (name : String) :
    (World.syncJob job now w).runsOf name = w.runsOf name := by
  simp only [World.syncJob, Stmt.effect, Db.syncJob, World.runsOf]
  split <;> rfl

theorem runsOf_cancelChanged (w : World) (name : String) (now : Time) :
    (exec (.updateRun (.cancelChanged name now)) w).runsOf name =
      (w.runsOf name).map (cancelWaiting now) := by
  refine (filter_update_of_invariant w.tables.jobRuns (by intro _; rfl)).trans ?_
  refine List.map_congr_left fun x hx => ?_
  have hj : x.jobId = name := by simpa using (List.mem_filter.mp hx).2
  simp only [RunStmt.update, cancelChanged, cancelWaiting, hj, true_and]
  by_cases hs : x.status = .queued ∨ x.status = .retrying <;> simp [hs]

/-- What a changed job looks like after its block. -/
theorem changed_block {job : JobDef} {n : ℕ}
    (h : run r.fails n (applyChanged cal r job) w = (.ok, w')) :
    w'.runsOf job.name = (w.runsOf job.name).map (cancelWaiting r.now) ∧
      w'.schedule job.name = getSchedule (syncScheduleRow cal job r.now false w.schedules)
        job.name := by
  obtain rfl := run_applyChanged_ok h
  refine ⟨?_, rfl⟩
  rw [← runsOf_cancelChanged]
  exact runsOf_syncJob job (r.stamps job.name) _ job.name

/-! ## The block of a removed job -/

def JobView.gone : JobView := ⟨none, none, none, none, [], [], [], []⟩

theorem purged (w : World) (name : String) :
    (World.deleteJob name (World.deleteSchedule name (exec (.deleteRuns name)
      (deleteHistory name (deleteEvents name (exec (.deleteLogs name)
        (dropLive name w))))))).view name = JobView.gone := by
  have hlive : lookup JobDef.name name (w.liveJobs.filter fun j => decide (j.name ≠ name)) = none :=
    (lookup_delete w.liveJobs name).trans (if_pos rfl)
  have hrow : lookup JobRow.name name (w.tables.jobs.filter fun j => decide (j.name ≠ name)) =
      none := (lookup_delete w.tables.jobs name).trans (if_pos rfl)
  have hcol : lookup JobColumns.name name (w.columns.filter fun c => decide (c.name ≠ name)) =
      none := (lookup_delete w.columns name).trans (if_pos rfl)
  have hsched := (getSchedule_deleteSchedule w.schedules name name).trans (if_pos rfl)
  simp only [World.view, JobView.gone, JobView.mk.injEq]
  exact ⟨hlive, hrow, hcol, hsched, filter_delete_self _, filter_delete_self _,
    filter_delete_self _, filter_delete_self _⟩

theorem removed_block {path : Option String} {fails : ℕ → Option String} {n : ℕ}
    (h : run fails n (forgetJobCurrent name path) w = (.ok, w')) :
    w'.view name = JobView.gone := by
  obtain ⟨v, hv, ht⟩ := run_append_ok.mp h
  simp only [run_call_ok, run_check_ok, run_attempt_ok, run_memory_ok, run_nil_ok] at hv
  have hgone : v.view name = JobView.gone := by
    rw [← hv.2.2.2.2.2.2.2.2]
    exact purged _ name
  cases path with
  | none => rwa [← run_nil_ok.mp ht]
  | some path =>
    simp only [run_call_ok, run_attempt_ok, run_nil_ok] at ht
    rw [← ht.2]
    split
    · exact hgone
    · exact (foreign_deleteRepository path v).trans hgone

/-! ## The whole reload -/

theorem nodup_changedJobs (w : World) (cfg : ResolvedConfig) :
    ((w.changedJobs cfg).map JobDef.name).Nodup :=
  cfg.nodup.sublist (List.filter_sublist.map JobDef.name)

theorem mem_changedJobs {job : JobDef} :
    job ∈ w.changedJobs cfg ↔
      job ∈ cfg.jobs ∧ ∀ live, w.job job.name = some live → live.eq job = false := by
  simp only [World.changedJobs, List.mem_filter, Bool.not_eq_true', Option.any_eq_false]

theorem mem_removed : name ∈ w.removed cfg ↔
    name ∈ w.liveJobs.map JobDef.name ∧ name ∉ cfg.jobs.map JobDef.name := by
  simp [World.removed]

/-- The three phases of a reload that succeeds. -/
theorem reloadScript_ok (h : run r.fails 0 (reloadScript cal r cfg w) w = (.ok, w')) :
    ∃ w₁ w₂ n k, run r.fails 0 ((w.changedJobs cfg).flatMap (applyChanged cal r)) w = (.ok, w₁) ∧
      run r.fails n ((w.removed cfg).flatMap (forgetRemoved w)) w₁ = (.ok, w₂) ∧
      run r.fails k (publish r cfg w) w₂ = (.ok, w') := by
  obtain ⟨w₁, h₁, hrest⟩ := run_append_ok.mp h
  obtain ⟨w₂, h₂, h₃⟩ := run_append_ok.mp hrest
  exact ⟨w₁, w₂, _, _, h₁, h₂, h₃⟩

theorem foreignTo_changed (h : name ∉ (w.changedJobs cfg).map JobDef.name) :
    ForeignTo name ((w.changedJobs cfg).flatMap (applyChanged cal r)) :=
  foreignTo_flatMap fun _ hj =>
    foreignTo_applyChanged (ne_of_mem_of_not_mem (List.mem_map_of_mem hj) h).symm

theorem foreignTo_removed (h : name ∉ w.removed cfg) :
    ForeignTo name ((w.removed cfg).flatMap (forgetRemoved w)) :=
  foreignTo_flatMap fun _ ho => foreignTo_forgetJobCurrent (ne_of_mem_of_not_mem ho h).symm _

/-- In a loop over jobs only its own block reaches a job. -/
theorem loop_block {jobs : List JobDef} {block : JobDef → List (Op World String)}
    {fails : ℕ → Option String} {n : ℕ} {job : JobDef} (hnd : (jobs.map JobDef.name).Nodup)
    (hf : ∀ other, job.name ≠ other.name → ForeignTo job.name (block other)) (hj : job ∈ jobs)
    (h : run fails n (jobs.flatMap block) w = (.ok, w')) :
    ∃ k u u', run fails k (block job) u = (.ok, u') ∧
      u.view job.name = w.view job.name ∧ w'.view job.name = u'.view job.name := by
  obtain ⟨pre, post, rfl⟩ := List.append_of_mem hj
  rw [List.map_append, List.map_cons, List.nodup_append, List.nodup_cons] at hnd
  obtain ⟨-, ⟨hpost, -⟩, hpre⟩ := hnd
  rw [List.flatMap_append, List.flatMap_cons] at h
  obtain ⟨u, hu, hrest⟩ := run_append_ok.mp h
  obtain ⟨u', hu', hrest⟩ := run_append_ok.mp hrest
  have hfpre : ForeignTo job.name (pre.flatMap block) := by
    refine foreignTo_flatMap fun other ho => hf other fun hn => ?_
    exact hpre _ (List.mem_map_of_mem ho) _ List.mem_cons_self hn.symm
  have hfpost : ForeignTo job.name (post.flatMap block) := by
    refine foreignTo_flatMap fun other ho => hf other ?_
    exact (ne_of_mem_of_not_mem (List.mem_map_of_mem ho) hpost).symm
  exact ⟨_, u, u', hu', hfpre.view_ok hu, hfpost.view_ok hrest⟩

/-- A removed job is gone after the last of its blocks. -/
theorem removed_loop {v : World} {names : List String} {n : ℕ} (hm : name ∈ names)
    (h : run r.fails n (names.flatMap (forgetRemoved v)) w = (.ok, w')) :
    w'.view name = JobView.gone := by
  induction names generalizing n w with
  | nil => simp at hm
  | cons first names ih =>
    rw [List.flatMap_cons] at h
    obtain ⟨u, hu, hrest⟩ := run_append_ok.mp h
    by_cases hin : name ∈ names
    · exact ih hin hrest
    · obtain rfl : name = first := by simpa [hin] using hm
      have hf : ForeignTo name (names.flatMap (forgetRemoved v)) :=
        foreignTo_flatMap fun _ ho =>
          foreignTo_forgetJobCurrent (ne_of_mem_of_not_mem ho hin).symm _
      exact (hf.view_ok hrest).trans (removed_block hu)

theorem foldl_insertLive_rows (jobs : List JobDef) (w : World) :
    (jobs.foldl insertLive w).tables = w.tables ∧
      (jobs.foldl insertLive w).schedules = w.schedules := by
  induction jobs generalizing w with
  | nil => exact ⟨rfl, rfl⟩
  | cons job jobs ih => exact ih (w.insertLive job)

/-- The end of a reload writes no run and no schedule. -/
theorem publish_keeps_rows {I : Tables → List ScheduleRow → Prop} :
    ∀ op ∈ publish r cfg w, op.Keeps fun u => I u.tables u.schedules := by
  refine publish_keeps (fun u hu => ?_) (fun _ _ _ hu => hu) (fun _ hu => hu) fun _ _ hu => hu
  obtain ⟨ht, hs⟩ := foldl_insertLive_rows (w.changedJobs cfg) u
  rwa [ht, hs]

theorem publish_rows {n : ℕ} {v : World} (h : run r.fails n (publish r cfg w) v = (.ok, w')) :
    w'.tables = v.tables ∧ w'.schedules = v.schedules :=
  keeps_of_run_ok (I := fun u => u.tables = v.tables ∧ u.schedules = v.schedules)
    (publish_keeps_rows (I := fun t rows => t = v.tables ∧ rows = v.schedules)) ⟨rfl, rfl⟩ h

theorem job_insertLive (w : World) (job : JobDef) : (w.insertLive job).job job.name = some job := by
  have hd : lookup JobDef.name job.name
      (w.liveJobs.filter fun j => decide (j.name ≠ job.name)) = none :=
    (lookup_delete w.liveJobs job.name).trans (if_pos rfl)
  have hn : lookup JobDef.name job.name [job] = some job := by simp [lookup]
  rw [World.job, World.insertLive, lookup_append, hd, hn, Option.none_or]

theorem job_foldl_insertLive {jobs : List JobDef} (hn : (jobs.map JobDef.name).Nodup)
    {job : JobDef} (hj : job ∈ jobs) (w : World) :
    (jobs.foldl insertLive w).job job.name = some job := by
  induction jobs generalizing w with
  | nil => simp at hj
  | cons first jobs ih =>
    rw [List.map_cons, List.nodup_cons] at hn
    obtain rfl | hj := List.mem_cons.mp hj
    · have hf := foreign_foldl_insertLive hn.1 (w.insertLive job)
      exact (congrArg JobView.live hf).trans (job_insertLive w job)
    · exact ih hn.2 hj (w.insertLive first)

/-- The end of a reload puts every changed definition into the live map. -/
theorem publish_live {n : ℕ} {v : World} {job : JobDef} (hj : job ∈ w.changedJobs cfg)
    (h : run r.fails n (publish r cfg w) v = (.ok, w')) : w'.job job.name = some job := by
  have hfold := job_foldl_insertLive (nodup_changedJobs w cfg) hj
  have hall : ∀ op ∈ publish r cfg w, op.Keeps fun u => u.job job.name = some job :=
    publish_keeps (fun u _ => hfold u) (fun _ _ _ hu => hu) (fun _ hu => hu) fun _ _ hu => hu
  rw [publish, List.cons_append, run_memory_ok] at h
  refine keeps_of_run_ok (I := fun u => u.job job.name = some job) (fun op hop => hall op ?_)
    (hfold v) h
  rw [publish, List.cons_append]
  exact List.mem_cons_of_mem _ hop

/-- What a successful reload does to a changed job. -/
theorem reload_changed {job : JobDef} (hj : job ∈ w.changedJobs cfg)
    (h : run r.fails 0 (reloadScript cal r cfg w) w = (.ok, w')) :
    w'.job job.name = some job ∧
      w'.runsOf job.name = (w.runsOf job.name).map (cancelWaiting r.now) ∧
      ∃ rows, getSchedule rows job.name = w.schedule job.name ∧
        w'.schedule job.name = getSchedule (syncScheduleRow cal job r.now false rows) job.name := by
  obtain ⟨w₁, w₂, n, k, h₁, h₂, h₃⟩ := reloadScript_ok h
  obtain ⟨i, u, u', hu, hv, hv₁⟩ :=
    loop_block (nodup_changedJobs w cfg) (fun _ => foreignTo_applyChanged) hj h₁
  obtain ⟨hruns, hsched⟩ := changed_block hu
  have hin : job.name ∈ cfg.jobs.map JobDef.name :=
    List.mem_map_of_mem (mem_changedJobs.mp hj).1
  have hkeep := (foreignTo_removed (fun hr => (mem_removed.mp hr).2 hin)).view_ok h₂
  have hlast := publish_rows h₃
  have hview : w₂.view job.name = u'.view job.name := hkeep.trans hv₁
  refine ⟨publish_live hj h₃, ?_, u.schedules, congrArg JobView.schedule hv, ?_⟩
  · rw [World.runsOf, hlast.1]
    exact (congrArg JobView.runs hview).trans
      (hruns.trans (congrArg _ (congrArg JobView.runs hv)))
  · rw [World.schedule, hlast.2]
    exact (congrArg JobView.schedule hview).trans hsched

/-- What a successful reload does to a job it neither changes nor removes. -/
theorem reload_untouched (hc : name ∉ (w.changedJobs cfg).map JobDef.name)
    (hr : name ∉ w.removed cfg) (h : run r.fails 0 (reloadScript cal r cfg w) w = (.ok, w')) :
    w'.view name = w.view name := by
  obtain ⟨w₁, w₂, n, k, h₁, h₂, h₃⟩ := reloadScript_ok h
  exact ((foreignTo_publish hc).view_ok h₃).trans
    (((foreignTo_removed hr).view_ok h₂).trans ((foreignTo_changed hc).view_ok h₁))

/-- What a successful reload does to a removed job. -/
theorem reload_removed (hr : name ∈ w.removed cfg)
    (h : run r.fails 0 (reloadScript cal r cfg w) w = (.ok, w')) :
    w'.view name = JobView.gone := by
  obtain ⟨w₁, w₂, n, k, -, h₂, h₃⟩ := reloadScript_ok h
  have hc : name ∉ (w.changedJobs cfg).map JobDef.name := by
    intro hn
    obtain ⟨job, hj, rfl⟩ := List.mem_map.mp hn
    exact (mem_removed.mp hr).2 (List.mem_map_of_mem (mem_changedJobs.mp hj).1)
  exact ((foreignTo_publish hc).view_ok h₃).trans (removed_loop hr h₂)

/-- The stored schedules are those of the live definitions, as every start and every successful
reload leaves them. -/
def World.Mirrored (cal : Calendar) (w : World) : Prop :=
  ∀ name live, w.job name = some live →
    ∃ row, w.schedule name = some row ∧ row.unchanged cal live

theorem not_mem_changedJobs {job live : JobDef} (hj : job ∈ cfg.jobs)
    (hl : w.job job.name = some live) (he : live.eq job) :
    job.name ∉ (w.changedJobs cfg).map JobDef.name := by
  intro hn
  obtain ⟨other, ho, hname⟩ := List.mem_map.mp hn
  obtain ⟨ho, hne⟩ := mem_changedJobs.mp ho
  obtain rfl := List.inj_on_of_nodup_map cfg.nodup ho hj hname
  exact Bool.false_ne_true ((hne live hl).symm.trans he)

theorem mem_liveJobs {live : JobDef} (h : w.job name = some live) :
    name ∈ w.liveJobs.map JobDef.name := by
  obtain ⟨hm, rfl⟩ := lookup_eq_some_mem h
  exact List.mem_map_of_mem hm

/-- Every live definition after a reload is that of the new configuration, up to `==`. -/
theorem reload_live (h : run r.fails 0 (reloadScript cal r cfg w) w = (.ok, w')) :
    (∀ job ∈ cfg.jobs, w'.job job.name = some job ∧ job ∈ w.changedJobs cfg ∨
      ∃ live, w.job job.name = some live ∧ live.eq job ∧ w'.view job.name = w.view job.name) ∧
    ∀ name ∉ cfg.jobs.map JobDef.name, w'.job name = none := by
  constructor
  · intro job hj
    by_cases hc : job ∈ w.changedJobs cfg
    · exact Or.inl ⟨(reload_changed hc h).1, hc⟩
    · have hlive : ∃ live, w.job job.name = some live ∧ live.eq job := by
        by_contra hno
        push Not at hno
        exact hc (mem_changedJobs.mpr ⟨hj, fun live hl => by simpa using hno live hl⟩)
      obtain ⟨live, hl, he⟩ := hlive
      have hr : job.name ∉ w.removed cfg := fun hr =>
        (mem_removed.mp hr).2 (List.mem_map_of_mem hj)
      exact Or.inr ⟨live, hl, he, reload_untouched (not_mem_changedJobs hj hl he) hr h⟩
  · intro name hn
    have hc : name ∉ (w.changedJobs cfg).map JobDef.name := by
      intro hc
      obtain ⟨job, hj, rfl⟩ := List.mem_map.mp hc
      exact hn (List.mem_map_of_mem (mem_changedJobs.mp hj).1)
    by_cases hr : name ∈ w.removed cfg
    · exact congrArg JobView.live (reload_removed hr h)
    · have hv := congrArg JobView.live (reload_untouched hc hr h)
      refine hv.trans (Option.eq_none_iff_forall_ne_some.mpr fun live hl => hr ?_)
      exact mem_removed.mpr ⟨mem_liveJobs hl, hn⟩

theorem runsOf_cancelled_ids (now : Time) (rows : List RunRow) :
    (rows.map (cancelWaiting now)).map RunRow.id = rows.map RunRow.id := by
  rw [List.map_map]
  refine List.map_congr_left fun x _ => ?_
  simp only [Function.comp_apply, cancelWaiting]
  split <;> rfl

/-- No run of any job is created. -/
theorem reload_runs_sublist (h : run r.fails 0 (reloadScript cal r cfg w) w = (.ok, w'))
    (name : String) :
    ((w'.runsOf name).map RunRow.id).Sublist ((w.runsOf name).map RunRow.id) := by
  by_cases hr : name ∈ w.removed cfg
  · have hgone : w'.runsOf name = [] := congrArg JobView.runs (reload_removed hr h)
    simp [hgone]
  · by_cases hc : name ∈ (w.changedJobs cfg).map JobDef.name
    · obtain ⟨job, hj, rfl⟩ := List.mem_map.mp hc
      rw [(reload_changed hj h).2.1, runsOf_cancelled_ids]
    · have hsame : w'.runsOf name = w.runsOf name :=
        congrArg JobView.runs (reload_untouched hc hr h)
      rw [hsame]

theorem ScheduleRow.unchanged_congr {row : ScheduleRow} {a b : JobDef}
    (hs : a.schedule = b.schedule) (ht : a.timezone = b.timezone) :
    row.unchanged cal a = row.unchanged cal b := by
  simp [ScheduleRow.unchanged, hs, ht]

/-- Successful reloads keep the stored schedules in step with the live definitions. -/
theorem mirrored_reload (hm : w.Mirrored cal)
    (h : run r.fails 0 (reloadScript cal r cfg w) w = (.ok, w')) : w'.Mirrored cal := by
  intro name live hl
  by_cases hn : name ∈ cfg.jobs.map JobDef.name
  · obtain ⟨job, hj, rfl⟩ := List.mem_map.mp hn
    obtain ⟨hl', hc⟩ | ⟨old, ho, -, hv⟩ := (reload_live h).1 job hj
    · obtain rfl := Option.some.inj (hl.symm.trans hl')
      obtain ⟨-, -, rows, -, hs⟩ := reload_changed hc h
      obtain ⟨row, hrow, hu⟩ := unchanged_syncScheduleRow cal live r.now false rows
      exact ⟨row, hs.trans hrow, hu⟩
    · have hlive : w'.job job.name = w.job job.name := congrArg JobView.live hv
      obtain ⟨row, hrow, hu⟩ := hm job.name live (hlive ▸ hl)
      exact ⟨row, (congrArg JobView.schedule hv).trans hrow, hu⟩
  · simp [(reload_live h).2 name hn] at hl

/-- What a reload that answers `Ok` has done, job by job. -/
theorem reload_frame {n : ℕ} (hc : r.loaded = .ok cfg) (h : reload cal r w = (some (.ok n), w')) :
    (∀ job ∈ cfg.jobs, ∃ live, w'.job job.name = some live ∧ (live = job ∨ live.eq job)) ∧
      (∀ name ∉ cfg.jobs.map JobDef.name, w'.job name = none) ∧
      (∀ job ∈ cfg.jobs, ∀ live, w.job job.name = some live → live.eq job →
        w'.view job.name = w.view job.name) ∧
      (∀ job ∈ w.changedJobs cfg,
        w'.runsOf job.name = (w.runsOf job.name).map (cancelWaiting r.now)) ∧
      (∀ job ∈ w.changedJobs cfg, ∀ row, w.schedule job.name = some row →
        row.unchanged cal job → ∃ row', w'.schedule job.name = some row' ∧
          row'.nextRun = row.nextRun ∧ row'.anchorAt = row.anchorAt) ∧
      (w.Mirrored cal → w'.Mirrored cal ∧ ∀ job ∈ w.changedJobs cfg, ∀ live row,
        w.job job.name = some live → w.schedule job.name = some row →
        live.schedule = job.schedule → live.timezone = job.timezone →
        ∃ row', w'.schedule job.name = some row' ∧
          row'.nextRun = row.nextRun ∧ row'.anchorAt = row.anchorAt) ∧
      (∀ live ∈ w.liveJobs, live.name ∉ cfg.jobs.map JobDef.name →
        w'.view live.name = JobView.gone) ∧
      ∀ name, ((w'.runsOf name).map RunRow.id).Sublist ((w.runsOf name).map RunRow.id) := by
  obtain ⟨cfg', hc', h⟩ := reload_ok h
  obtain rfl : cfg = cfg' := Except.ok.inj (hc.symm.trans hc')
  have hlive := reload_live h
  have hsched : ∀ job ∈ w.changedJobs cfg, ∀ row, w.schedule job.name = some row →
      row.unchanged cal job → ∃ row', w'.schedule job.name = some row' ∧
        row'.nextRun = row.nextRun ∧ row'.anchorAt = row.anchorAt := by
    intro job hj row hrow hu
    obtain ⟨-, -, rows, hrows, hs⟩ := reload_changed hj h
    obtain ⟨row', hrow', -, htimes⟩ :=
      syncScheduleRow_of_unchanged (hrows.trans hrow) hu r.now false
    exact ⟨row', hs.trans hrow', htimes⟩
  refine ⟨fun job hj => ?_, hlive.2, fun job hj live hl he => ?_,
    fun job hj => (reload_changed hj h).2.1, hsched, fun hm => ⟨mirrored_reload hm h, ?_⟩,
    fun live hl hn => ?_, reload_runs_sublist h⟩
  · obtain ⟨hl, -⟩ | ⟨live, hl, he, hv⟩ := hlive.1 job hj
    · exact ⟨job, hl, Or.inl rfl⟩
    · exact ⟨live, (congrArg JobView.live hv).trans hl, Or.inr he⟩
  · obtain ⟨-, hch⟩ | ⟨-, -, -, hv⟩ := hlive.1 job hj
    · exact absurd (List.mem_map_of_mem hch) (not_mem_changedJobs hj hl he)
    · exact hv
  · intro job hj live row hl hrow hs ht
    obtain ⟨row', hrow', hu⟩ := hm job.name live hl
    obtain rfl := Option.some.inj (hrow'.symm.trans hrow)
    exact hsched job hj row' hrow ((ScheduleRow.unchanged_congr hs ht).symm.trans hu)
  · exact reload_removed (mem_removed.mpr ⟨List.mem_map_of_mem hl, hn⟩) h

/-- A calendar that knows one zone and one text for every schedule kind. -/
def utcOnly : Calendar where
  toJson
    | .interval every => "interval " ++ toString every
    | _ => "other"
  knownZone zone := decide (zone = "UTC")
  nextSlot _ _ _ := some none

def hourly (name rest : String) : JobDef where
  spec := ⟨name, true, .rsync, 3, 60, 0x3ff0000000000000, [0], .retry, [], 1⟩
  worker := none
  upstream := some "rsync://mirror"
  storage := "/srv/" ++ name
  timeout := none
  failOnMatch := none
  statistics := .filesystem
  resources := []
  priority := 0
  schedule := .interval 3600
  timezone := "UTC"
  misfirePolicy := .skip
  cpuLimit := none
  maxDeleteRatio := none
  maxSizeDropRatio := none
  rest := rest

def plainSettings : Settings := ⟨"sqlite", "4", "/var/log", "", "", "", "", "", ""⟩

def noRouting : RoutingSnapshot := ⟨[], [], [], [], none⟩

/-- Three live jobs, `arch` with a run in the queue. -/
def threeMirrors : World where
  tables := (createRun "run" "arch" none .queued 0 50
    { Tables.empty with
      jobs := ["debian", "arch", "old"].map fun name => ⟨name, .pending, "gen-" ++ name⟩ }).2
  columns := ["debian", "arch", "old"].map fun name => (hourly name "").columns 40
  schedules := ["debian", "arch", "old"].map fun name =>
    ⟨name, "interval 3600", "UTC", "skip", some 3640, some 40⟩
  events := [⟨some "old", none, "INFO", "run queued"⟩]
  configHistory := []
  repositories := ["/srv/old"]
  liveJobs := ["debian", "arch", "old"].map fun name => hourly name ""
  jobLocks := ["debian", "arch", "old"]
  routing := noRouting
  settings := plainSettings

/-- `arch` changes, `old` goes and `new` comes. -/
def nextConfig : ResolvedConfig where
  settings := plainSettings
  jobs := [hourly "debian" "", hourly "arch" "proxy", hourly "new" ""]
  routing := noRouting
  nodup := by decide

def reloadNext (fails : ℕ → Option String) : Reload where
  loaded := .ok nextConfig
  now := 100
  ids name := "fresh-" ++ name
  stamps _ := 100
  fails := fails

theorem reload_frame_threeMirrors : ∃ w', reload utcOnly (reloadNext fun _ => none) threeMirrors =
      (some (.ok 3), w') ∧ w'.view "old" = JobView.gone ∧
      w'.runsOf "arch" = (threeMirrors.runsOf "arch").map (cancelWaiting 100) := by
  have h : reload utcOnly (reloadNext fun _ => none) threeMirrors =
      (some (.ok 3), (reload utcOnly (reloadNext fun _ => none) threeMirrors).2) :=
    Prod.ext (by decide +kernel) rfl
  have hc : (reloadNext fun _ => none).loaded = .ok nextConfig := rfl
  obtain ⟨-, -, -, hruns, -, -, hgone, -⟩ := reload_frame hc h
  exact ⟨_, h, hgone (hourly "old" "") (by decide) (by decide),
    hruns (hourly "arch" "proxy") (by decide +kernel)⟩

end Synora.Engine
