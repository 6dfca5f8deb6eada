import Synora.Db.SingleActive
import Synora.Lib.Slots
import Synora.Standalone.Steps

namespace Synora.Standalone
open Core Db Engine Slots

/-- The row of a run that a standalone daemon has taken up and not ended. -/
def LocalActive (r : RunRow) : Prop := r.workerId = some localWorker ∧ r.status.isActive

/-- A task of this process executes the run. -/
def Process.Executes (p : Process) (id : String) : Prop := ∃ task ∈ p.tasks, task.runId = id

/-- Every local active row belongs to a task of the process. -/
def Recovered (s : Daemon) : Prop :=
  ∀ p, s.proc = some p → ∀ r ∈ s.db.jobRuns, LocalActive r → p.Executes r.id

/-- The daemon is up: `sync_config` is done, a tick is over, and nothing is left to store. -/
def Booted (s : Daemon) : Prop :=
  ∃ p, s.proc = some p ∧ p.main = .serving ∧ p.pending = [] ∧ p.ticked = true

/-- The actions of a daemon between its start and its end, as long as nobody reloads it. -/
def Action.isBoot : Action → Bool
  | .start _ | .crash | .reload .. => false
  | _ => true

/-! ## What the tasks and the main thread store -/

def Instr.Quiet : Instr → Prop
  | .stmt q => q.quiet
  | .queuedStatus _ => True

/-- The task has still to end its run. -/
def Task.Holding (task : Task) : Prop :=
  match task.phase with
  | .finishing todo => ∃ q ∈ todo, q.Retires task.runId
  | _ => True

/-- A task activates no row but its own, and that before it runs the provider. -/
def Task.WellFormed (task : Task) : Prop :=
  match task.phase with
  | .starting todo =>
    ∀ q ∈ todo, q.quiet ∨ q = .updateRun (.setRunStatus task.runId .running)
  | .finishing todo => ∀ q ∈ todo, q.quiet
  | _ => True

section
variable {scaleDelay : ℕ → F64 → ℕ → ℕ}

theorem finishStmts_retires (id : String) (job : JobSpec) (retryCount : ℕ) (outcome : Outcome)
    (durationSecs : ℤ) (now : Time) :
    ∃ q ∈ finishStmts scaleDelay id job retryCount outcome durationSecs now, q.Retires id := by
  cases outcome with
  | cancelled => exact ⟨_, List.mem_cons_self, rfl, rfl⟩
  | succeeded warnings exitCode sizeAfter bytesTransferred message =>
    exact ⟨_, List.mem_cons_self, rfl, by cases warnings <;> rfl⟩
  | failed kind exitCode message =>
    simp only [finishStmts]
    split
    · exact ⟨_, List.mem_cons_self, rfl⟩
    · exact ⟨_, List.mem_cons_self, rfl, rfl⟩

theorem finishStmts_quiet (id : String) (job : JobSpec) (retryCount : ℕ) (outcome : Outcome)
    (durationSecs : ℤ) (now : Time) :
    ∀ q ∈ finishStmts scaleDelay id job retryCount outcome durationSecs now, q.quiet := by
  cases outcome with
  | cancelled => simp [finishStmts, finishRunStmts, Stmt.quiet, toDb, DbStatus.isActive]
  | succeeded warnings exitCode sizeAfter bytesTransferred message =>
    cases warnings <;> simp [finishStmts, finishRunStmts, Stmt.quiet, toDb, DbStatus.isActive]
  | failed kind exitCode message =>
    simp only [finishStmts]
    split
    · simp [setRetryStmts, setRunStatusStmts, Stmt.quiet, toDb, DbStatus.isActive]
    · simp [finishRunStmts, Stmt.quiet, toDb, DbStatus.isActive]

theorem finishStmts_spares {r : RunRow} {id : String} (hne : id ≠ r.id) (job : JobSpec)
    (retryCount : ℕ) (outcome : Outcome) (durationSecs : ℤ) (now : Time) :
    ∀ q ∈ finishStmts scaleDelay id job retryCount outcome durationSecs now, q.Spares r := by
  cases outcome with
  | cancelled => simp [finishStmts, finishRunStmts, Stmt.Spares, hne]
  | succeeded warnings exitCode sizeAfter bytesTransferred message =>
    simp [finishStmts, finishRunStmts, Stmt.Spares, hne]
  | failed kind exitCode message =>
    simp only [finishStmts]
    split
    · simp [setRetryStmts, setRunStatusStmts, Stmt.Spares, hne]
    · simp [finishRunStmts, Stmt.Spares, hne]

/-- What the main thread plans activates nothing. -/
theorem Plans.quiet {t : Tables} {p : Process} {main : Main} {pending : List Instr}
    (h : Plans t p main pending) : ∀ i ∈ pending, i.Quiet := by
  cases h with
  | dispatch d name forced now hid h =>
    cases d <;> simp [dispatchInstrs, skipStmts, finishRunStmts, skipCompletion, Instr.Quiet,
      Stmt.quiet, toDb, DbStatus.isActive]
  | _ => simp [Instr.Quiet, Stmt.quiet, forgetJob, finishRunStmts, disabledCompletion,
      removedCompletion, toDb, DbStatus.isActive]

/-! ## Rows of the running process -/

/-- Somebody in the process is in charge of the run. -/
def Process.Holds (p : Process) (id : String) : Prop :=
  (∃ task ∈ p.tasks, task.runId = id ∧ task.Holding) ∨ ∃ job todo, p.main = .claimed id job todo

/-- `sync_config` is going to delete the runs of the job. -/
def Process.Doomed (p : Process) (job : String) : Prop :=
  match p.main with
  | .syncing _ => job ∉ p.jobs.map JobSpec.name
  | .forgetting todo => job ∈ todo ∨ .stmt (.deleteRuns job) ∈ p.pending
  | _ => False

structure Tidy (t : Tables) (p : Process) : Prop where
  valid : t.Valid
  rows : ∀ id r, t.run id = some r → LocalActive r → p.Holds id ∨ p.Doomed r.jobId
  pending : ∀ i ∈ p.pending, i.Quiet
  tasks : ∀ task ∈ p.tasks, task.WellFormed

/-- A quiet statement adds no row to the local active ones. -/
theorem Tidy.after_quiet {t : Tables} {p : Process} (h : Tidy t p) {q : Stmt} (hq : q.quiet)
    {id : String} {r' : RunRow} (hr : (after t q).run id = some r') (ha : LocalActive r') :
    p.Holds id ∨ p.Doomed r'.jobId := by
  obtain ⟨r, hr, hact, hw, hj⟩ := quiet_active h.valid hq hr ha.2
  rw [← hj]
  exact h.rows id r hr ⟨hw.trans ha.1, hact⟩

theorem start_tidy {t : Tables} (hv : t.Valid) (cfg : Config)
    (hclean : ∀ r ∈ t.jobRuns, LocalActive r → r.jobId ∉ cfg.jobs.map JobSpec.name) :
    Tidy (after t (.upsertWorker localWorker)) (.init cfg) := by
  refine ⟨after_valid hv _, fun id r' hr ha => Or.inr ?_, by simp [Process.init],
    by simp [Process.init]⟩
  obtain ⟨r, hr, hact, hw, hj⟩ := quiet_active hv rfl hr ha.2
  have hdoomed := hclean r (Tables.run_eq_some hr).1 ⟨hw.trans ha.1, hact⟩
  rw [hj] at hdoomed
  exact hdoomed

/-- A task that changes its phase: others keep their runs, and it keeps its own if it holds it. -/
theorem holds_set {p : Process} {i : ℕ} {task : Task} {phase : TaskPhase} {id : String}
    {activeRuns : List (String × String)} (ht : p.tasks[i]? = some task)
    (hkeep : task.runId = id → task.Holding → ({ task with phase } : Task).Holding)
    (h : p.Holds id) :
    ({ p with tasks := p.tasks.set i { task with phase }, activeRuns } : Process).Holds id := by
  rcases h with ⟨task', hmem, hid, hhold⟩ | ⟨job, todo, hm⟩
  · left
    by_cases heq : task' = task
    · subst heq
      exact ⟨_, mem_set_self ht { task' with phase }, hid, hkeep hid hhold⟩
    · exact ⟨task', mem_set_of_ne _ hmem ht heq, hid, hhold⟩
  · exact Or.inr ⟨job, todo, hm⟩

/-- The main thread changes its mind about what to do next, not about who holds what. -/
theorem Tidy.plan {t : Tables} {p : Process} {main : Main} {pending : List Instr} {ticked : Bool}
    (h : Tidy t p) (hp : p.pending = []) (hm : Plans t p main pending) :
    Tidy t { p with main, pending, ticked } := by
  refine ⟨h.valid, fun id r hr ha => ?_, hm.quiet, h.tasks⟩
  have hholds : p.Holds id → ({ p with main, pending, ticked } : Process).Holds id := by
    rintro (htask | ⟨job, todo, hc⟩)
    · exact Or.inl htask
    · cases hm <;> rename_i hmain <;> rw [hmain] at hc <;> cases hc
  refine (h.rows id r hr ha).imp hholds fun hd => ?_
  cases hm with
  | syncNext generation hmain =>
    rw [Process.Doomed, hmain] at hd
    exact hd
  | listJobs hmain =>
    -- The runs of an unknown job have its row, so its name is listed.
    rw [Process.Doomed, hmain] at hd
    left
    exact List.mem_filter.mpr
      ⟨h.valid.runJobs r (Tables.run_eq_some hr).1, by simpa using hd⟩
  | forgetNext hmain =>
    rw [Process.Doomed, hmain, hp] at hd
    rcases hd with hd | hd
    · rcases List.mem_cons.mp hd with hd | hd
      · right
        rw [hd]
        simp [forgetJob]
      · exact Or.inl hd
    · cases hd
  | serve hmain =>
    rw [Process.Doomed, hmain, hp] at hd
    rcases hd with hd | hd <;> cases hd
  | _ =>
    rename_i hmain
    rw [Process.Doomed, hmain] at hd
    cases hd

theorem Tidy.flush {t : Tables} {p : Process} {i : Instr} {pending : List Instr} (h : Tidy t p)
    (hp : p.pending = i :: pending) : Tidy (i.run t) { p with pending } := by
  have hquiet := h.pending i (by rw [hp]; exact List.mem_cons_self)
  have hrest : ∀ j ∈ pending, j.Quiet := fun j hj =>
    h.pending j (by rw [hp]; exact List.mem_cons_of_mem _ hj)
  refine ⟨Instr.run_valid h.valid i, fun id r hr ha => ?_, hrest, h.tasks⟩
  have hrows : p.Holds id ∨ p.Doomed r.jobId := by
    cases i with
    | stmt q => exact h.after_quiet hquiet hr ha
    | queuedStatus job =>
      simp only [Instr.run] at hr
      split at hr
      · exact h.after_quiet rfl hr ha
      · exact h.rows id r hr ha
  refine hrows.imp (fun hh => hh) fun hd => ?_
  unfold Process.Doomed at hd ⊢
  dsimp only
  split at hd
  · exact hd
  · rw [hp] at hd
    rcases hd with hd | hd
    · exact Or.inl hd
    · rcases List.mem_cons.mp hd with rfl | hd
      · -- The statement that was to delete the run has just done it.
        exfalso
        rw [Instr.run, after_of_valid (q := .deleteRuns r.jobId)
          (deleteRuns_valid h.valid r.jobId)] at hr
        have hmem := (Tables.run_eq_some hr).1
        simp [Stmt.effect, deleteRuns] at hmem
      · exact Or.inr hd
  · exact hd

theorem Tidy.claim {t : Tables} {p : Process} {run : RunRow} {todo : List RunRow}
    (h : Tidy t p) (hm : p.main = .claiming (run :: todo)) (token : String) (now : Time)
    (job : JobSpec) :
    Tidy (after t (.updateRun (.claimRun run.id localWorker token now))) { p with
      main := .claimed run.id job todo
      pending := [.stmt (.setJobStatus run.jobId .syncing)] } := by
  refine ⟨after_valid h.valid _, fun id r hr hact => Or.inl ?_, by simp [Instr.Quiet, Stmt.quiet],
    h.tasks⟩
  by_cases hid : id = run.id
  · exact Or.inr ⟨job, todo, by rw [hid]⟩
  · change (after t (Db.claim run.id localWorker token now)).run id = some r at hr
    rw [run_after_claim_ne _ _ _ _ hid] at hr
    rcases h.rows id r hr hact with (htask | ⟨job', todo', hmain⟩) | hd
    · exact Or.inl htask
    · rw [hm] at hmain
      cases hmain
    · rw [Process.Doomed, hm] at hd
      cases hd

/-- The main thread hands the run over to its task. -/
theorem Tidy.spawn {t : Tables} {p : Process} {runId : String} {job : JobSpec}
    {todo : List RunRow} (h : Tidy t p) (hm : p.main = .claimed runId job todo) (now : Time) :
    Tidy t { p with
      main := .claiming todo
      tasks := p.tasks ++ [⟨runId, job, .starting (startStmts p.cfg.logDir runId job now)⟩] } := by
  refine ⟨h.valid, fun id r hr hact => Or.inl ?_, h.pending, ?_⟩
  · rcases h.rows id r hr hact with (⟨task, hmem, hrest⟩ | ⟨job', todo', hmain⟩) | hd
    · exact Or.inl ⟨task, List.mem_append_left _ hmem, hrest⟩
    · rw [hm] at hmain
      cases hmain
      exact Or.inl ⟨_, List.mem_append_right _ (List.mem_singleton_self _), rfl, trivial⟩
    · rw [Process.Doomed, hm] at hd
      cases hd
  · refine List.forall_mem_append.mpr ⟨h.tasks, ?_⟩
    simp [Task.WellFormed, startStmts, setRunStatusStmts, Stmt.quiet]

theorem Tidy.storeStarting {t : Tables} {p : Process} {i : ℕ} {task : Task} {q : Stmt}
    {todo : List Stmt} (h : Tidy t p) (ht : p.tasks[i]? = some task)
    (hq : task.phase = .starting (q :: todo)) :
    Tidy (after t q) { p with tasks := p.tasks.set i { task with phase := .starting todo } } := by
  have hwf := h.tasks task (List.mem_of_getElem? ht)
  rw [Task.WellFormed, hq] at hwf
  have hset (id : String) (hh : p.Holds id) :
      ({ p with tasks := p.tasks.set i { task with phase := .starting todo } } : Process).Holds
        id := holds_set ht (fun _ _ => trivial) hh
  refine ⟨after_valid h.valid _, fun id r hr hact => ?_, h.pending,
    forall_mem_set h.tasks fun q' hq' => hwf q' (List.mem_cons_of_mem _ hq')⟩
  rcases hwf q List.mem_cons_self with hquiet | rfl
  · exact (h.after_quiet hquiet hr hact).imp (hset id) (fun hd => hd)
  · -- The one statement that is not quiet activates the row of the task itself.
    by_cases hid : id = task.runId
    · exact Or.inl (Or.inl ⟨_, mem_set_self ht _, hid.symm, trivial⟩)
    · rw [run_after_ne (fun r hg => by simpa [RunStmt.update, setRunStatus] using hg) hid] at hr
      exact (h.rows id r hr hact).imp (hset id) (fun hd => hd)

theorem Tidy.storeFinishing {t : Tables} {p : Process} {i : ℕ} {task : Task} {q : Stmt}
    {todo : List Stmt} (h : Tidy t p) (ht : p.tasks[i]? = some task)
    (hq : task.phase = .finishing (q :: todo)) :
    Tidy (after t q) { p with tasks := p.tasks.set i { task with phase := .finishing todo } } := by
  have hwf := h.tasks task (List.mem_of_getElem? ht)
  rw [Task.WellFormed, hq] at hwf
  refine ⟨after_valid h.valid _, fun id r hr hact => ?_, h.pending,
    forall_mem_set h.tasks fun q' hq' => hwf q' (List.mem_cons_of_mem _ hq')⟩
  refine (h.after_quiet (hwf q List.mem_cons_self) hr hact).imp (fun hh => ?_) (fun hd => hd)
  refine holds_set ht (fun hid hhold => ?_) hh
  rw [Task.Holding, hq] at hhold
  obtain ⟨q', hmem, hret⟩ := hhold
  rcases List.mem_cons.mp hmem with rfl | hmem
  · -- The run has just been ended, so its row is not active.
    rw [hid] at hret
    exact absurd ⟨r, hr, hact.2⟩ (hret.not_active h.valid)
  · exact ⟨q', hmem, hret⟩

theorem Tidy.advance {t : Tables} {p : Process} {i : ℕ} {task : Task} {phase : TaskPhase}
    {activeRuns : List (String × String)} (h : Tidy t p) (ht : p.tasks[i]? = some task)
    (hm : TaskMoves scaleDelay task phase) :
    Tidy t { p with tasks := p.tasks.set i { task with phase }, activeRuns } := by
  have hnew : ({ task with phase } : Task).Holding ∧ ({ task with phase } : Task).WellFormed := by
    cases hm with
    | register | finished => exact ⟨trivial, trivial⟩
    | finish retryCount now =>
      exact ⟨finishStmts_retires _ _ _ _ _ _, finishStmts_quiet _ _ _ _ _ _⟩
  refine ⟨h.valid, fun id r hr hact => ?_, h.pending, forall_mem_set h.tasks hnew.2⟩
  exact (h.rows id r hr hact).imp (holds_set ht fun _ _ => hnew.1) (fun hd => hd)

/-- A task leaves with nothing left to end. -/
theorem Tidy.leave {t : Tables} {p : Process} {i : ℕ} {task : Task}
    {activeRuns : List (String × String)} (h : Tidy t p) (ht : p.tasks[i]? = some task)
    (hq : task.phase = .finishing []) :
    Tidy t { p with tasks := p.tasks.eraseIdx i, activeRuns } := by
  refine ⟨h.valid, fun id r hr hact => ?_, h.pending,
    fun task' hmem => h.tasks task' (List.mem_of_mem_eraseIdx hmem)⟩
  refine (h.rows id r hr hact).imp (fun hh => ?_) (fun hd => hd)
  rcases hh with ⟨task', hmem, hid, hhold⟩ | hmain
  · left
    rcases eq_or_mem_eraseIdx ht hmem with rfl | hmem
    · rw [Task.Holding, hq] at hhold
      obtain ⟨q, hnil, -⟩ := hhold
      cases hnil
    · exact ⟨task', hmem, hid, hhold⟩
  · exact Or.inr hmain

theorem Tidy.step {s s' : Daemon} {a : Action} (h : ∀ p, s.proc = some p → Tidy s.db p)
    (ha : a.isBoot) (hs : step scaleDelay s a = some s') : ∀ p, s'.proc = some p → Tidy s'.db p := by
  intro p' hp'
  cases step_moves hs with
  | start | reload => cases ha
  | stop => cases hp'
  | flush hp hpend => cases hp'; exact (h _ hp).flush hpend
  | plan hp hpend hm => cases hp'; exact (h _ hp).plan hpend hm
  | claim hp hpend hm hc => cases hp'; exact (h _ hp).claim hm _ _ _
  | spawn hp hpend hm => cases hp'; exact (h _ hp).spawn hm _
  | storeStarting hp ht hq => cases hp'; exact (h _ hp).storeStarting ht hq
  | storeFinishing hp ht hq => cases hp'; exact (h _ hp).storeFinishing ht hq
  | advance hp ht hm => cases hp'; exact (h _ hp).advance ht hm
  | leave hp ht hq => cases hp'; exact (h _ hp).leave ht hq

/-! ## Rows of a process that is gone -/

/-- The main thread is not going to touch the row. -/
def Main.Avoids (r : RunRow) : Main → Prop
  | .syncing _ | .serving => True
  | .forgetting todo => r.jobId ∉ todo
  | .retrying _ runs | .claiming runs => ∀ run ∈ runs, run.id ≠ r.id
  | .claimed runId _ todo => runId ≠ r.id ∧ ∀ run ∈ todo, run.id ≠ r.id

/-- The row `r` is left over: nobody in the process executes it or is going to write to it. -/
structure Abandoned (r : RunRow) (t : Tables) (p : Process) : Prop where
  valid : t.Valid
  row : t.run r.id = some r
  live : r.jobId ∈ p.jobs.map JobSpec.name
  pending : ∀ q, .stmt q ∈ p.pending → q.Spares r
  main : p.main.Avoids r
  tasks : ∀ task ∈ p.tasks, task.runId ≠ r.id ∧ ∀ q ∈ task.todo, q.Spares r

/-- Rows that a query lists with a status that is not active. -/
theorem runsWhere_avoids {t : Tables} {r : RunRow} {f : RunRow → Bool} (hr : t.run r.id = some r)
    (hv : t.Valid) (hf : f r = false) : ∀ run ∈ runsWhere t f, run.id ≠ r.id := by
  intro run hmem hid
  obtain ⟨hrun, hp⟩ := mem_runsWhere.mp hmem
  have heq := hv.run_of_mem hrun
  rw [hid, hr] at heq
  rw [← Option.some.inj heq, hf] at hp
  cases hp

theorem start_abandoned {t : Tables} {r : RunRow} (hv : t.Valid) (cfg : Config)
    (hr : t.run r.id = some r) (ha : r.status.isActive)
    (hlive : r.jobId ∈ cfg.jobs.map JobSpec.name) :
    Abandoned r (after t (.upsertWorker localWorker)) (.init cfg) :=
  ⟨after_valid hv _, Stmt.Spares.run hv (q := .upsertWorker localWorker) trivial hr ha, hlive,
    by simp [Process.init], trivial, by simp [Process.init]⟩

theorem Abandoned.plan {t : Tables} {p : Process} {r : RunRow} {main : Main}
    {pending : List Instr} {ticked : Bool} (ha : r.status.isActive) (h : Abandoned r t p)
    (hm : Plans t p main pending) : Abandoned r t { p with main, pending, ticked } := by
  have hmain := h.main
  have hnew : main.Avoids r ∧ ∀ q, Instr.stmt q ∈ pending → q.Spares r := by
    cases hm with
    | syncNext generation hp => exact ⟨trivial, by simp [Stmt.Spares]⟩
    | listJobs hp =>
      refine ⟨?_, by simp⟩
      simp only [Main.Avoids, List.mem_filter, Bool.not_eq_true', decide_eq_false_iff_not, not_and,
        not_not]
      exact fun _ => h.live
    | forgetNext hp =>
      rw [hp] at hmain
      simp only [Main.Avoids, List.mem_cons, not_or] at hmain
      refine ⟨hmain.2, ?_⟩
      simpa [forgetJob, Stmt.Spares] using Ne.symm hmain.1
    | serve hp => exact ⟨trivial, by simp⟩
    | @dispatch d name forced id now hid hp =>
      have hne : id ≠ r.id := by
        rintro rfl
        rw [h.row] at hid
        cases hid
      refine ⟨trivial, ?_⟩
      cases d <;> simp [dispatchInstrs, skipStmts, finishRunStmts, Stmt.Spares, hne]
    | listDue now hp =>
      refine ⟨runsWhere_avoids h.row h.valid ?_, by simp⟩
      cases hs : r.status <;> rw [hs] at ha <;> first | rfl | cases ha
    | retryDrop at_ hp =>
      rw [hp] at hmain
      simp only [Main.Avoids, List.forall_mem_cons] at hmain
      exact ⟨hmain.2, by simpa [finishRunStmts, Stmt.Spares] using hmain.1⟩
    | retrySkip hp =>
      rw [hp] at hmain
      exact ⟨(List.forall_mem_cons.mp hmain).2, by simp⟩
    | retryQueue hp =>
      rw [hp] at hmain
      exact ⟨(List.forall_mem_cons.mp hmain).2, by simp [Stmt.Spares]⟩
    | retryEnd hp => exact ⟨trivial, by simp⟩
    | listQueued hp =>
      refine ⟨runsWhere_avoids h.row h.valid ?_, by simp⟩
      cases hs : r.status <;> rw [hs] at ha <;> first | rfl | cases ha
    | claimUnknown now hp =>
      rw [hp] at hmain
      simp only [Main.Avoids, List.forall_mem_cons] at hmain
      exact ⟨hmain.2, by simpa [finishRunStmts, Stmt.Spares] using hmain.1⟩
    | claimPass hp =>
      rw [hp] at hmain
      exact ⟨(List.forall_mem_cons.mp hmain).2, by simp⟩
    | endTick hp => exact ⟨trivial, by simp⟩
  exact ⟨h.valid, h.row, h.live, hnew.2, hnew.1, h.tasks⟩

theorem Abandoned.step {s s' : Daemon} {r : RunRow} {a : Action} (hact : r.status.isActive)
    (h : ∀ p, s.proc = some p → Abandoned r s.db p) (ha : a.isBoot)
    (hs : step scaleDelay s a = some s') : ∀ p, s'.proc = some p → Abandoned r s'.db p := by
  intro p' hp'
  -- The row and its constraints survive a statement that spares it.
  have hstore {p : Process} (hinv : Abandoned r s.db p) {q : Stmt} (hq : q.Spares r) :
      (after s.db q).Valid ∧ (after s.db q).run r.id = some r :=
    ⟨after_valid hinv.valid q, hq.run hinv.valid hinv.row hact⟩
  have hset {p : Process} (hinv : Abandoned r s.db p) {i : ℕ} {task task' : Task}
      (ht : p.tasks[i]? = some task) (hid : task'.runId = task.runId)
      (htodo : ∀ q ∈ task'.todo, q.Spares r) :
      ∀ x ∈ p.tasks.set i task', x.runId ≠ r.id ∧ ∀ q ∈ x.todo, q.Spares r :=
    forall_mem_set hinv.tasks ⟨hid ▸ (hinv.tasks task (List.mem_of_getElem? ht)).1, htodo⟩
  cases step_moves hs with
  | start | reload => cases ha
  | stop => cases hp'
  | @flush p i pending hp hpend =>
    cases hp'
    have hinv := h p hp
    have hrest : ∀ q, Instr.stmt q ∈ pending → q.Spares r := fun q hq =>
      hinv.pending q (by rw [hpend]; exact List.mem_cons_of_mem _ hq)
    have hrun : (i.run s.db).Valid ∧ (i.run s.db).run r.id = some r := by
      cases i with
      | stmt q => exact hstore hinv (hinv.pending q (by rw [hpend]; exact List.mem_cons_self))
      | queuedStatus job =>
        simp only [Instr.run]
        split
        · exact hstore hinv (q := .setJobStatus job .queued) trivial
        · exact ⟨hinv.valid, hinv.row⟩
    exact ⟨hrun.1, hrun.2, hinv.live, hrest, hinv.main, hinv.tasks⟩
  | plan hp hpend hm =>
    cases hp'
    exact (h _ hp).plan hact hm
  | @claim token now p run todo job hp hpend hm hc =>
    cases hp'
    have hinv := h p hp
    obtain ⟨hv, hrow⟩ :=
      hstore hinv (q := .updateRun (.claimRun run.id localWorker token now)) trivial
    have hmain := hinv.main
    rw [hm] at hmain
    exact ⟨hv, hrow, hinv.live, by simp [Stmt.Spares], List.forall_mem_cons.mp hmain, hinv.tasks⟩
  | @spawn now p runId job todo hp hpend hm =>
    cases hp'
    have hinv := h p hp
    have hmain := hinv.main
    rw [hm] at hmain
    refine ⟨hinv.valid, hinv.row, hinv.live, hinv.pending, hmain.2,
      List.forall_mem_append.mpr ⟨hinv.tasks, ?_⟩⟩
    simpa [Task.todo, startStmts, setRunStatusStmts, Stmt.Spares] using hmain.1
  | @storeStarting i p task q todo hp ht hq | @storeFinishing i p task q todo hp ht hq =>
    cases hp'
    have hinv := h p hp
    have htodo := (hinv.tasks task (List.mem_of_getElem? ht)).2
    rw [Task.todo, hq] at htodo
    obtain ⟨hv, hrow⟩ := hstore hinv (htodo q List.mem_cons_self)
    exact ⟨hv, hrow, hinv.live, hinv.pending, hinv.main,
      hset hinv ht rfl fun q' hq' => htodo q' (List.mem_cons_of_mem _ hq')⟩
  | @advance _ i p task phase activeRuns hp ht hm =>
    cases hp'
    have hinv := h p hp
    refine ⟨hinv.valid, hinv.row, hinv.live, hinv.pending, hinv.main, hset hinv ht rfl ?_⟩
    cases hm with
    | register | finished => exact fun q hq => by cases hq
    | finish retryCount now =>
      exact finishStmts_spares (hinv.tasks task (List.mem_of_getElem? ht)).1 _ _ _ _ _
  | @leave i p task activeRuns hp ht hq =>
    cases hp'
    have hinv := h p hp
    exact ⟨hinv.valid, hinv.row, hinv.live, hinv.pending, hinv.main,
      fun x hx => hinv.tasks x (List.mem_of_mem_eraseIdx hx)⟩

/-- What holds right after the start and survives every boot step holds once the daemon is up. -/
theorem boot_invariant {I : Tables → Process → Prop} {s s' : Daemon} {cfg : Config}
    {boot : List Action} (hboot : ∀ a ∈ boot, a.isBoot)
    (hstart : I (after s.db (.upsertWorker localWorker)) (.init cfg))
    (hstep : ∀ s a s', (∀ p, s.proc = some p → I s.db p) → a.isBoot →
      step scaleDelay s a = some s' → ∀ p, s'.proc = some p → I s'.db p)
    (h : Runs.exec (step scaleDelay) s (.start cfg :: boot) = some s') :
    ∀ p, s'.proc = some p → I s'.db p := by
  obtain ⟨s₁, h₁, h⟩ := (Runs.exec_cons_eq_some _).mp h
  refine Runs.exec_invariant_along (step scaleDelay) (fun _ a => a.isBoot)
    (fun s => ∀ p, s.proc = some p → I s.db p) (fun s a s' ha hi hs => hstep s a s' hi ha hs) ?_
    (Runs.along_of_forall (step scaleDelay) (fun a ha _ => hboot a ha) s₁) h
  intro p hp
  obtain ⟨-, rfl⟩ := step_start h₁
  cases hp
  exact hstart

end

/-- The boot recovers everything that a daemon left behind exactly when no local active row of a
job that is still configured was left: nothing in the boot path looks for such a row. -/
theorem recovered_iff (scaleDelay : ℕ → F64 → ℕ → ℕ) (history : List Action) (s : Daemon)
    (hs : Runs.exec (step scaleDelay) .init history = some s) (cfg : Config)
    (boot : List Action) (hboot : ∀ a ∈ boot, a.isBoot) (s' : Daemon)
    (h : Runs.exec (step scaleDelay) s (.start cfg :: boot) = some s') (hup : Booted s') :
    Recovered s' ↔ ∀ r ∈ s.db.jobRuns, LocalActive r → r.jobId ∉ cfg.jobs.map JobSpec.name := by
  have hv := exec_valid hs
  obtain ⟨p, hp, hmain, hpend, -⟩ := hup
  constructor
  · intro hrec r hr ha hlive
    have hdead := boot_invariant hboot (start_abandoned hv cfg (hv.run_of_mem hr) ha.2 hlive)
      (fun s a s' hi hb hs => Abandoned.step ha.2 hi hb hs) h p hp
    obtain ⟨task, hmem, hid⟩ := hrec p hp r (Tables.run_eq_some hdead.row).1 ha
    exact (hdead.tasks task hmem).1 hid
  · intro hclean p' hp' r hr ha
    obtain rfl : p' = p := Option.some.inj (hp'.symm.trans hp)
    have htidy := boot_invariant hboot (start_tidy hv cfg hclean)
      (fun s a s' hi hb hs => Tidy.step hi hb hs) h p' hp
    rcases htidy.rows r.id r (htidy.valid.run_of_mem hr) ha with
      (⟨task, hmem, hid, -⟩ | ⟨job, todo, hclaimed⟩) | hdoomed
    · exact ⟨task, hmem, hid⟩
    · rw [hmain] at hclaimed
      cases hclaimed
    · rw [Process.Doomed, hmain] at hdoomed
      cases hdoomed

/-- One job without dependencies or retries. -/
def oneJob : Config where
  jobs := [⟨"j", true, .rsync, 0, 60, 0, [], .retry, [], 1⟩]
  logDir := "/var/log/synora"

/-- `sync_config` of that job. -/
def syncOneJob (generation : String) : List Action :=
  [.syncNext generation, .flush, .flush, .listJobs, .serve]

/-- The first daemon queues a run and is killed before it claims it. -/
def killedQueued : List Action :=
  .start oneJob :: syncOneJob "g" ++ [.dispatch "j" false "r" 0, .flush, .flush, .crash]

/-- What the next daemon does up to the end of its first tick. -/
def bootQueued : List Action :=
  syncOneJob "h" ++ [.listQueued, .claimNext "t" 1, .flush, .spawn 1, .endTick]

theorem booted_of_any {s : Daemon}
    (h : s.proc.any fun p => decide (p.main = .serving ∧ p.pending = [] ∧ p.ticked = true)) :
    Booted s := by
  obtain ⟨p, hp, hup⟩ := (Option.any_eq_true _ _).mp h
  exact ⟨p, hp, by simpa using hup⟩

theorem recovered_iff_killedQueued :
    ∃ s s', Runs.exec (step fun _ _ _ => 0) .init killedQueued = some s ∧
      Runs.exec (step fun _ _ _ => 0) s (.start oneJob :: bootQueued) = some s' ∧
      Booted s' ∧ Recovered s' := by
  have heval : (Runs.exec (step fun _ _ _ => 0) .init killedQueued).any (fun s =>
      s.db.jobRuns.all (fun r => !r.status.isActive) &&
      (Runs.exec (step fun _ _ _ => 0) s (.start oneJob :: bootQueued)).any fun s' =>
        s'.proc.any fun p => decide (p.main = .serving ∧ p.pending = [] ∧ p.ticked = true)) =
      true := by decide +kernel
  obtain ⟨s, hs, hrest⟩ := (Option.any_eq_true _ _).mp heval
  rw [Bool.and_eq_true] at hrest
  obtain ⟨s', hs', hany⟩ := (Option.any_eq_true _ _).mp hrest.2
  have hup := booted_of_any hany
  refine ⟨s, s', hs, hs', hup, ?_⟩
  refine (recovered_iff _ _ s hs oneJob bootQueued (by decide) s' hs' hup).mpr fun r hr ha => ?_
  have hidle := List.all_eq_true.mp hrest.1 r hr
  rw [ha.2] at hidle
  cases hidle

/-- The first daemon is killed right after it has claimed its run. -/
def killedClaimed : List Action :=
  .start oneJob :: syncOneJob "g" ++ [.dispatch "j" false "r" 0, .flush, .flush, .listQueued,
    .claimNext "t" 1, .crash]

/-- The next daemon does not execute the run, and takes it for one in flight. -/
theorem claimed_run_abandoned :
    ∃ s s', Runs.exec (step fun _ _ _ => 0) .init killedClaimed = some s ∧
      Runs.exec (step fun _ _ _ => 0) s
        (.start oneJob :: (syncOneJob "h" ++ [.listQueued, .endTick])) = some s' ∧
      Booted s' ∧ ¬Recovered s' ∧
      dispatchCurrent s'.db oneJob.jobs "j" true = .existing "r" := by
  have heval : (Runs.exec (step fun _ _ _ => 0) .init (killedClaimed ++
      (.start oneJob :: (syncOneJob "h" ++ [.listQueued, .endTick])))).any (fun s' =>
        (s'.proc.any fun p => decide (p.main = .serving ∧ p.pending = [] ∧ p.ticked = true)) &&
        (s'.proc.all fun p => decide (p.tasks = [])) &&
        (s'.db.jobRuns.any fun r => decide (r.workerId = some localWorker) && r.status.isActive) &&
        decide (dispatchCurrent s'.db oneJob.jobs "j" true = .existing "r")) = true := by
    decide +kernel
  obtain ⟨s', hexec, hobs⟩ := (Option.any_eq_true _ _).mp heval
  obtain ⟨s, hs, hs'⟩ := (Runs.exec_append_eq_some _).mp hexec
  simp only [Bool.and_eq_true, decide_eq_true_eq] at hobs
  obtain ⟨⟨⟨hup, hnone⟩, hrow⟩, hdispatch⟩ := hobs
  refine ⟨s, s', hs, hs', booted_of_any hup, fun hrec => ?_, hdispatch⟩
  obtain ⟨p, hp, -⟩ := booted_of_any hup
  obtain ⟨r, hr, ha⟩ := List.any_eq_true.mp hrow
  simp only [Bool.and_eq_true, decide_eq_true_eq] at ha
  obtain ⟨task, hmem, -⟩ := hrec p hp r hr ha
  simp only [hp, Option.all_some, decide_eq_true_eq] at hnone
  rw [hnone] at hmem
  cases hmem

end Synora.Standalone
