import Synora.Standalone.Daemon

namespace Synora.Standalone
open Core Db Engine

/-- What the main thread decides to store next, and where it goes on. -/
inductive Plans (t : Tables) (p : Process) : Main → List Instr → Prop
  | syncNext {job todo} (generation : String) (h : p.main = .syncing (job :: todo)) :
      Plans t p (.syncing todo)
        [.stmt (.syncJob job.name), .stmt (.setConfigGeneration job.name generation)]
  | listJobs (h : p.main = .syncing []) :
      Plans t p (.forgetting ((t.jobs.map JobRow.name).filter fun name =>
        !decide (name ∈ p.jobs.map JobSpec.name))) []
  | forgetNext {name todo} (h : p.main = .forgetting (name :: todo)) :
      Plans t p (.forgetting todo) ((forgetJob name).map .stmt)
  | serve (h : p.main = .forgetting []) : Plans t p .serving []
  | dispatch (d : Decision) (name : String) (forced : Bool) {id : String} (now : Time)
      (hid : t.run id = none) (h : p.main = .serving) :
      Plans t p .serving (dispatchInstrs d name forced id now)
  | listDue (now : Time) (h : p.main = .serving) : Plans t p (.retrying now (dueRetries t now)) []
  | retryDrop {now run due} (at_ : Time) (h : p.main = .retrying now (run :: due)) :
      Plans t p (.retrying now due) ((finishRunStmts run.id disabledCompletion at_).map .stmt)
  | retrySkip {now run due} (h : p.main = .retrying now (run :: due)) :
      Plans t p (.retrying now due) []
  | retryQueue {now run due} (h : p.main = .retrying now (run :: due)) :
      Plans t p (.retrying now due) [.stmt (.updateRun (.requeueRetry run.id run.retryCount now))]
  | retryEnd {now} (h : p.main = .retrying now []) : Plans t p .serving []
  | listQueued (h : p.main = .serving) : Plans t p (.claiming (queuedRuns t localWorker)) []
  | claimUnknown {run todo} (now : Time) (h : p.main = .claiming (run :: todo)) :
      Plans t p (.claiming todo) ((finishRunStmts run.id removedCompletion now).map .stmt)
  | claimPass {run todo} (h : p.main = .claiming (run :: todo)) : Plans t p (.claiming todo) []
  | endTick (h : p.main = .claiming []) : Plans t p .serving []

/-- The steps of a run task that store nothing, as far as its phase goes. -/
inductive TaskMoves (scaleDelay : ℕ → F64 → ℕ → ℕ) (task : Task) : TaskPhase → Prop
  | register (h : task.phase = .starting []) : TaskMoves scaleDelay task .executing
  | finished {outcome durationSecs} (h : task.phase = .executing) :
      TaskMoves scaleDelay task (.ended outcome durationSecs)
  | finish {outcome durationSecs} (retryCount : ℕ) (now : Time)
      (h : task.phase = .ended outcome durationSecs) :
      TaskMoves scaleDelay task (.finishing
        (finishStmts scaleDelay task.runId task.job retryCount outcome durationSecs now))

/-- Everything a step of the daemon can do to the database and to its memory. -/
inductive Moves (scaleDelay : ℕ → F64 → ℕ → ℕ) (s : Daemon) : Action → Daemon → Prop
  | start {cfg} (h : s.proc = none) :
      Moves scaleDelay s (.start cfg) ⟨after s.db (.upsertWorker localWorker), some (.init cfg)⟩
  | stop {a p} (h : s.proc = some p) : Moves scaleDelay s a ⟨s.db, none⟩
  | reload {jobs now p p'} (h : s.proc = some p) :
      Moves scaleDelay s (.reload jobs now) ⟨s.db, some p'⟩
  | flush {p i pending} (h : s.proc = some p) (hp : p.pending = i :: pending) :
      Moves scaleDelay s .flush ⟨i.run s.db, some { p with pending }⟩
  | plan {a p main pending ticked} (h : s.proc = some p) (hp : p.pending = [])
      (hm : Plans s.db p main pending) :
      Moves scaleDelay s a ⟨s.db, some { p with main, pending, ticked }⟩
  | claim {token now p run todo job} (h : s.proc = some p) (hp : p.pending = [])
      (hm : p.main = .claiming (run :: todo))
      (hc : 0 < changed s.db (.updateRun (.claimRun run.id localWorker token now))) :
      Moves scaleDelay s (.claimNext token now)
        ⟨after s.db (.updateRun (.claimRun run.id localWorker token now)), some { p with
          main := .claimed run.id job todo
          pending := [.stmt (.setJobStatus run.jobId .syncing)] }⟩
  | spawn {now p runId job todo} (h : s.proc = some p) (hp : p.pending = [])
      (hm : p.main = .claimed runId job todo) :
      Moves scaleDelay s (.spawn now) ⟨s.db, some { p with
        main := .claiming todo
        tasks := p.tasks ++ [⟨runId, job, .starting (startStmts p.cfg.logDir runId job now)⟩] }⟩
  | storeStarting {i p task q todo} (h : s.proc = some p) (ht : p.tasks[i]? = some task)
      (hq : task.phase = .starting (q :: todo)) :
      Moves scaleDelay s (.taskStore i)
        ⟨after s.db q, some { p with tasks := p.tasks.set i { task with phase := .starting todo } }⟩
  | storeFinishing {i p task q todo} (h : s.proc = some p) (ht : p.tasks[i]? = some task)
      (hq : task.phase = .finishing (q :: todo)) :
      Moves scaleDelay s (.taskStore i)
        ⟨after s.db q, some { p with tasks := p.tasks.set i { task with phase := .finishing todo } }⟩
  | advance {a i p task phase activeRuns} (h : s.proc = some p) (ht : p.tasks[i]? = some task)
      (hm : TaskMoves scaleDelay task phase) :
      Moves scaleDelay s a
        ⟨s.db, some { p with tasks := p.tasks.set i { task with phase }, activeRuns }⟩
  | leave {i p task activeRuns} (h : s.proc = some p) (ht : p.tasks[i]? = some task)
      (hq : task.phase = .finishing []) :
      Moves scaleDelay s (.taskLeave i)
        ⟨s.db, some { p with tasks := p.tasks.eraseIdx i, activeRuns }⟩

section
variable {scaleDelay : ℕ → F64 → ℕ → ℕ}

theorem taskStep_moves {s s' : Daemon} {p : Process} {i : ℕ} {task : Task} {a : Action}
    (hp : s.proc = some p) (ht : p.tasks[i]? = some task) (ha : a.task = some i)
    (h : taskStep scaleDelay s.db p i task a = some s') : Moves scaleDelay s a s' := by
  cases a with
  | taskStore j =>
    obtain rfl : j = i := Option.some.inj ha
    simp only [taskStep] at h
    split at h
    · cases h
      exact .storeStarting hp ht ‹_›
    · cases h
      exact .storeFinishing hp ht ‹_›
    · cases h
  | taskRegister j =>
    simp only [taskStep] at h
    split at h
    · cases h
      exact .advance hp ht (.register ‹_›)
    · cases h
  | taskEnd j outcome durationSecs =>
    simp only [taskStep] at h
    split at h
    · cases h
      exact .advance hp ht (.finished ‹_›)
    · cases h
  | taskFinish j now =>
    simp only [taskStep] at h
    split at h
    · cases h
      exact .advance hp ht (.finish _ _ ‹_›)
    · cases h
  | taskLeave j =>
    obtain rfl : j = i := Option.some.inj ha
    simp only [taskStep] at h
    split at h
    · cases h
      exact .leave hp ht ‹_›
    · cases h
  | _ => cases ha

theorem mainStep_moves {s s' : Daemon} {p : Process} {a : Action} (hp : s.proc = some p)
    (hn : p.pending = []) (h : mainStep s.db p a = some s') : Moves scaleDelay s a s' := by
  cases a with
  | syncNext generation =>
    simp only [mainStep] at h
    split at h
    · cases h
      exact .plan hp hn (.syncNext generation ‹_›)
    · cases h
  | listJobs =>
    simp only [mainStep] at h
    split at h
    · cases h
      exact hn ▸ .plan hp hn (.listJobs ‹_›)
    · cases h
  | forgetNext =>
    simp only [mainStep] at h
    split at h
    · split at h
      · cases h
        exact .plan hp hn (.forgetNext ‹_›)
      · cases h
        exact .stop hp
    · cases h
  | serve =>
    simp only [mainStep] at h
    split at h
    · cases h
      exact hn ▸ .plan hp hn (.serve ‹_›)
    · cases h
  | dispatch name forced id now =>
    simp only [mainStep] at h
    split at h
    · rename_i hm
      split at h
      · cases h
      · rename_i hid
        cases h
        exact hm ▸ .plan hp hn (.dispatch _ name forced now (by simpa using hid) hm)
    · cases h
  | listDue now =>
    simp only [mainStep] at h
    split at h
    · cases h
      exact hn ▸ .plan hp hn (.listDue now ‹_›)
    · cases h
  | retryNext at_ =>
    simp only [mainStep] at h
    split at h
    · split at h
      · cases h
        exact .plan hp hn (.retryDrop at_ ‹_›)
      split at h
      · cases h
        exact hn ▸ .plan hp hn (.retrySkip ‹_›)
      · cases h
        exact .plan hp hn (.retryQueue ‹_›)
    · cases h
  | retryEnd =>
    simp only [mainStep] at h
    split at h
    · cases h
      exact hn ▸ .plan hp hn (.retryEnd ‹_›)
    · cases h
  | listQueued =>
    simp only [mainStep] at h
    split at h
    · cases h
      exact hn ▸ .plan hp hn (.listQueued ‹_›)
    · cases h
  | claimNext token now =>
    simp only [mainStep] at h
    split at h
    · split at h
      · cases h
        exact .plan hp hn (.claimUnknown now ‹_›)
      split at h
      · cases h
        exact .claim hp hn ‹_› ‹_›
      · cases h
        exact hn ▸ .plan hp hn (.claimPass ‹_›)
    · cases h
  | claimSkip =>
    simp only [mainStep] at h
    split at h
    · cases h
      exact hn ▸ .plan hp hn (.claimPass ‹_›)
    · cases h
  | spawn now =>
    simp only [mainStep] at h
    split at h
    · cases h
      exact .spawn hp hn ‹_›
    · cases h
  | endTick =>
    simp only [mainStep] at h
    split at h
    · cases h
      exact hn ▸ .plan hp hn (.endTick ‹_›)
    · cases h
  | reload jobs now =>
    simp only [mainStep] at h
    split at h
    · split at h
      · cases h
        exact .reload hp
      · cases h
    · cases h
  | _ => cases h

theorem step_moves {s s' : Daemon} {a : Action} (h : step scaleDelay s a = some s') :
    Moves scaleDelay s a s' := by
  unfold step at h
  split at h
  · cases h
    exact .start ‹_›
  · cases h
    exact .stop ‹_›
  · rename_i a' p _ _ hp
    split at h
    · rename_i i hi
      obtain ⟨task, ht, h⟩ := Option.bind_eq_some_iff.mp h
      exact taskStep_moves hp ht hi h
    · split at h
      · rename_i i pending hpend
        split at h
        · rename_i ha
          cases h
          subst ha
          exact .flush hp hpend
        · cases h
      · rename_i hpend
        exact mainStep_moves hp hpend h
  · cases h

/-- A daemon starts only while none runs. -/
theorem step_start {s s' : Daemon} {cfg : Config} (h : step scaleDelay s (.start cfg) = some s') :
    s.proc = none ∧ s' = ⟨after s.db (.upsertWorker localWorker), some (.init cfg)⟩ := by
  unfold step at h
  cases hp : s.proc with
  | none =>
    rw [hp] at h
    exact ⟨rfl, (Option.some.inj h).symm⟩
  | some p =>
    rw [hp] at h
    dsimp only [Action.task] at h
    split at h <;> cases h

theorem Instr.run_valid {t : Tables} (h : t.Valid) (i : Instr) : (i.run t).Valid := by
  cases i with
  | stmt q => exact after_valid h q
  | queuedStatus job =>
    simp only [Instr.run]
    split
    · exact after_valid h _
    · exact h

/-- Whatever the daemon does, the database keeps its constraints. -/
theorem step_valid {s s' : Daemon} {a : Action} (hv : s.db.Valid)
    (h : step scaleDelay s a = some s') : s'.db.Valid := by
  cases step_moves h with
  | start | claim | storeStarting | storeFinishing => exact after_valid hv _
  | stop | reload | plan | spawn | advance | leave => exact hv
  | flush => exact Instr.run_valid hv _

theorem exec_valid {history : List Action} {s : Daemon}
    (h : Runs.exec (step scaleDelay) .init history = some s) : s.db.Valid :=
  Runs.exec_invariant (step scaleDelay) (fun s => s.db.Valid) (fun _ _ _ hv hs => step_valid hv hs)
    Tables.empty_valid h

end

end Synora.Standalone
