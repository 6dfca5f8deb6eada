import Synora.Lib.Dependency
import Synora.Standalone.Steps

namespace Synora.Standalone
open Core Db Engine Table Runs

/-! # Runs that succeed one after the other -/

/-- One run more than in `t₀`, with the same jobs and workers. -/
structure Grown (t₀ t : Tables) (r : RunRow) : Prop where
  valid : t.Valid
  runs : t.jobRuns = t₀.jobRuns ++ [r]
  names : t.jobs.map JobRow.name = t₀.jobs.map JobRow.name
  workers : t.workers = t₀.workers

/-- The statements of a run that do not touch `job_runs`. -/
def isSide : Stmt → Bool
  | .setJobStatus .. | .setJobStatusForRun _ | .insertLogWith .. => true
  | _ => false

section
variable {t₀ t : Tables} {r : RunRow}

theorem side_effect {q : Stmt} (hq : isSide q) (t : Tables) :
    (q.effect t).2.jobRuns = t.jobRuns ∧ (q.effect t).2.workers = t.workers ∧
      (q.effect t).2.jobs.map JobRow.name = t.jobs.map JobRow.name := by
  have hnames (p : JobRow → Bool) (f : JobRow → JobRow) (hf : ∀ j, (f j).name = j.name) :
      (update p f t.jobs).map JobRow.name = t.jobs.map JobRow.name := map_key_update t.jobs hf
  cases q with
  | setJobStatus name status => exact ⟨rfl, rfl, hnames _ _ fun _ => rfl⟩
  | setJobStatusForRun id =>
    have heffect : (Stmt.setJobStatusForRun id).effect t = setJobStatusForRun id t := rfl
    rw [heffect, setJobStatusForRun]
    cases t.run id with
    | none => exact ⟨rfl, rfl, rfl⟩
    | some run => exact ⟨rfl, rfl, hnames _ _ fun _ => rfl⟩
  | insertLogWith runId job path content now =>
    have heffect : (Stmt.insertLogWith runId job path content now).effect t =
        insertLogWith runId job path content now t := rfl
    rw [heffect, insertLogWith]
    split <;> exact ⟨rfl, rfl, rfl⟩
  | _ => cases hq

theorem Grown.side (h : Grown t₀ t r) {q : Stmt} (hq : isSide q) : Grown t₀ (after t q) r := by
  obtain ⟨hruns, hworkers, hnames⟩ := side_effect hq t
  obtain ⟨he, -, hv⟩ | ⟨he, -⟩ := after_eq t q
  · rw [he]
    exact ⟨hv, hruns.trans h.runs, hnames.trans h.names, hworkers.trans h.workers⟩
  · rw [he]
    exact h

/-- No constraint objects to a new row that is the only active one. -/
theorem valid_concat (hv : t.Valid) (hid : ∀ x ∈ t.jobRuns, x.id ≠ r.id)
    (hjob : r.jobId ∈ t.jobs.map JobRow.name)
    (hworker : ∀ w ∈ r.workerId, w ∈ t.workers.map WorkerRow.id)
    (hidle : ∀ x ∈ t.jobRuns, x.status.isActive = false) :
    ({ t with jobRuns := t.jobRuns ++ [r] } : Tables).Valid := by
  refine ⟨hv.jobNames, hv.workerIds, ?_, hv.logIds, ?_, ?_, ?_⟩
  · rw [List.map_append, List.nodup_append]
    refine ⟨hv.runIds, List.nodup_singleton _, ?_⟩
    intro id hmem id' hr heq
    obtain ⟨x, hx, rfl⟩ := List.mem_map.mp hmem
    exact hid x hx (heq.trans (List.mem_singleton.mp hr))
  · intro x hx
    rcases List.mem_append.mp hx with hx | hx
    · exact hv.runJobs x hx
    · rwa [List.mem_singleton.mp hx]
  · intro x hx
    rcases List.mem_append.mp hx with hx | hx
    · exact hv.runWorkers x hx
    · rwa [List.mem_singleton.mp hx]
  · have hnone : t.jobRuns.filter (fun x => x.status.isActive) = [] :=
      List.filter_eq_nil_iff.mpr fun x hx => by rw [hidle x hx]; decide
    unfold Tables.OneActiveRunPerJob UniqueWhere
    rw [List.filter_append, hnone, List.nil_append, List.filter_singleton]
    cases r.status.isActive <;> simp

theorem Grown.fresh (h : Grown t₀ t r) : ∀ x ∈ t₀.jobRuns, x.id ≠ r.id := by
  have hids := h.valid.runIds
  rw [h.runs, List.map_append, List.nodup_append] at hids
  intro x hx
  exact hids.2.2 _ (List.mem_map_of_mem hx) _ (by simp)

/-- The newest row may be written as long as it stays the only active one. -/
theorem Grown.write (h : Grown t₀ t r) {r' : RunRow} (hid : r'.id = r.id)
    (hjob : r'.jobId = r.jobId) (hworker : r'.workerId = r.workerId)
    (hidle : ∀ x ∈ t₀.jobRuns, x.status.isActive = false) :
    ({ t with jobRuns := t₀.jobRuns ++ [r'] } : Tables).Valid := by
  have hv := h.valid
  have hsub : t₀.jobRuns.Sublist t.jobRuns := by
    rw [h.runs]
    exact List.sublist_append_left _ _
  have hr : r ∈ t.jobRuns := by
    rw [h.runs]
    exact List.mem_append_right _ (List.mem_singleton_self r)
  have hbase : ({ t with jobRuns := t₀.jobRuns } : Tables).Valid :=
    ⟨hv.jobNames, hv.workerIds, hv.runIds.sublist (hsub.map _), hv.logIds,
      fun x hx => hv.runJobs x (hsub.subset hx), fun x hx => hv.runWorkers x (hsub.subset hx),
      hv.oneActive.sublist ((hsub.filter _).map _)⟩
  refine valid_concat hbase ?_ ?_ ?_ hidle
  · rw [hid]
    exact h.fresh
  · rw [hjob]
    exact hv.runJobs r hr
  · rw [hworker]
    exact hv.runWorkers r hr

/-- An `UPDATE` of the newest row alone is carried out. -/
theorem Grown.update (h : Grown t₀ t r) {u : RunStmt} (hguard : u.update.guard t r)
    (hold : ∀ x ∈ t₀.jobRuns, u.update.guard t x = false)
    (hworker : (u.update.write r).workerId = r.workerId)
    (hidle : ∀ x ∈ t₀.jobRuns, x.status.isActive = false) :
    Grown t₀ (after t (.updateRun u)) (u.update.write r) ∧ 0 < changed t (.updateRun u) := by
  have hruns : Table.update (u.update.guard t) u.update.write t.jobRuns =
      t₀.jobRuns ++ [u.update.write r] := by
    rw [h.runs, Table.update, List.map_append, List.map_singleton, if_pos hguard]
    congr 1
    refine (List.map_congr_left fun x hx => ?_).trans (List.map_id _)
    rw [hold x hx]
    rfl
  have heffect : (Stmt.updateRun u).effect t =
      (matched (u.update.guard t) t.jobRuns,
        { t with jobRuns := t₀.jobRuns ++ [u.update.write r] }) := by
    rw [← hruns]
    rfl
  have hvalid : ((Stmt.updateRun u).effect t).2.Valid := by
    rw [heffect]
    exact h.write (u.write_id r) (u.write_jobId r) hworker hidle
  have hmatched : 0 < matched (u.update.guard t) t.jobRuns :=
    matched_pos.mpr ⟨r, by rw [h.runs]; simp, hguard⟩
  rw [after_of_valid hvalid, changed_of_valid hvalid]
  rw [heffect] at hvalid ⊢
  exact ⟨⟨hvalid, rfl, h.names, h.workers⟩, hmatched⟩

end

/-! ## One round -/

/-- Every run so far has succeeded, and the jobs and the local worker are known. -/
structure Settled (names : List String) (t : Tables) : Prop where
  valid : t.Valid
  jobs : ∀ name ∈ names, name ∈ t.jobs.map JobRow.name
  worker : localWorker ∈ t.workers.map WorkerRow.id
  success : ∀ r ∈ t.jobRuns, r.status = .success

/-- The row that `dispatch_current` inserts. -/
def queuedRow (t : Tables) (id name : String) (now : Time) : RunRow :=
  { id, jobId := name, workerId := some localWorker, status := .queued, retryCount := 0,
    lostCount := 0, startedAt := none, finishedAt := none, durationSecs := none,
    exitCode := none, sizeBefore := none, sizeAfter := none, bytesTransferred := none,
    message := none, leaseExpiresAt := none, leaseToken := none, nextRetryAt := none,
    createdAt := now, priority := 0,
    configGeneration := ((t.job name).map JobRow.configGeneration).getD "" }

section
variable {names : List String} {t₀ t : Tables} {r : RunRow}

theorem Settled.idle (h : Settled names t₀) : ∀ x ∈ t₀.jobRuns, x.status.isActive = false := by
  intro x hx
  rw [h.success x hx]
  rfl

theorem Settled.create (h : Settled names t₀) {id name : String} (hname : name ∈ names)
    (hid : t₀.run id = none) (now : Time) :
    Grown t₀ (after t₀ (.createRun id name (some localWorker) .queued 0 now))
      (queuedRow t₀ id name now) := by
  have hv := h.valid
  have hfresh : ∀ x ∈ t₀.jobRuns, x.id ≠ id := by
    rintro x hx rfl
    rw [hv.run_of_mem hx] at hid
    cases hid
  have hvalid : ((Stmt.createRun id name (some localWorker) .queued 0 now).effect t₀).2.Valid := by
    refine valid_concat hv hfresh (h.jobs name hname) ?_ h.idle
    rintro w ⟨⟩
    exact h.worker
  rw [after_of_valid hvalid]
  exact ⟨hvalid, rfl, rfl, rfl⟩

/-- A further run that has succeeded. -/
theorem Settled.grown (h : Settled names t₀) (hg : Grown t₀ t r) (hr : r.status = .success) :
    Settled names t where
  valid := hg.valid
  jobs name hname := by
    rw [hg.names]
    exact h.jobs name hname
  worker := by
    rw [hg.workers]
    exact h.worker
  success x hx := by
    rw [hg.runs] at hx
    rcases List.mem_append.mp hx with hx | hx
    · exact h.success x hx
    · rw [List.mem_singleton.mp hx, hr]

/-- Only the newest row is queued. -/
theorem Grown.queuedRuns (hg : Grown t₀ t r) (h : Settled names t₀) (hr : r.status = .queued)
    (hworker : r.workerId = some localWorker) : queuedRuns t localWorker = [r] := by
  have hold : t₀.jobRuns.filter (fun x => decide (x.status = .queued ∧
      (x.workerId = none ∨ x.workerId = some localWorker))) = [] :=
    List.filter_eq_nil_iff.mpr fun x hx => by simp [h.success x hx]
  unfold Db.queuedRuns runsWhere
  rw [hg.runs, List.filter_append, hold, List.nil_append, List.filter_singleton]
  simp [hr, hworker]

end

section
variable (scaleDelay : ℕ → F64 → ℕ → ℕ) {names : List String} {t : Tables} (cfg : Config)
  (jobs : List JobSpec) (activeRuns : List (String × String)) (ticked : Bool) {job : JobSpec}
  {id : String} (now : Time)

/-- A dispatch that finds nothing in the way inserts a queued run. -/
theorem exec_dispatch (hs : Settled names t) (hname : job.name ∈ names) (hid : t.run id = none)
    (hqueue : dispatchCurrent t jobs job.name false = .queue) :
    ∃ t', Grown t t' (queuedRow t id job.name now) ∧
      exec (step scaleDelay) ⟨t, some ⟨cfg, jobs, .serving, [], [], activeRuns, ticked⟩⟩
        [.dispatch job.name false id now, .flush, .flush] =
          some ⟨t', some ⟨cfg, jobs, .serving, [], [], activeRuns, ticked⟩⟩ := by
  let p : Process := ⟨cfg, jobs, .serving, [], [], activeRuns, ticked⟩
  let create : Stmt := .createRun id job.name (some localWorker) .queued 0 now
  have hdispatch : step scaleDelay ⟨t, some p⟩ (.dispatch job.name false id now) =
      some ⟨t, some { p with pending := [.stmt create, .queuedStatus job.name] }⟩ := by
    change (if (t.run id).isSome then none else some (⟨t, some { p with
      pending := dispatchInstrs (dispatchCurrent t jobs job.name false) job.name false id now }⟩ :
        Daemon)) = _
    rw [hid, hqueue]
    rfl
  have hcreate := hs.create hname hid now
  refine ⟨(Instr.queuedStatus job.name).run (after t create), ?_, ?_⟩
  · unfold Instr.run
    dsimp only
    split
    · exact hcreate.side rfl
    · exact hcreate
  · unfold exec
    rw [hdispatch]
    rfl

/-- A tick claims the queued run and spawns its task. -/
theorem exec_claim {t' : Tables} {q : RunRow} (hs : Settled names t) (hg : Grown t t' q)
    (hq : q = queuedRow t id job.name now)
    (hjob : jobs.find? (fun j => decide (j.name = job.name)) = some job) (token : String) :
    ∃ t'', Grown t t'' ((claimRun id localWorker token now).write q) ∧
      exec (step scaleDelay) ⟨t', some ⟨cfg, jobs, .serving, [], [], activeRuns, ticked⟩⟩
        [.listQueued, .claimNext token now, .flush, .spawn now, .endTick] =
          some ⟨t'', some ⟨cfg, jobs, .serving, [],
            [⟨id, job, .starting (startStmts cfg.logDir id job now)⟩], activeRuns, true⟩⟩ := by
  let p : Process := ⟨cfg, jobs, .serving, [], [], activeRuns, ticked⟩
  let u : RunStmt := .claimRun id localWorker token now
  have hid : q.id = id := by rw [hq]; rfl
  have hqueued : q.status = .queued := by rw [hq]; rfl
  have hworker : q.workerId = some localWorker := by rw [hq]; rfl
  have hname : q.jobId = job.name := by rw [hq]; rfl
  have hexecuting : t'.jobRuns.filter (fun a => a.status.isExecuting) = [] := by
    rw [hg.runs]
    refine List.filter_eq_nil_iff.mpr fun x hx => ?_
    rcases List.mem_append.mp hx with hx | hx
    · rw [hs.success x hx]
      decide
    · rw [List.mem_singleton.mp hx, hqueued]
      decide
  have hguard : u.update.guard t' q := by
    change decide (q.id = id ∧ q.status = .queued ∧
      (q.workerId = none ∨ q.workerId = some localWorker) ∧
      q.jobId ∉ (t'.jobRuns.filter fun a => a.status.isExecuting).map RunRow.jobId) = true
    rw [hexecuting]
    simp [hid, hqueued, hworker]
  have hold : ∀ x ∈ t.jobRuns, u.update.guard t' x = false := fun x hx =>
    decide_eq_false fun h => hg.fresh x hx (h.1.trans hid.symm)
  obtain ⟨hclaimed, hchanged⟩ := hg.update hguard hold hworker.symm hs.idle
  refine ⟨after (after t' (.updateRun u)) (.setJobStatus q.jobId .syncing), hclaimed.side rfl, ?_⟩
  have hlist : step scaleDelay ⟨t', some p⟩ .listQueued =
      some ⟨t', some { p with main := .claiming [q] }⟩ := by
    change some (⟨t', some { p with main := .claiming (queuedRuns t' localWorker) }⟩ : Daemon) = _
    rw [hg.queuedRuns hs hqueued hworker]
  have hclaim : step scaleDelay ⟨t', some { p with main := .claiming [q] }⟩ (.claimNext token now) =
      some ⟨after t' (.updateRun u), some { p with
        main := .claimed id job [], pending := [.stmt (.setJobStatus q.jobId .syncing)] }⟩ := by
    have hfind : Process.job { p with main := .claiming [q] } q.jobId = some job := by
      rw [hname]
      exact hjob
    change mainStep t' { p with main := .claiming [q] } (.claimNext token now) = _
    unfold mainStep
    dsimp only
    rw [hfind, hid]
    exact if_pos hchanged
  unfold exec
  rw [hlist, Option.bind_some]
  unfold exec
  rw [hclaim]
  rfl

/-- The only task stores what it starts with and registers its run. -/
theorem exec_start {q₁ q₂ q₃ : Stmt} :
    exec (step scaleDelay) ⟨t, some ⟨cfg, jobs, .serving, [],
        [⟨id, job, .starting [q₁, q₂, q₃]⟩], activeRuns, ticked⟩⟩
      [.taskStore 0, .taskStore 0, .taskStore 0, .taskRegister 0] =
    some ⟨after (after (after t q₁) q₂) q₃, some ⟨cfg, jobs, .serving, [],
      [⟨id, job, .executing⟩],
      (job.name, id) :: activeRuns.filter fun a => !decide (a.1 = job.name), ticked⟩⟩ := rfl

/-- What the only task stores when its run has succeeded. -/
theorem exec_succeed :
    exec (step scaleDelay) ⟨t, some ⟨cfg, jobs, .serving, [],
        [⟨id, job, .executing⟩], activeRuns, ticked⟩⟩
      [.taskEnd 0 (.succeeded false none none none none) 0, .taskFinish 0 now] =
    some ⟨t, some ⟨cfg, jobs, .serving, [], [⟨id, job, .finishing (finishRunStmts id
      ⟨.success, none, none, none, none, none, 0⟩ now)⟩], activeRuns, ticked⟩⟩ := rfl

/-- The only task stores what it ends with and leaves. -/
theorem exec_leave {q₁ q₂ : Stmt} :
    exec (step scaleDelay) ⟨t, some ⟨cfg, jobs, .serving, [],
        [⟨id, job, .finishing [q₁, q₂]⟩], activeRuns, ticked⟩⟩
      [.taskStore 0, .taskStore 0, .taskLeave 0] =
    some ⟨after (after t q₁) q₂, some ⟨cfg, jobs, .serving, [], [],
      activeRuns.filter fun a => !decide (a.1 = job.name), ticked⟩⟩ := rfl

/-- The task stores its start, runs, and stores a success. -/
theorem exec_task {t' : Tables} {r : RunRow} (hs : Settled names t) (hg : Grown t t' r)
    (hid : r.id = id) :
    ∃ t'' r'' activeRuns', Grown t t'' r'' ∧ r''.id = id ∧ r''.jobId = r.jobId ∧
      r''.status = .success ∧
      exec (step scaleDelay) ⟨t', some ⟨cfg, jobs, .serving, [],
          [⟨id, job, .starting (startStmts cfg.logDir id job now)⟩], activeRuns, ticked⟩⟩
        ([.taskStore 0, .taskStore 0, .taskStore 0, .taskRegister 0] ++
          [.taskEnd 0 (.succeeded false none none none none) 0, .taskFinish 0 now] ++
          [.taskStore 0, .taskStore 0, .taskLeave 0]) =
        some ⟨t'', some ⟨cfg, jobs, .serving, [], [], activeRuns', ticked⟩⟩ := by
  have hold {r' : RunRow} (hid' : r'.id = id) {t₁ : Tables} (h : Grown t t₁ r') :
      ∀ x ∈ t.jobRuns, decide (x.id = id) = false := fun x hx =>
    decide_eq_false fun hx' => h.fresh x hx (hx'.trans hid'.symm)
  have hlogged := hg.side (q := .insertLogWith id job.name
    (cfg.logDir ++ "/" ++ job.name ++ "/current.log") "" now) rfl
  obtain ⟨hwritten, -⟩ := hlogged.update (u := .setRunStatus id .running)
    (decide_eq_true hid) (hold hid hlogged) rfl hs.idle
  have hrunning := hwritten.side (q := .setJobStatus job.name .running) rfl
  have hid' : ((setRunStatus id .running).write r).id = id := hid
  obtain ⟨hended, -⟩ := hrunning.update
    (u := .finishRun id ⟨.success, none, none, none, none, none, 0⟩ now) (decide_eq_true hid')
    (hold hid' hrunning) rfl hs.idle
  have hfinished := hended.side (q := .setJobStatusForRun id) rfl
  let others := activeRuns.filter fun a => !decide (a.1 = job.name)
  refine ⟨_, _, ((job.name, id) :: others).filter fun a => !decide (a.1 = job.name), hfinished, hid,
    rfl, rfl, ?_⟩
  exact (exec_append_eq_some _).mpr
    ⟨_, (exec_append_eq_some _).mpr ⟨_, exec_start .., exec_succeed ..⟩, exec_leave ..⟩

end

/-! ## One round after the other -/

/-- What `dispatch_current` looks for in the jobs. -/
def dependenciesOf (jobs : List JobSpec) (name : String) : List String :=
  ((jobs.find? fun j => decide (j.name = name)).map JobSpec.dependsOn).getD []

section
variable (scaleDelay : ℕ → F64 → ℕ → ℕ)

/-- A dispatch of the job creates a queued run. -/
def Queues (s : Daemon) (history : List Action) (name : String) : Prop :=
  ∃ pre id now post u p, history = pre ++ .dispatch name false id now :: post ∧
    exec (step scaleDelay) s pre = some u ∧ u.proc = some p ∧
    dispatchCurrent u.db p.jobs name false = .queue

/-- Started with these jobs on an empty database, the daemon has a history in which every run
succeeds and every job gets one queued. -/
def Runnable (jobs : List JobSpec) : Prop :=
  (∀ j ∈ jobs, j.enabled) → ∀ logDir, ∃ history u,
    exec (step scaleDelay) Daemon.init (.start ⟨jobs, logDir⟩ :: history) = some u ∧
      (∀ r ∈ u.db.jobRuns, r.status = .success) ∧
      ∀ j ∈ jobs, Queues scaleDelay Daemon.init (.start ⟨jobs, logDir⟩ :: history) j.name

end

section
variable {scaleDelay : ℕ → F64 → ℕ → ℕ} {s u : Daemon} {names : List String} {t : Tables}
  {jobs : List JobSpec} {name : String}

theorem Queues.append {h₁ : List Action} (h : Queues scaleDelay s h₁ name) (h₂ : List Action) :
    Queues scaleDelay s (h₁ ++ h₂) name := by
  obtain ⟨pre, id, now, post, u, p, rfl, hexec, hp, hd⟩ := h
  exact ⟨pre, id, now, post ++ h₂, u, p, by simp, hexec, hp, hd⟩

theorem Queues.after {h₁ h₂ : List Action} (hexec : exec (step scaleDelay) s h₁ = some u)
    (h : Queues scaleDelay u h₂ name) : Queues scaleDelay s (h₁ ++ h₂) name := by
  obtain ⟨pre, id, now, post, v, p, rfl, hpre, hp, hd⟩ := h
  exact ⟨h₁ ++ pre, id, now, post, v, p, by simp,
    (exec_append_eq_some _).mpr ⟨u, hexec, hpre⟩, hp, hd⟩

/-- Where all runs have succeeded, so has the latest of a job that has run. -/
theorem latestIs_of_settled (h : Settled names t) (p : JobStatus → Bool) (name : String) :
    latestIs t name p = true ↔ (∃ r ∈ t.jobRuns, r.jobId = name) ∧ p .success = true := by
  unfold latestIs
  rw [Option.any_eq_true]
  constructor
  · rintro ⟨r, hr, hp⟩
    obtain ⟨hmem, hjob, -⟩ := (head_runHistory h.valid).mp hr
    rw [h.success r hmem] at hp
    exact ⟨⟨r, hmem, hjob⟩, hp⟩
  · rintro ⟨⟨r, hmem, hjob⟩, hp⟩
    obtain ⟨x, hx⟩ := exists_head_runHistory hmem hjob
    refine ⟨x, hx, ?_⟩
    rw [h.success x ((head_runHistory h.valid).mp hx).1]
    exact hp

/-- A job is queued as soon as everything it depends on has run. -/
theorem dispatchCurrent_queue (h : Settled names t) {job : JobSpec}
    (hjob : jobs.find? (fun j => decide (j.name = name)) = some job) (henabled : job.enabled)
    (hdeps : ∀ dep ∈ job.dependsOn, ∃ r ∈ t.jobRuns, r.jobId = dep) :
    dispatchCurrent t jobs name false = .queue := by
  have hlost : latestIs t name (fun s => decide (s = .lost)) = false := by
    rw [← Bool.not_eq_true, latestIs_of_settled h]
    simp
  have hready : job.dependsOn.find? (fun dep => !latestIs t dep JobStatus.isSuccess) = none := by
    rw [List.find?_eq_none]
    intro dep hdep
    rw [(latestIs_of_settled h _ dep).mpr ⟨hdeps dep hdep, rfl⟩]
    decide
  have hidle : inflightRunsOfJob t name = [] := by
    refine List.eq_nil_iff_forall_not_mem.mpr fun r hr => ?_
    obtain ⟨hmem, hflight⟩ := mem_runsWhere.mp hr
    rw [h.success r hmem] at hflight
    simp [DbStatus.isInflight] at hflight
  unfold dispatchCurrent
  rw [hjob]
  dsimp only
  rw [henabled, hlost, hready, hidle]
  simp

/-- The runs of these jobs, named after them, have succeeded. -/
structure Ran (names done : List String) (t : Tables) : Prop where
  settled : Settled names t
  ids : ∀ r ∈ t.jobRuns, r.id = r.jobId
  jobs : ∀ name, name ∈ done ↔ ∃ r ∈ t.jobRuns, r.jobId = name

/-- One more job that everything is there for. -/
theorem exec_round (scaleDelay : ℕ → F64 → ℕ → ℕ) (cfg : Config)
    (activeRuns : List (String × String)) (ticked : Bool) {done : List String} {job : JobSpec}
    (hran : Ran names done t) (hname : job.name ∈ names) (hnew : job.name ∉ done)
    (hjob : jobs.find? (fun j => decide (j.name = job.name)) = some job) (henabled : job.enabled)
    (hdeps : job.dependsOn ⊆ done) :
    ∃ history t' activeRuns', Ran names (job.name :: done) t' ∧
      exec (step scaleDelay) ⟨t, some ⟨cfg, jobs, .serving, [], [], activeRuns, ticked⟩⟩ history =
        some ⟨t', some ⟨cfg, jobs, .serving, [], [], activeRuns', true⟩⟩ ∧
      Queues scaleDelay ⟨t, some ⟨cfg, jobs, .serving, [], [], activeRuns, ticked⟩⟩ history
        job.name := by
  have hs := hran.settled
  have hid : t.run job.name = none := by
    cases hrun : t.run job.name with
    | none => rfl
    | some r =>
      obtain ⟨hmem, hrid⟩ := Tables.run_eq_some hrun
      exact absurd ((hran.jobs _).mpr ⟨r, hmem, (hran.ids r hmem).symm.trans hrid⟩) hnew
  have hqueue : dispatchCurrent t jobs job.name false = .queue :=
    dispatchCurrent_queue hs hjob henabled fun dep hdep => (hran.jobs dep).mp (hdeps hdep)
  obtain ⟨t₁, hg₁, h₁⟩ := exec_dispatch scaleDelay cfg jobs activeRuns ticked 0 hs hname hid hqueue
  obtain ⟨t₂, hg₂, h₂⟩ := exec_claim scaleDelay cfg jobs activeRuns ticked 0 hs hg₁ rfl hjob ""
  obtain ⟨t₃, r, activeRuns', hg₃, hrid, hrjob, hrstatus, h₃⟩ :=
    exec_task scaleDelay cfg jobs activeRuns true 0 hs hg₂ rfl
  refine ⟨_, t₃, activeRuns', ⟨hs.grown hg₃ hrstatus, ?_, ?_⟩, (exec_append_eq_some _).mpr
    ⟨_, (exec_append_eq_some _).mpr ⟨_, h₁, h₂⟩, h₃⟩, ?_⟩
  · intro x hx
    rw [hg₃.runs] at hx
    rcases List.mem_append.mp hx with hx | hx
    · exact hran.ids x hx
    · rw [List.mem_singleton.mp hx, hrid, hrjob]
      rfl
  · intro name
    have hlast : r.jobId = job.name := hrjob
    simp only [hg₃.runs, List.mem_cons, hran.jobs name, List.mem_append, List.not_mem_nil,
      or_false]
    constructor
    · rintro (rfl | ⟨x, hx, hxjob⟩)
      · exact ⟨r, .inr rfl, hlast⟩
      · exact ⟨x, .inl hx, hxjob⟩
    · rintro ⟨x, hx | rfl, hxjob⟩
      · exact .inr ⟨x, hx, hxjob⟩
      · exact .inl (hxjob.symm.trans hlast)
  · exact ⟨[], job.name, 0, _, _, _, rfl, rfl, rfl, hqueue⟩

/-- A ready order of jobs can be run one after the other. -/
theorem exec_order (scaleDelay : ℕ → F64 → ℕ → ℕ) (cfg : Config)
    (activeRuns : List (String × String)) (ticked : Bool) {done order : List String}
    (hran : Ran names done t) (hnames : order ⊆ names) (hnodup : order.Nodup)
    (hnew : ∀ name ∈ order, name ∉ done)
    (hjobs : ∀ name ∈ order, ∃ job, jobs.find? (fun j => decide (j.name = name)) = some job ∧
      job.enabled)
    (horder : Dependency.ReadyOrder (dependenciesOf jobs) done order) :
    ∃ history t' activeRuns' ticked', Ran names (order.reverse ++ done) t' ∧
      exec (step scaleDelay) ⟨t, some ⟨cfg, jobs, .serving, [], [], activeRuns, ticked⟩⟩ history =
        some ⟨t', some ⟨cfg, jobs, .serving, [], [], activeRuns', ticked'⟩⟩ ∧
      ∀ name ∈ order, Queues scaleDelay
        ⟨t, some ⟨cfg, jobs, .serving, [], [], activeRuns, ticked⟩⟩ history name := by
  induction order generalizing done t activeRuns ticked with
  | nil => exact ⟨[], t, activeRuns, ticked, hran, rfl, by simp⟩
  | cons name order ih =>
    obtain ⟨hdeps, hrest⟩ := horder
    obtain ⟨hnot, hnodup'⟩ := List.nodup_cons.mp hnodup
    obtain ⟨job, hjob, henabled⟩ := hjobs name List.mem_cons_self
    obtain rfl : job.name = name := by simpa using List.find?_some hjob
    have hdeps' : job.dependsOn ⊆ done := by
      rw [dependenciesOf, hjob] at hdeps
      exact hdeps
    obtain ⟨h₁, t₁, activeRuns₁, hran₁, hexec₁, hqueues₁⟩ := exec_round scaleDelay cfg activeRuns
      ticked hran (hnames List.mem_cons_self) (hnew job.name List.mem_cons_self) hjob henabled hdeps'
    obtain ⟨h₂, t₂, activeRuns₂, ticked₂, hran₂, hexec₂, hqueues₂⟩ := ih activeRuns₁ true hran₁
      (fun x hx => hnames (List.mem_cons_of_mem _ hx)) hnodup'
      (fun x hx hmem => (List.mem_cons.mp hmem).elim (fun heq => hnot (heq ▸ hx))
        (hnew x (List.mem_cons_of_mem _ hx)))
      (fun x hx => hjobs x (List.mem_cons_of_mem _ hx)) hrest
    refine ⟨h₁ ++ h₂, t₂, activeRuns₂, ticked₂, by simpa using hran₂,
      (exec_append_eq_some _).mpr ⟨_, hexec₁, hexec₂⟩, ?_⟩
    intro x hx
    rcases List.mem_cons.mp hx with rfl | hx
    · exact hqueues₁.append h₂
    · exact (hqueues₂ x hx).after hexec₁

/-! ## The start -/

/-- The rows of the synchronised jobs, and no run. -/
structure Synced (done : List String) (t : Tables) : Prop where
  valid : t.Valid
  jobs : t.jobs.map JobRow.name = done
  worker : localWorker ∈ t.workers.map WorkerRow.id
  empty : t.jobRuns = []

theorem synced_start : Synced [] (after .empty (.upsertWorker localWorker)) := by
  have hvalid : ((Stmt.upsertWorker localWorker).effect .empty).2.Valid := by decide
  rw [after_of_valid hvalid]
  exact ⟨hvalid, rfl, by decide, rfl⟩

theorem Synced.sync {done : List String} (h : Synced done t) (hnew : name ∉ done)
    (generation : String) :
    Synced (done ++ [name])
      (after (after t (.syncJob name)) (.setConfigGeneration name generation)) := by
  have hnone : t.job name = none := by
    refine List.find?_eq_none.mpr fun j hj heq => hnew ?_
    rw [← h.jobs, ← of_decide_eq_true heq]
    exact List.mem_map_of_mem hj
  have heffect : ((Stmt.syncJob name).effect t).2 =
      { t with jobs := t.jobs ++ [⟨name, .pending, ""⟩] } := by
    change (syncJob name t).2 = _
    rw [syncJob, hnone]
    rfl
  have hv := h.valid
  have hvalid : ((Stmt.syncJob name).effect t).2.Valid := by
    rw [heffect]
    refine ⟨?_, hv.workerIds, hv.runIds, hv.logIds, by simp [h.empty], hv.runWorkers, hv.oneActive⟩
    rw [List.map_append, h.jobs]
    exact List.nodup_append.mpr ⟨h.jobs ▸ hv.jobNames, List.nodup_singleton _, by
      intro x hx y hy heq
      rw [heq, List.mem_singleton.mp hy] at hx
      exact hnew hx⟩
  have hsynced : Synced (done ++ [name]) (after t (.syncJob name)) := by
    rw [after_of_valid hvalid]
    rw [heffect] at hvalid ⊢
    exact ⟨hvalid, by rw [List.map_append, h.jobs]; rfl, h.worker, h.empty⟩
  obtain ⟨he, -, hv'⟩ | ⟨he, -⟩ :=
    after_eq (after t (.syncJob name)) (.setConfigGeneration name generation)
  · have hnames : ((Stmt.setConfigGeneration name generation).effect
        (after t (.syncJob name))).2.jobs.map JobRow.name =
        (after t (.syncJob name)).jobs.map JobRow.name := map_key_update _ fun _ => by
      rfl
    rw [he]
    exact ⟨hv', hnames.trans hsynced.jobs, hsynced.worker, hsynced.empty⟩
  · rw [he]
    exact hsynced

/-- `sync_config` for the jobs that are still to be synchronised. -/
theorem exec_sync (scaleDelay : ℕ → F64 → ℕ → ℕ) (cfg : Config) (todo : List JobSpec)
    {done : List String} (h : Synced done t) (hnodup : (done ++ todo.map JobSpec.name).Nodup) :
    ∃ history t', Synced (done ++ todo.map JobSpec.name) t' ∧
      exec (step scaleDelay) ⟨t, some ⟨cfg, cfg.jobs, .syncing todo, [], [], [], false⟩⟩ history =
        some ⟨t', some ⟨cfg, cfg.jobs, .syncing [], [], [], [], false⟩⟩ := by
  induction todo generalizing done t with
  | nil => exact ⟨[], t, by simpa using h, rfl⟩
  | cons job todo ih =>
    have hnew : job.name ∉ done := by
      intro hmem
      exact (List.nodup_append.mp hnodup).2.2 _ hmem _ (by simp) rfl
    obtain ⟨history, t', hsynced, hexec⟩ := ih (h.sync hnew "") (by simpa using hnodup)
    exact ⟨.syncNext "" :: .flush :: .flush :: history, t', by simpa using hsynced, hexec⟩

/-- The daemon comes to serve its jobs. -/
theorem exec_boot (scaleDelay : ℕ → F64 → ℕ → ℕ) (cfg : Config)
    (hnodup : (cfg.jobs.map JobSpec.name).Nodup) :
    ∃ history t, Synced (cfg.jobs.map JobSpec.name) t ∧
      exec (step scaleDelay) Daemon.init (.start cfg :: history) =
        some ⟨t, some ⟨cfg, cfg.jobs, .serving, [], [], [], false⟩⟩ := by
  obtain ⟨history, t, hsynced, hexec⟩ :=
    exec_sync scaleDelay cfg cfg.jobs synced_start (by simpa using hnodup)
  rw [List.nil_append] at hsynced
  have hnone : (t.jobs.map JobRow.name).filter
      (fun name => !decide (name ∈ cfg.jobs.map JobSpec.name)) = [] := by
    rw [hsynced.jobs]
    exact List.filter_eq_nil_iff.mpr fun name hname => by simp only [hname]; decide
  have hserve : exec (step scaleDelay) ⟨t, some ⟨cfg, cfg.jobs, .syncing [], [], [], [], false⟩⟩
      [.listJobs, .serve] = some ⟨t, some ⟨cfg, cfg.jobs, .serving, [], [], [], false⟩⟩ := by
    have hlist : step scaleDelay ⟨t, some ⟨cfg, cfg.jobs, .syncing [], [], [], [], false⟩⟩
        .listJobs = some ⟨t, some ⟨cfg, cfg.jobs, .forgetting [], [], [], [], false⟩⟩ := by
      change some (⟨t, some ⟨cfg, cfg.jobs, .forgetting ((t.jobs.map JobRow.name).filter
        fun name => !decide (name ∈ cfg.jobs.map JobSpec.name)), [], [], [], false⟩⟩ : Daemon) = _
      rw [hnone]
    rw [exec_cons, hlist]
    rfl
  exact ⟨history ++ [.listJobs, .serve], t, hsynced,
    (exec_append_eq_some _).mpr ⟨_, hexec, hserve⟩⟩

/-- Jobs that settle can be run. -/
theorem runnable_of_settles (hnodup : (jobs.map JobSpec.name).Nodup)
    (h : Dependency.Settles (dependenciesOf jobs) (jobs.map JobSpec.name)) :
    Runnable scaleDelay jobs := by
  intro henabled logDir
  obtain ⟨order, hperm, horder⟩ := Dependency.exists_order_of_peel h
  obtain ⟨boot, t, hsynced, hboot⟩ := exec_boot scaleDelay ⟨jobs, logDir⟩ hnodup
  have hran : Ran (jobs.map JobSpec.name) [] t := by
    refine ⟨⟨hsynced.valid, ?_, hsynced.worker, ?_⟩, ?_, ?_⟩
    · intro name hname
      rw [hsynced.jobs]
      exact hname
    all_goals simp [hsynced.empty]
  have hjobs : ∀ name ∈ order, ∃ job, jobs.find? (fun j => decide (j.name = name)) = some job ∧
      job.enabled := by
    intro name hname
    obtain ⟨j, hj, rfl⟩ := List.mem_map.mp (hperm.mem_iff.mp hname)
    have hsome : (jobs.find? fun k => decide (k.name = j.name)).isSome :=
      List.find?_isSome.mpr ⟨j, hj, decide_eq_true rfl⟩
    obtain ⟨job, hjob⟩ := Option.isSome_iff_exists.mp hsome
    exact ⟨job, hjob, henabled job (List.mem_of_find?_eq_some hjob)⟩
  obtain ⟨rounds, t', activeRuns', ticked', hran', hexec, hqueues⟩ := exec_order scaleDelay
    ⟨jobs, logDir⟩ [] false hran hperm.subset (hperm.nodup_iff.mpr hnodup)
    (fun _ _ => List.not_mem_nil) hjobs horder
  refine ⟨boot ++ rounds, _, (exec_append_eq_some _).mpr ⟨_, hboot, hexec⟩, hran'.settled.success,
    fun j hj => ?_⟩
  exact (hqueues j.name (hperm.mem_iff.mpr (List.mem_map_of_mem hj))).after hboot

end

end Synora.Standalone
