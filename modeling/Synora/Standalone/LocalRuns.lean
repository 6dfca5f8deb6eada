import Synora.Engine.Dispatch
import Synora.Lib.Runs
import Synora.Lib.Slots
import Synora.Lib.Tally

namespace Synora.Standalone
open Core Engine Runs Tally

/-! ## What the engine keeps about its own runs -/

/-- How far an `execute_run` is. -/
inductive RunPhase
  /-- Spawned; `register_run` is still to come. -/
  | starting
  /-- Registered under its cancel token: in `run_once`, then in `finish_run`. -/
  | executing (token : ℕ)
  /-- After `remove_run`; `active_dec` is still to come. -/
  | leaving
deriving DecidableEq, Repr

structure RunTask where
  job : String
  phase : RunPhase
deriving DecidableEq, Repr

def RunTask.token (task : RunTask) : Option ℕ :=
  match task.phase with
  | .executing token => some token
  | .starting | .leaving => none

/-- What the holder of `config_gate.write` does next. -/
inductive ConfigWrite
  | stopJob (name : String)
  /-- An awaited database operation, where the whole call can also end. -/
  | store
  | removeJob (name : String)
  | removeActive (name : String)
  | removeRun (name : String)
  /-- The call ends with `invalid job name`. -/
  | refuse
  | putJobs (jobs : List JobSpec)
deriving DecidableEq, Repr

structure LocalRuns where
  liveJobs : List JobSpec
  /-- The runs of each job that `execute_queued` counts. -/
  active : String → Option ℕ
  /-- The cancel token registered for each job. -/
  activeRuns : String → Option ℕ
  /-- The tokens that have been cancelled. -/
  cancelled : List ℕ
  nextToken : ℕ
  /-- Behind the concurrency gate of `execute_queued`, in `claim_run`. -/
  claiming : List JobSpec
  tasks : List RunTask
  writes : List ConfigWrite

/-- `Engine::new` -/
def LocalRuns.init (jobs : List JobSpec) : LocalRuns :=
  ⟨jobs, fun _ => none, fun _ => none, [], 0, [], [], []⟩

def LocalRuns.job (s : LocalRuns) (name : String) : Option JobSpec :=
  s.liveJobs.find? fun job => decide (job.name = name)

/-- `stop_job` -/
def LocalRuns.stopJob (s : LocalRuns) (name : String) : LocalRuns :=
  match s.activeRuns name with
  | some token => { s with cancelled := token :: s.cancelled }
  | none => s

/-- `forget_job_current` -/
def forgetJobCurrent (name : String) : List ConfigWrite :=
  if isJobName name then
    [.stopJob name, .store, .removeJob name, .removeActive name, .removeRun name, .store]
  else [.refuse]

/-- `reload`, once it holds the gate. -/
def LocalRuns.reloadWrites (s : LocalRuns) (jobs : List JobSpec) : List ConfigWrite :=
  let changed := jobs.filter fun job => !decide (s.job job.name = some job)
  -- Jobs that come back under the same name with another definition are changed, not removed.
  let removed := (s.liveJobs.map JobSpec.name).filter fun name =>
    !decide (name ∈ jobs.map JobSpec.name)
  changed.map (fun _ => .store) ++ removed.flatMap forgetJobCurrent ++ [.putJobs changed]

def putJob (jobs : List JobSpec) (job : JobSpec) : List JobSpec :=
  job :: jobs.filter fun old => !decide (old.name = job.name)

def ConfigWrite.run (s : LocalRuns) : ConfigWrite → LocalRuns
  | .stopJob name => s.stopJob name
  | .store => s
  | .removeJob name => { s with liveJobs := s.liveJobs.filter fun job => !decide (job.name = name) }
  | .removeActive name => { s with active := drop s.active name }
  | .removeRun name => { s with activeRuns := drop s.activeRuns name }
  | .refuse => { s with writes := [] }
  | .putJobs jobs => { s with liveJobs := jobs.foldl putJob s.liveJobs }

inductive LocalMove
  /-- A queued run of the job passes the concurrency gate of `execute_queued`. -/
  | gate (name : String)
  /-- `claim_run` has answered. -/
  | claim (i : ℕ) (claimed : Bool)
  | register (i : ℕ)
  | unregister (i : ℕ)
  | finish (i : ℕ)
  | stop (name : String)
  | forget (name : String)
  | reload (jobs : List JobSpec)
  | write
  /-- The holder of `config_gate.write` ends at a database operation. -/
  | giveUp
deriving DecidableEq, Repr

/-- One of the engine's tasks moves: any pass of `execute_queued`, any `execute_run`, or whoever
stops, forgets or reloads. -/
def LocalRuns.step (s : LocalRuns) : LocalMove → Option LocalRuns
  | .gate name =>
    -- `config_gate.read` waits for the holder of `config_gate.write`.
    match s.writes, s.job name with
    | [], some job =>
      if (s.active name).any fun n => decide (job.maxConcurrency ≤ n) then none
      else some { s with claiming := s.claiming ++ [job] }
    | _, _ => none
  | .claim i claimed =>
    s.claiming[i]?.map fun job =>
      if claimed then
        -- `active_inc`, and the task is spawned with nothing awaited in between.
        { s with
          claiming := s.claiming.eraseIdx i
          active := inc s.active job.name
          tasks := s.tasks ++ [⟨job.name, .starting⟩] }
      else { s with claiming := s.claiming.eraseIdx i }
  | .register i =>
    match s.tasks[i]? with
    | some ⟨job, .starting⟩ => some { s with
        activeRuns := Function.update s.activeRuns job (some s.nextToken)
        nextToken := s.nextToken + 1
        tasks := s.tasks.set i ⟨job, .executing s.nextToken⟩ }
    | _ => none
  | .unregister i =>
    match s.tasks[i]? with
    -- By the name of the job, whichever token stands there.
    | some ⟨job, .executing _⟩ => some { s with
        activeRuns := drop s.activeRuns job
        tasks := s.tasks.set i ⟨job, .leaving⟩ }
    | _ => none
  | .finish i =>
    match s.tasks[i]? with
    | some ⟨job, .leaving⟩ => some { s with
        active := dec s.active job
        tasks := s.tasks.eraseIdx i }
    | _ => none
  | .stop name => some (s.stopJob name)
  | .forget name =>
    match s.writes, s.claiming with
    | [], [] => some { s with writes := forgetJobCurrent name }
    | _, _ => none
  | .reload jobs =>
    match s.writes, s.claiming with
    | [], [] => some { s with writes := s.reloadWrites jobs }
    | _, _ => none
  | .write =>
    match s.writes with
    | w :: writes => some (w.run { s with writes })
    | [] => none
  | .giveUp =>
    match s.writes with
    | .store :: _ => some { s with writes := [] }
    | _ => none

/-! ## The account -/

/-- The started and unfinished tasks of a job. -/
def LocalRuns.unfinished (s : LocalRuns) (name : String) : ℕ :=
  s.tasks.countP fun task => decide (task.job = name)

/-- The cancel tokens of the executing tasks of a job. -/
def LocalRuns.executing (s : LocalRuns) (name : String) : List ℕ :=
  (s.tasks.filter fun task => decide (task.job = name)).filterMap RunTask.token

/-- `active` counts the tasks, and a registered task can be cancelled through `active_runs`. -/
structure LocalRuns.Exact (s : LocalRuns) : Prop where
  active (name : String) : count s.active name = s.unfinished name
  positive : Positive s.active
  activeRuns (name : String) (h : s.executing name ≠ []) :
    ∃ token ∈ s.executing name, s.activeRuns name = some token

/-- The step takes nothing away that belongs to another task of the job. -/
def LocalRuns.Owned (s : LocalRuns) : LocalMove → Prop
  | .unregister i =>
    match s.tasks[i]? with
    | some ⟨job, .executing token⟩ => s.executing job = [token]
    | _ => True
  | .write =>
    match s.writes with
    | .removeActive name :: _ => s.unfinished name = 0
    | .removeRun name :: _ => s.executing name = []
    | _ => True
  | _ => True

theorem exact_init (jobs : List JobSpec) : (LocalRuns.init jobs).Exact :=
  ⟨fun _ => rfl, fun _ => by simp [LocalRuns.init], fun _ h => absurd rfl h⟩

variable {s t : LocalRuns}

theorem LocalRuns.Exact.of_eq (h : s.Exact) (ha : t.active = s.active)
    (hr : t.activeRuns = s.activeRuns) (ht : t.tasks = s.tasks) : t.Exact := by
  refine ⟨fun name => ?_, ha ▸ h.positive, fun name hname => ?_⟩
  · rw [ha, LocalRuns.unfinished, ht]
    exact h.active name
  · rw [LocalRuns.executing, ht] at hname ⊢
    rw [hr]
    exact h.activeRuns name hname

theorem LocalRuns.Exact.claim (h : s.Exact) (claiming : List JobSpec) (name : String) :
    LocalRuns.Exact { s with
      claiming, active := inc s.active name, tasks := s.tasks ++ [⟨name, .starting⟩] } := by
  refine ⟨fun name' => ?_, h.positive.inc name, fun name' hname => ?_⟩
  · rw [count_inc, h.active]
    simp [LocalRuns.unfinished, List.countP_append, List.countP_cons]
  · have htokens : ({ s with
        claiming, active := inc s.active name,
        tasks := s.tasks ++ [⟨name, .starting⟩] } : LocalRuns).executing name' =
        s.executing name' := by
      by_cases hn : name = name' <;>
        simp [LocalRuns.executing, RunTask.token, List.filter_append, hn]
    rw [htokens] at hname ⊢
    exact h.activeRuns name' hname

/-- What a task that moves on changes. -/
theorem tasks_set {i : ℕ} {name : String} {phase phase' : RunPhase}
    (hi : s.tasks[i]? = some ⟨name, phase⟩) (ht : t.tasks = s.tasks.set i ⟨name, phase'⟩) :
    (∀ name', t.unfinished name' = s.unfinished name') ∧
      (∀ name', name ≠ name' → t.executing name' = s.executing name') ∧
      ∃ pre post : List ℕ,
        s.executing name = pre ++ (RunTask.token ⟨name, phase⟩).toList ++ post ∧
        t.executing name = pre ++ (RunTask.token ⟨name, phase'⟩).toList ++ post := by
  obtain ⟨pre, post, heq, hset, -⟩ := Slots.exists_split hi
  rw [hset] at ht
  refine ⟨fun name' => ?_, fun name' hne => ?_, ?_⟩
  · simp [LocalRuns.unfinished, ht, heq, List.countP_append, List.countP_cons]
  · simp [LocalRuns.executing, ht, heq, List.filter_append, hne]
  · refine ⟨(pre.filter fun task => decide (task.job = name)).filterMap RunTask.token,
      (post.filter fun task => decide (task.job = name)).filterMap RunTask.token, ?_, ?_⟩
    · cases htok : RunTask.token ⟨name, phase⟩ <;>
        simp [LocalRuns.executing, heq, List.filter_append, htok]
    · cases htok : RunTask.token ⟨name, phase'⟩ <;>
        simp [LocalRuns.executing, ht, List.filter_append, htok]

/-- What a task without a token takes with it. -/
theorem tasks_eraseIdx {i : ℕ} {name : String} {phase : RunPhase}
    (hi : s.tasks[i]? = some ⟨name, phase⟩) (htoken : RunTask.token ⟨name, phase⟩ = none)
    (ht : t.tasks = s.tasks.eraseIdx i) :
    (∀ name', t.unfinished name' + (if name = name' then 1 else 0) = s.unfinished name') ∧
      ∀ name', t.executing name' = s.executing name' := by
  obtain ⟨pre, post, heq, -, herase⟩ := Slots.exists_split hi
  rw [herase] at ht
  refine ⟨fun name' => ?_, fun name' => ?_⟩
  · simp [LocalRuns.unfinished, ht, heq, List.countP_append, List.countP_cons, Nat.add_assoc]
  · by_cases hn : name = name'
    · subst hn
      simp [LocalRuns.executing, ht, heq, List.filter_append, htoken]
    · simp [LocalRuns.executing, ht, heq, List.filter_append, hn]

theorem LocalRuns.Exact.register (h : s.Exact) {i : ℕ} {name : String}
    (hi : s.tasks[i]? = some ⟨name, .starting⟩) :
    LocalRuns.Exact { s with
      activeRuns := Function.update s.activeRuns name (some s.nextToken)
      nextToken := s.nextToken + 1
      tasks := s.tasks.set i ⟨name, .executing s.nextToken⟩ } := by
  obtain ⟨hcount, hother, pre, post, -, hself⟩ := tasks_set (t := { s with
      activeRuns := Function.update s.activeRuns name (some s.nextToken)
      nextToken := s.nextToken + 1
      tasks := s.tasks.set i ⟨name, .executing s.nextToken⟩ }) hi rfl
  refine ⟨fun name' => ?_, h.positive, fun name' hname => ?_⟩
  · rw [hcount]
    exact h.active name'
  · by_cases hn : name = name'
    · -- The new token takes the place of any other one, and its task executes.
      subst hn
      refine ⟨s.nextToken, ?_, Function.update_self _ _ _⟩
      rw [hself]
      simp [RunTask.token]
    · rw [hother name' hn] at hname ⊢
      obtain ⟨token, htoken, hrun⟩ := h.activeRuns name' hname
      exact ⟨token, htoken, (Function.update_of_ne (Ne.symm hn) _ _).trans hrun⟩

/-- Without its token, a job must have no executing task left. -/
theorem LocalRuns.Exact.unregister (h : s.Exact) {i token : ℕ} {name : String}
    (hi : s.tasks[i]? = some ⟨name, .executing token⟩) :
    LocalRuns.Exact { s with
        activeRuns := drop s.activeRuns name, tasks := s.tasks.set i ⟨name, .leaving⟩ } ↔
      s.executing name = [token] := by
  obtain ⟨hcount, hother, pre, post, hbefore, hafter⟩ := tasks_set (t := { s with
      activeRuns := drop s.activeRuns name, tasks := s.tasks.set i ⟨name, .leaving⟩ }) hi rfl
  constructor
  · intro ht
    by_contra hne
    -- Another task executes, and no token is left for it.
    have hleft : pre ++ post ≠ [] := by
      intro hnil
      rw [List.append_eq_nil_iff] at hnil
      exact hne (by simp [hbefore, hnil.1, hnil.2, RunTask.token])
    obtain ⟨token', -, hrun⟩ := ht.activeRuns name (by simpa [hafter, RunTask.token] using hleft)
    simp at hrun
  · intro hone
    refine ⟨fun name' => ?_, h.positive, fun name' hname => ?_⟩
    · rw [hcount]
      exact h.active name'
    · by_cases hn : name = name'
      · subst hn
        have hnone : pre ++ post = [] := by
          have hlen := congrArg List.length (hbefore.symm.trans hone)
          simp only [RunTask.token, Option.toList_some, List.length_append,
            List.length_singleton] at hlen
          rw [← List.length_eq_zero_iff, List.length_append]
          omega
        exact absurd (by simpa [hafter, RunTask.token] using hnone) hname
      · rw [hother name' hn] at hname ⊢
        obtain ⟨token', htoken, hrun⟩ := h.activeRuns name' hname
        exact ⟨token', htoken, (drop_of_ne _ hn).trans hrun⟩

theorem LocalRuns.Exact.finish (h : s.Exact) {i : ℕ} {name : String}
    (hi : s.tasks[i]? = some ⟨name, .leaving⟩) :
    LocalRuns.Exact { s with active := dec s.active name, tasks := s.tasks.eraseIdx i } := by
  obtain ⟨hcount, htokens⟩ := tasks_eraseIdx (t := { s with
      active := dec s.active name, tasks := s.tasks.eraseIdx i }) hi rfl rfl
  refine ⟨fun name' => ?_, h.positive.dec name, fun name' hname => ?_⟩
  · rw [count_dec, h.active, ← hcount name', Nat.add_sub_cancel]
  · rw [htokens] at hname ⊢
    exact h.activeRuns name' hname

theorem LocalRuns.Exact.removeActive (h : s.Exact) (name : String) :
    LocalRuns.Exact { s with active := drop s.active name } ↔ s.unfinished name = 0 := by
  constructor
  · intro ht
    have hcount := ht.active name
    rw [count_drop, if_pos rfl] at hcount
    exact hcount.symm
  · intro hnone
    refine ⟨fun name' => ?_, h.positive.drop name, h.activeRuns⟩
    rw [count_drop]
    by_cases hn : name = name'
    · subst hn
      rw [if_pos rfl]
      exact hnone.symm
    · rw [if_neg hn]
      exact h.active name'

theorem LocalRuns.Exact.removeRun (h : s.Exact) (name : String) :
    LocalRuns.Exact { s with activeRuns := drop s.activeRuns name } ↔ s.executing name = [] := by
  constructor
  · intro ht
    by_contra hne
    obtain ⟨token, -, hrun⟩ := ht.activeRuns name hne
    simp at hrun
  · intro hnone
    refine ⟨h.active, h.positive, fun name' hname => ?_⟩
    have hn : name ≠ name' := by
      rintro rfl
      exact hname hnone
    obtain ⟨token, htoken, hrun⟩ := h.activeRuns name' hname
    exact ⟨token, htoken, (drop_of_ne _ hn).trans hrun⟩

/-! ## Runs of the engine -/

/-- What a step can do to the account. -/
inductive LocalRuns.Moves (s : LocalRuns) : LocalMove → LocalRuns → Prop
  /-- Neither the account nor the tasks change. -/
  | aside {m t} (ha : t.active = s.active) (hr : t.activeRuns = s.activeRuns)
      (ht : t.tasks = s.tasks) (hn : t.nextToken = s.nextToken) (howned : s.Owned m) : Moves s m t
  | claim {i} (claiming : List JobSpec) (name : String) :
      Moves s (.claim i true) { s with
        claiming, active := inc s.active name, tasks := s.tasks ++ [⟨name, .starting⟩] }
  | register {i name} (hi : s.tasks[i]? = some ⟨name, .starting⟩) :
      Moves s (.register i) { s with
        activeRuns := Function.update s.activeRuns name (some s.nextToken)
        nextToken := s.nextToken + 1
        tasks := s.tasks.set i ⟨name, .executing s.nextToken⟩ }
  | unregister {i name token} (hi : s.tasks[i]? = some ⟨name, .executing token⟩) :
      Moves s (.unregister i) { s with
        activeRuns := drop s.activeRuns name, tasks := s.tasks.set i ⟨name, .leaving⟩ }
  | finish {i name} (hi : s.tasks[i]? = some ⟨name, .leaving⟩) :
      Moves s (.finish i) { s with
        active := dec s.active name, tasks := s.tasks.eraseIdx i }
  | removeActive {name writes} (hw : s.writes = .removeActive name :: writes) :
      Moves s .write { s with writes, active := drop s.active name }
  | removeRun {name writes} (hw : s.writes = .removeRun name :: writes) :
      Moves s .write { s with writes, activeRuns := drop s.activeRuns name }

/-- Stopping a job only adds to the cancelled tokens. -/
theorem stopJob_eq (s : LocalRuns) (name : String) :
    ∃ cancelled, s.stopJob name = { s with cancelled } := by
  unfold LocalRuns.stopJob
  split <;> exact ⟨_, rfl⟩

theorem moves_of_write {w : ConfigWrite} {writes : List ConfigWrite}
    (hw : s.writes = w :: writes) : s.Moves .write (w.run { s with writes }) := by
  cases w with
  | stopJob name =>
    obtain ⟨cancelled, heq⟩ := stopJob_eq { s with writes } name
    rw [ConfigWrite.run, heq]
    exact .aside rfl rfl rfl rfl (by simp [LocalRuns.Owned, hw])
  | removeActive name => exact .removeActive hw
  | removeRun name => exact .removeRun hw
  | store => exact .aside rfl rfl rfl rfl (by simp [LocalRuns.Owned, hw])
  | removeJob => exact .aside rfl rfl rfl rfl (by simp [LocalRuns.Owned, hw])
  | refuse => exact .aside rfl rfl rfl rfl (by simp [LocalRuns.Owned, hw])
  | putJobs => exact .aside rfl rfl rfl rfl (by simp [LocalRuns.Owned, hw])

theorem moves_of_step {m : LocalMove} (hstep : s.step m = some t) : s.Moves m t := by
  cases m with
  | claim i claimed =>
    obtain ⟨job, -, rfl⟩ := Option.map_eq_some_iff.mp hstep
    cases claimed with
    | true => exact .claim _ job.name
    | false => exact .aside rfl rfl rfl rfl trivial
  | register i =>
    simp only [LocalRuns.step] at hstep
    split at hstep
    · rename_i hi
      cases hstep
      exact .register hi
    · cases hstep
  | unregister i =>
    simp only [LocalRuns.step] at hstep
    split at hstep
    · rename_i hi
      cases hstep
      exact .unregister hi
    · cases hstep
  | finish i =>
    simp only [LocalRuns.step] at hstep
    split at hstep
    · rename_i hi
      cases hstep
      exact .finish hi
    · cases hstep
  | stop name =>
    cases hstep
    obtain ⟨cancelled, heq⟩ := stopJob_eq s name
    rw [heq]
    exact .aside rfl rfl rfl rfl trivial
  | write =>
    simp only [LocalRuns.step] at hstep
    split at hstep
    · rename_i hw
      cases hstep
      exact moves_of_write hw
    · cases hstep
  | _ =>
    -- The other moves open a gate or take up a list of writes.
    simp only [LocalRuns.step] at hstep
    repeat' split at hstep
    all_goals cases hstep
    all_goals exact .aside rfl rfl rfl rfl trivial

/-- A token that is registered was registered before, or the step has made it. -/
theorem activeRuns_step {m : LocalMove} (hstep : s.step m = some t) :
    s.nextToken ≤ t.nextToken ∧ ∀ name token, t.activeRuns name = some token →
      s.activeRuns name = some token ∨ token = s.nextToken ∧ token < t.nextToken := by
  cases moves_of_step hstep with
  | aside _ hr _ hn =>
    rw [hr, hn]
    exact ⟨le_rfl, fun _ _ => Or.inl⟩
  | register =>
    rename_i i job hi
    refine ⟨Nat.le_succ _, fun name token htoken => ?_⟩
    change Function.update s.activeRuns job (some s.nextToken) name = some token at htoken
    by_cases hn : name = job
    · subst hn
      rw [Function.update_self] at htoken
      cases htoken
      exact Or.inr ⟨rfl, Nat.lt_succ_self _⟩
    · rw [Function.update_of_ne hn] at htoken
      exact Or.inl htoken
  | unregister => exact ⟨le_rfl, fun name token htoken => Or.inl (of_drop htoken)⟩
  | removeRun => exact ⟨le_rfl, fun name token htoken => Or.inl (of_drop htoken)⟩
  | claim | finish | removeActive => exact ⟨le_rfl, fun _ _ => Or.inl⟩

/-- One step: the account stays exact when the step takes away nothing of another task, and only
then. -/
theorem exact_step {m : LocalMove} (h : s.Exact) (hstep : s.step m = some t) :
    t.Exact ↔ s.Owned m := by
  cases moves_of_step hstep with
  | aside ha hr ht _ howned => exact iff_of_true (h.of_eq ha hr ht) howned
  | claim claiming name => exact iff_of_true (h.claim claiming name) trivial
  | register hi => exact iff_of_true (h.register hi) trivial
  | unregister hi =>
    simp only [LocalRuns.Owned, hi]
    exact h.unregister hi
  | finish hi => exact iff_of_true (h.finish hi) trivial
  | removeActive hw =>
    rename_i name writes
    simp only [LocalRuns.Owned, hw]
    exact LocalRuns.Exact.removeActive (h.of_eq (t := { s with writes }) rfl rfl rfl) name
  | removeRun hw =>
    rename_i name writes
    simp only [LocalRuns.Owned, hw]
    exact LocalRuns.Exact.removeRun (h.of_eq (t := { s with writes }) rfl rfl rfl) name

/-- A step that takes something away of another task is never held up. -/
theorem step_of_not_owned {m : LocalMove} (h : ¬s.Owned m) : ∃ t, s.step m = some t := by
  cases m with
  | unregister i =>
    simp only [LocalRuns.Owned] at h
    split at h
    · rename_i hi
      simp only [LocalRuns.step, hi]
      exact ⟨_, rfl⟩
    · exact absurd trivial h
  | write =>
    cases hw : s.writes with
    | nil => simp [LocalRuns.Owned, hw] at h
    | cons w writes => exact ⟨w.run { s with writes }, by simp [LocalRuns.step, hw]⟩
  | _ => exact absurd trivial h

/-- The account is exact in every state of a run exactly when no entry of `active` or `active_runs`
is removed that another task of the job stands behind. -/
theorem accounts_exact_iff (jobs : List JobSpec) (moves : List LocalMove) :
    (∀ pre, pre <+: moves → ∀ s, exec LocalRuns.step (.init jobs) pre = some s → s.Exact) ↔
      Along LocalRuns.step LocalRuns.Owned (.init jobs) moves := by
  refine forall_prefix_iff_along LocalRuns.step (fun _ => True) (fun _ _ _ _ _ => trivial)
    (fun s m t _ h hc hstep => (exact_step h hstep).mpr hc) (fun s m _ h hc => ?_) trivial
    (exact_init jobs)
  obtain ⟨t, hstep⟩ := step_of_not_owned hc
  exact ⟨t, hstep, fun ht => hc ((exact_step h hstep).mp ht)⟩

def mirrorJob : JobSpec := ⟨"m", true, .script, 0, 0, 0, [], .retry, [], 1⟩

/-- The job is removed and added again while a run of it executes; the old run ends while a run of
the new job executes. -/
def readded : List LocalMove :=
  [.gate "m", .claim 0 true, .register 0, .reload []] ++ List.replicate 7 .write ++
    [.reload [mirrorJob], .write, .write, .gate "m", .claim 0 true, .register 1, .unregister 0,
      .finish 0]

/-- The new run is neither counted nor can it be stopped. -/
theorem accounts_inexact : ∃ s, exec LocalRuns.step (.init [mirrorJob]) readded = some s ∧
    count s.active "m" = 0 ∧ s.unfinished "m" = 1 ∧ s.executing "m" = [1] ∧
    s.activeRuns "m" = none ∧ ¬s.Exact :=
  ⟨_, rfl, rfl, by decide, by decide, rfl, fun h => absurd (h.active "m") (by decide)⟩

end Synora.Standalone
