import Synora.Lib.Runs
import Synora.Lib.Slots
import Synora.Cluster.System

namespace Synora.Cluster
open Core Db Manager Slots

/-! ## What one step does to the map and to the tasks -/

/-- The assignment that the worker takes in a step. -/
def accepts (s : System) : Action → Option Assignment
  | .receive i =>
    match s.worker.main, s.responses[i]? with
    | .claiming c _ _, some (call, .claim (some a)) => if c = call then some a else none
    | _, _ => none
  | _ => none

inductive Moves (s : System) (a : Action) (w : Worker) : Prop
  | still (hr : w.running = s.worker.running) (ht : w.tasks = s.worker.tasks)
  | advance (i : ℕ) (task : Task) (phase : TaskPhase) (hi : s.worker.tasks[i]? = some task)
      (hr : w.running = s.worker.running) (ht : w.tasks = s.worker.tasks.set i { task with phase })
  | claimed (x : Assignment) (hx : accepts s a = some x)
      (hr : w.running = (s.worker.accept x).running) (ht : w.tasks = (s.worker.accept x).tasks)
  | left (i : ℕ) (task : Task) (hi : s.worker.tasks[i]? = some task)
      (hr : w.running = s.worker.running.erase task.runId)
      (ht : w.tasks = s.worker.tasks.eraseIdx i)
  | emptied (hr : w.running = ∅) (ht : w.tasks = [])

theorem Moves.of_eq {s : System} {a : Action} {w : Worker} (h : w = s.worker) : Moves s a w :=
  .still (by rw [h]) (by rw [h])

theorem moves_taskReturn (s : System) (a : Action) (call : ℕ) (ok : Bool) :
    Moves s a (taskReturn s.worker call ok) := by
  unfold taskReturn
  split
  · exact .still rfl rfl
  rename_i i _
  split
  · rename_i task hi
    split
    · exact .advance i task _ hi rfl rfl
    · exact .still rfl rfl
  · exact .still rfl rfl

theorem moves_receive {s : System} {i call : ℕ} {response : Response}
    (hi : s.responses[i]? = some (call, response)) :
    Moves s (.receive i) (s.worker.receive call response) := by
  unfold Worker.receive
  split
  · split
    · split <;> exact .still rfl rfl
    · exact moves_taskReturn ..
  · rename_i c runId todo hm
    split
    · rename_i hc
      split
      · rename_i x
        exact .claimed x (by simp [accepts, hm, hi, hc]) rfl rfl
      · exact .still rfl rfl
    · exact moves_taskReturn ..
  · exact moves_taskReturn ..

theorem moves_giveUp (s : System) (a : Action) (call : ℕ) : Moves s a (s.worker.giveUp call) := by
  unfold Worker.giveUp
  split
  · split
    · exact .still rfl rfl
    · exact moves_taskReturn ..
  · split
    · exact .still rfl rfl
    · exact moves_taskReturn ..
  · exact moves_taskReturn ..

theorem moves_workerStep {s s' : System} {a : Action} (h : workerStep s a = some s') :
    Moves s a s'.worker := by
  cases a with
  | receive i =>
    obtain ⟨m, hi, rfl⟩ := Option.map_eq_some_iff.mp h
    exact moves_receive hi
  | giveUp call =>
    obtain rfl := Option.some.inj h
    exact moves_giveUp s _ call
  | runEnd i o =>
    obtain ⟨task, hi, h⟩ := Option.bind_eq_some_iff.mp h
    split at h
    · obtain rfl := Option.some.inj h
      exact .advance i task _ hi rfl rfl
    · cases h
  | report i =>
    obtain ⟨task, hi, h⟩ := Option.bind_eq_some_iff.mp h
    split at h
    · obtain rfl := Option.some.inj h
      exact .advance i task _ hi rfl rfl
    · cases h
  | leave i =>
    obtain ⟨task, hi, h⟩ := Option.bind_eq_some_iff.mp h
    split at h
    · obtain rfl := Option.some.inj h
      exact .left i task hi rfl rfl
    · cases h
  | restart =>
    obtain rfl := Option.some.inj h
    exact .emptied rfl rfl
  | cancelNext =>
    simp only [workerStep] at h
    split at h
    · obtain rfl := Option.some.inj h
      exact .still rfl rfl
    · obtain rfl := Option.some.inj h
      refine .still ?_ ?_ <;> simp only [Worker.cancelRun] <;> split <;> rfl
    · cases h
  | watchdog =>
    obtain rfl := Option.some.inj h
    exact .still rfl rfl
  | beat | endClaims =>
    simp only [workerStep] at h
    split at h
    · obtain rfl := Option.some.inj h
      exact .still rfl rfl
    · cases h
  | claimNext =>
    simp only [workerStep] at h
    split at h
    · split at h
      · obtain rfl := Option.some.inj h
        exact .still rfl rfl
      · cases h
    · cases h
  | _ => cases h

section
variable {scaleDelay : ℕ → F64 → ℕ → ℕ}

/-- The manager cannot touch what the worker holds. -/
theorem managerStep_worker {s s' : System} {a : Action}
    (h : managerStep scaleDelay s a = some s') : s'.worker = s.worker := by
  cases a with
  | manager b =>
    obtain ⟨m, -, rfl⟩ := Option.map_eq_some_iff.mp h
    rfl
  | serveHeartbeat i now | serveClaim i token now =>
    simp only [managerStep] at h
    split at h
    · obtain rfl := Option.some.inj h
      rfl
    · cases h
  | serveComplete i =>
    simp only [managerStep] at h
    split at h
    · obtain ⟨m, -, rfl⟩ := Option.map_eq_some_iff.mp h
      rfl
    · cases h
  | answer i =>
    obtain ⟨p, -, h⟩ := Option.bind_eq_some_iff.mp h
    obtain ⟨hd, -, h⟩ := Option.bind_eq_some_iff.mp h
    split at h
    · obtain rfl := Option.some.inj h
      rfl
    · cases h
  | _ => cases h

/-- Nor can the network. -/
theorem networkStep_worker {s s' : System} {a : Action} (h : networkStep s a = some s') :
    s'.worker = s.worker := by
  cases a with
  | loseRequest i | loseResponse i =>
    obtain rfl := Option.some.inj h
    rfl
  | repeatRequest i | repeatResponse i =>
    obtain ⟨m, -, rfl⟩ := Option.map_eq_some_iff.mp h
    rfl
  | _ => cases h

/-- And the worker cannot touch the manager. -/
theorem workerStep_manager {s s' : System} {a : Action} (h : workerStep s a = some s') :
    s'.manager = s.manager := by
  cases a with
  | receive i =>
    obtain ⟨m, -, rfl⟩ := Option.map_eq_some_iff.mp h
    rfl
  | giveUp call | watchdog | restart =>
    obtain rfl := Option.some.inj h
    rfl
  | runEnd i o | report i | leave i =>
    obtain ⟨task, -, h⟩ := Option.bind_eq_some_iff.mp h
    split at h
    · obtain rfl := Option.some.inj h
      rfl
    · cases h
  | beat | endClaims =>
    simp only [workerStep] at h
    split at h
    · obtain rfl := Option.some.inj h
      rfl
    · cases h
  | cancelNext =>
    simp only [workerStep] at h
    split at h
    · obtain rfl := Option.some.inj h
      rfl
    · obtain rfl := Option.some.inj h
      rfl
    · cases h
  | claimNext =>
    simp only [workerStep] at h
    split at h
    · split at h
      · obtain rfl := Option.some.inj h
        rfl
      · cases h
    · cases h
  | _ => cases h

theorem step_moves {s s' : System} {a : Action} (h : step scaleDelay s a = some s') :
    Moves s a s'.worker := by
  unfold step at h
  cases a with
  | manager _ | serveHeartbeat _ _ | serveClaim _ _ _ | serveComplete _ | answer _ =>
    exact .of_eq (managerStep_worker h)
  | loseRequest _ | repeatRequest _ | loseResponse _ | repeatResponse _ =>
    exact .of_eq (networkStep_worker h)
  | _ => exact moves_workerStep h

/-! ## The map and the tasks agree -/

/-- Every task that has been spawned and has not ended holds its own entry. -/
structure Bookkept (w : Worker) : Prop where
  nodup : (w.tasks.map Task.runId).Nodup
  held : ∀ task ∈ w.tasks, w.running.lookup task.runId = some task.entry

theorem bookkept_init (id : String) (maxConcurrency : ℕ) :
    Bookkept (.init id maxConcurrency) :=
  ⟨List.nodup_nil, by simp [Worker.init]⟩

/-- No task for the run of an accepted claim is left over from an earlier claim. -/
def FreshClaim (s : System) (a : Action) : Prop :=
  ∀ x ∈ accepts s a, ∀ task ∈ s.worker.tasks, task.runId ≠ x.runId

instance (s : System) (a : Action) : Decidable (FreshClaim s a) :=
  inferInstanceAs (Decidable (∀ x ∈ accepts s a, ∀ task ∈ s.worker.tasks, task.runId ≠ x.runId))

theorem bookkept_advance {w w' : Worker} {i : ℕ} {task : Task} {phase : TaskPhase}
    (hb : Bookkept w) (hi : w.tasks[i]? = some task) (hr : w'.running = w.running)
    (ht : w'.tasks = w.tasks.set i { task with phase }) : Bookkept w' where
  nodup := by
    have hids : (w.tasks.set i { task with phase }).map Task.runId = w.tasks.map Task.runId :=
      map_set_of_eq hi rfl
    rw [ht, hids]
    exact hb.nodup
  held := by
    rw [ht, hr]
    exact forall_mem_set hb.held (hb.held task (List.mem_of_getElem? hi))

theorem bookkept_accept {w w' : Worker} {x : Assignment} (hb : Bookkept w)
    (hf : ∀ task ∈ w.tasks, task.runId ≠ x.runId) (hr : w'.running = (w.accept x).running)
    (ht : w'.tasks = (w.accept x).tasks) : Bookkept w' where
  nodup := by
    rw [ht]
    simp only [Worker.accept, List.map_append, List.map_cons, List.map_nil]
    refine List.nodup_append.mpr ⟨hb.nodup, List.nodup_singleton _, ?_⟩
    intro id hid y hy
    obtain ⟨task, htask, rfl⟩ := List.mem_map.mp hid
    rw [List.mem_singleton.mp hy]
    exact hf task htask
  held task htask := by
    rw [ht] at htask
    rw [hr]
    simp only [Worker.accept]
    -- The insertion would overwrite the entry of an older task for the run; there is none.
    rcases List.mem_append.mp htask with h | h
    · rw [AList.lookup_insert_ne (hf task h)]
      exact hb.held task h
    · obtain rfl := List.mem_singleton.mp h
      exact AList.lookup_insert _

/-- The task that leaves takes its own entry with it and no other. -/
theorem lookup_leave {w : Worker} {i : ℕ} {task other : Task} (hb : Bookkept w)
    (hi : w.tasks[i]? = some task) (ho : other ∈ w.tasks.eraseIdx i) :
    (w.running.erase task.runId).lookup other.runId = w.running.lookup other.runId :=
  AList.lookup_erase_ne (key_ne_of_mem_eraseIdx hb.nodup hi ho)

theorem bookkept_leave {w w' : Worker} {i : ℕ} {task : Task} (hb : Bookkept w)
    (hi : w.tasks[i]? = some task) (hr : w'.running = w.running.erase task.runId)
    (ht : w'.tasks = w.tasks.eraseIdx i) : Bookkept w' where
  nodup := by
    rw [ht]
    exact hb.nodup.sublist ((List.eraseIdx_sublist w.tasks i).map Task.runId)
  held other ho := by
    rw [ht] at ho
    rw [hr, lookup_leave hb hi ho]
    exact hb.held other (List.mem_of_mem_eraseIdx ho)

theorem bookkept_step {s s' : System} {a : Action} (hb : Bookkept s.worker)
    (hf : FreshClaim s a) (h : step scaleDelay s a = some s') : Bookkept s'.worker := by
  cases step_moves h with
  | still hr ht => exact ⟨by rw [ht]; exact hb.nodup, by rw [hr, ht]; exact hb.held⟩
  | advance i task phase hi hr ht => exact bookkept_advance hb hi hr ht
  | claimed x hx hr ht => exact bookkept_accept hb (hf x hx) hr ht
  | left i task hi hr ht => exact bookkept_leave hb hi hr ht
  | emptied hr ht => exact ⟨by simp [ht], by simp [ht]⟩

theorem bookkept_run {s s' : System} {as : List Action} (hb : Bookkept s.worker)
    (hc : Runs.Along (step scaleDelay) FreshClaim s as)
    (h : Runs.exec (step scaleDelay) s as = some s') : Bookkept s'.worker :=
  Runs.exec_invariant_along (step scaleDelay) FreshClaim (fun s => Bookkept s.worker)
    (fun _ _ _ hf hb hs => bookkept_step hb hf hs) hb hc h

/-! ## Every task that runs is covered -/

/-- The task has its entry, and with it the next heartbeat, a cancel request of the manager and
the watchdog all reach it. -/
structure Covered (w : Worker) (task : Task) : Prop where
  held : w.running.lookup task.runId = some task.entry
  reported : (task.runId, task.leaseToken) ∈ w.activeRuns
  cancelled : task.cancel ∈ (w.cancelRun task.runId).cancelled
  watched : task.cancel ∈ w.watchdog.cancelled

/-- The watchdog reaches every entry of the map. -/
theorem mem_watchdog_cancelled {w : Worker} {id : String} {e : Running}
    (h : w.running.lookup id = some e) : e.cancel ∈ w.watchdog.cancelled := by
  have hmem : (⟨id, e⟩ : Sigma _) ∈ w.running.entries := AList.mem_lookup_iff.mp h
  have hc : e.cancel ∈ w.running.entries.map fun e => e.2.cancel :=
    List.mem_map.mpr ⟨_, hmem, rfl⟩
  by_cases hw : e.cancel ∈ w.cancelled
  · exact List.mem_append_right _ hw
  · exact List.mem_append_left _ (List.mem_filter.mpr ⟨hc, by simp [hw]⟩)

theorem covered_of_held {w : Worker} {task : Task}
    (h : w.running.lookup task.runId = some task.entry) : Covered w task := by
  have hmem : (⟨task.runId, task.entry⟩ : Sigma _) ∈ w.running.entries :=
    AList.mem_lookup_iff.mp h
  refine ⟨h, List.mem_map.mpr ⟨_, hmem, rfl⟩, ?_, ?_⟩
  · simp [Worker.cancelRun, h, Task.entry]
  · exact mem_watchdog_cancelled h

variable (scaleDelay)

/-- What the worker's map is for. -/
structure Keeps (s : System) : Prop where
  covered : ∀ task ∈ s.worker.tasks, task.phase ≠ .reported → Covered s.worker task
  /-- The end of a task leaves the entries of the other tasks as they are. -/
  ends : ∀ i s', step scaleDelay s (.leave i) = some s' → ∀ task ∈ s'.worker.tasks,
    s'.worker.running.lookup task.runId = s.worker.running.lookup task.runId

variable {scaleDelay}

theorem Bookkept.keeps {s : System} (hb : Bookkept s.worker) : Keeps scaleDelay s where
  covered task ht _ := covered_of_held (hb.held task ht)
  ends i s' h other ho := by
    obtain ⟨task, hi, h⟩ := Option.bind_eq_some_iff.mp h
    split at h
    · obtain rfl := Option.some.inj h
      exact lookup_leave hb hi ho
    · cases h

/-- The map keeps track of the tasks in every state that a run passes through. -/
def BookkeepingSound (scaleDelay : ℕ → F64 → ℕ → ℕ) (init : System) (as : List Action) : Prop :=
  ∀ pre post s, as = pre ++ post → Runs.exec (step scaleDelay) init pre = some s →
    Keeps scaleDelay s

theorem bookkeepingSound_of_freshClaims (scaleDelay : ℕ → F64 → ℕ → ℕ) (jobs : List JobSpec)
    (worker : String) (maxConcurrency : ℕ) (as : List Action)
    (hc : Runs.Along (step scaleDelay) FreshClaim (.init jobs worker maxConcurrency) as) :
    BookkeepingSound scaleDelay (.init jobs worker maxConcurrency) as := by
  intro pre post s has h
  -- A prefix of the run meets the condition too.
  have hpre := ((Runs.along_append (step scaleDelay)).mp (has ▸ hc)).1
  exact (bookkept_run (bookkept_init worker maxConcurrency) hpre h).keeps

/-! ## A late answer -/

def quickRetry : JobSpec := ⟨"j", true, .script, 1, 5, 0, [], .retry, [], 1⟩

/-- The run `r` is queued for `w`, offered and claimed under the token `t`. -/
def claimedRun : List Action :=
  [.manager (.statement (.upsertWorker "w")), .manager (.statement (.syncJob "j")),
    .manager (.dispatch "r" "j" (some "w") 0 90), .beat, .serveHeartbeat 0 95, .receive 0,
    .cancelNext, .claimNext, .serveClaim 0 "t" 100, .receive 0, .endClaims]

/-- The task of `claimedRun` fails and reports; the manager keeps the run for a retry. -/
def failedRun : List Action :=
  [.runEnd 0 ⟨.failed, some 1, none, none, none, none⟩, .report 0, .serveComplete 0,
    .manager (.load 0), .manager (.decide 0 110), .manager (.update 0 110), .manager (.project 0),
    .manager (.count 0), .manager (.log 0 110), .answer 0]

/-- The retry is queued, offered and claimed under the token `t'`. -/
def claimedAgain : List Action :=
  [.manager (.tickList 120), .manager (.tickNext false), .manager .tickRequeue, .beat,
    .serveHeartbeat 0 120, .receive 1, .cancelNext, .cancelNext, .claimNext,
    .serveClaim 0 "t'" 121, .receive 1, .endClaims]

theorem bookkeepingSound_claimedRun :
    BookkeepingSound (fun d _ _ => d) (.init [quickRetry] "w" 2)
      (claimedRun ++ failedRun ++ [.receive 0, .leave 0]) :=
  bookkeepingSound_of_freshClaims _ _ _ _ _ (by decide +kernel)

/-- The answer to the first report arrives when the run has been claimed again: the first task
ends and removes the entry of the second. -/
theorem late_answer_uncovers_run :
    ¬BookkeepingSound (fun d _ _ => d) (.init [quickRetry] "w" 2)
      (claimedRun ++ failedRun ++ claimedAgain ++ [.receive 0, .leave 0]) := by
  intro h
  have hrun : (Runs.exec (step fun d _ _ => d) (.init [quickRetry] "w" 2)
      (claimedRun ++ failedRun ++ claimedAgain ++ [.receive 0, .leave 0])).any (fun s =>
        s.worker.tasks.any fun task => decide (task.phase = .executing) &&
          (s.worker.running.lookup task.runId).isNone) = true := by decide +kernel
  obtain ⟨s, hs, htask⟩ := (Option.any_eq_true _ _).mp hrun
  obtain ⟨task, hmem, hbad⟩ := List.any_eq_true.mp htask
  rw [Bool.and_eq_true, decide_eq_true_eq] at hbad
  have hheld := ((h _ [] s (List.append_nil _).symm hs).covered task hmem (by simp [hbad.1])).held
  simp [hheld] at hbad

end

end Synora.Cluster
