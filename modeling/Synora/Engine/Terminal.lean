import Synora.Engine.Outcome
import Synora.Storage.Snapshots

namespace Synora.Engine
open Core Storage

/-! # One execution of a job, from the storage lock to the terminal hooks -/

structure Hooks where
  beforeSync : List String
  afterSync : List String
  onSuccess : List String
  onFailure : List String
deriving DecidableEq, Repr

structure Safety where
  maxDeleteFiles : Option ℕ
  maxDeleteRatio : Option F64
  maxSizeDropRatio : Option F64
deriving DecidableEq, Repr

structure VerifyConfig where
  enabled : Bool
  checks : List String
  command : Option String
deriving DecidableEq, Repr

/-- What `run_once` reads of a job. -/
structure RunJob where
  spec : JobSpec
  storage : String
  statistics : StatisticsMode
  /-- `timeout.whole_seconds()` -/
  timeout : Option ℤ
  failOnMatch : Option String
  hooks : Hooks
  safety : Safety
  verify : VerifyConfig
  snapshotPolicy : SnapshotPolicy
  snapshotFailure : SnapshotFailure

/-- A `SyncResult` with the output that is kept for parsing. -/
structure SyncOutput where
  result : SyncResult
  stdout : String
  stderr : String
deriving DecidableEq, Repr

/-- What a provider does when it is left alone. -/
structure ProviderRun where
  /-- The milliseconds after which it comes back, if it ever does. -/
  millis : Option ℕ
  result : Except ProviderError SyncOutput

/-- The snapshot backend of the storage: what its two snapshots come to. -/
structure Snapshotter where
  before : Except String Unit
  after : Except String Unit

/-- What one of the verify checks finds. -/
structure Finding where
  present : Bool
  /-- `walk_size` -/
  size : ℕ
  /-- The exit code of the verify command. -/
  command : Except String (Option Int32)

/-- What the machine answers while the execution lasts. -/
structure Answers where
  lock : Except String Unit
  /-- The token is cancelled before the execution begins. -/
  stopped : Bool
  /-- `manager.ensure` and then `check_min_free`, if the job has a managed storage section. -/
  ensured : Option (Except String (Except String Unit))
  storageDir : Except String Unit
  snapshots : Option Snapshotter
  provider : Except ProviderError ProviderRun
  /-- Which branch `select!` takes when both are ready. -/
  tie : Bool
  /-- The files and bytes of the two walks. -/
  before : ℕ × ℕ
  after : ℕ × ℕ
  findings : ℕ → Finding
  seconds : ℤ

/-- What other crates and floating point do here. -/
structure Outer where
  /-- `Regex::new(re).ok().map(|rx| rx.is_match(hay))` -/
  isMatch : String → String → Option Bool
  /-- `deleted / files > ratio` -/
  exceeds : ℕ → ℕ → F64 → Bool
  /-- `after < before * (1.0 - ratio)` -/
  below : ℕ → ℕ → F64 → Bool
  /-- `{:.1}` of the hundredfold quotient -/
  percent : ℕ → ℕ → String
  showF64 : F64 → String

/-! ## Hooks -/

inductive HookList
  | beforeSync | afterSync | onSuccess | onFailure
deriving DecidableEq, Repr

structure StartedHook where
  list : HookList
  command : String
  /-- `TUNASYNC_JOB_EXIT_STATUS` -/
  status : Option String
deriving DecidableEq, Repr

/-- `run_hooks`. How a hook ends does not matter to the next one. -/
def runHooks (cancelled : Bool) (list : HookList) (status : Option String) :
    List String → List StartedHook
  | [] => []
  | hook :: hooks =>
    if cancelled then [] else ⟨list, hook, status⟩ :: runHooks cancelled list status hooks

/-! ## Up to the provider -/

def ensureStorage (a : Answers) : Except ProviderError Unit :=
  match a.ensured with
  | none | some (.ok (.ok ())) => .ok ()
  | some (.ok (.error e)) => .error (.other ("BLOCKED_STORAGE: " ++ e))
  | some (.error e) => .error (.other ("storage: " ++ e))

def createStorageDir (a : Answers) : Except ProviderError Unit :=
  match a.storageDir with
  | .ok () => .ok ()
  | .error e => .error (.config ("cannot create storage dir: " ++ e))

def wantsBefore (policy : SnapshotPolicy) : Bool :=
  decide (policy = .beforeSync ∨ policy = .beforeAndAfter)

def unavailable : String := "snapshot backend unavailable for this storage"

def snapshotBefore (job : RunJob) (a : Answers) : Except ProviderError Unit :=
  if wantsBefore job.snapshotPolicy then
    match (a.snapshots.map Snapshotter.before).getD (.error unavailable) with
    | .ok () => .ok ()
    | .error e =>
      if job.snapshotFailure = .fail then .error (.other ("before-sync snapshot: " ++ e))
      else .ok ()
  else .ok ()

/-- What `run_once_inner` does until it calls the provider. -/
def prepare (job : RunJob) (a : Answers) : Except ProviderError ProviderRun := do
  ensureStorage a
  createStorageDir a
  snapshotBefore job a
  a.provider

/-- The timeout runs out before the provider comes back. -/
def timesOut (timeout : Option ℤ) (tie : Bool) (p : ProviderRun) : Bool :=
  match timeout with
  | none => false
  | some seconds =>
    -- A timeout of zero is one of a second.
    let limit := (max seconds 1).toNat * 1000
    match p.millis with
    | none => true
    | some millis => decide (limit < millis) || decide (limit = millis) && tie

/-! ## The verdict -/

def safetyOn (safety : Safety) : Bool :=
  safety.maxDeleteFiles.isSome || safety.maxDeleteRatio.isSome || safety.maxSizeDropRatio.isSome

section
variable (o : Outer) (job : RunJob) (a : Answers)

/-- The first limit that the two walks breach. -/
def safetyViolation : Option ProviderError :=
  if safetyOn job.safety then
    let deleted := a.before.1 - a.after.1
    let files := (job.safety.maxDeleteFiles.filter fun n => decide (n < deleted)).map fun n =>
      "safety: deleted " ++ toString deleted ++ " files, over max_delete_files=" ++ toString n
    let ratio := (job.safety.maxDeleteRatio.filter fun r =>
        decide (0 < a.before.1) && o.exceeds deleted a.before.1 r).map fun r =>
      "safety: deleted " ++ toString deleted ++ "/" ++ toString a.before.1 ++ " files (" ++
        o.percent deleted a.before.1 ++ "%), over max_delete_ratio=" ++ o.showF64 r
    let size := (job.safety.maxSizeDropRatio.filter fun r =>
        decide (0 < a.before.2) && o.below a.after.2 a.before.2 r).map fun r =>
      "safety: size dropped from " ++ toString a.before.2 ++ " to " ++ toString a.after.2 ++
        " bytes, over max_size_drop_ratio=" ++ o.showF64 r
    ((files.or ratio).or size).map .other
  else none

def failOnMatch (out : SyncOutput) : Except ProviderError SyncOutput :=
  match job.failOnMatch with
  | some re =>
    if (o.isMatch re (out.stdout ++ "\n" ++ out.stderr)).getD false then
      .error (.other ("output matched fail_on_match `" ++ re ++ "`"))
    else .ok out
  | none => .ok out

/-- `{:?}` of an exit code. -/
def debugCode : Option Int32 → String
  | some code => "Some(" ++ toString code.toInt ++ ")"
  | none => "None"

/-- One check of `run_verify`. -/
def runCheck (r : SyncResult) (f : Finding) : String → Except String Unit
  | "path" =>
    if f.present then .ok () else .error ("storage path " ++ job.storage ++ " missing")
  | "size" =>
    let size := (r.sizeHint.map UInt64.toNat).or
      (if job.statistics = .filesystem then some f.size else none)
    if size.getD 0 = 0 then .error "repository size is zero" else .ok ()
  | "command" =>
    match job.verify.command with
    | none => .error "verify `command` check configured without a command"
    | some cmd =>
      match f.command with
      | .error e => .error e
      | .ok (some 0) => .ok ()
      | .ok code => .error ("verify command `" ++ cmd ++ "` exited with " ++ debugCode code)
  | other => .error ("unknown verify check `" ++ other ++ "`")

def runChecks (r : SyncResult) : ℕ → List String → Except String Unit
  | _, [] => .ok ()
  | i, check :: checks =>
    match runCheck job r (a.findings i) check with
    | .error e => .error e
    | .ok () => runChecks r (i + 1) checks

/-- `run_verify` -/
def runVerify (r : SyncResult) : Except String Unit :=
  if job.verify.enabled then runChecks job a r 0 job.verify.checks else .ok ()

/-- What the snapshot after a success makes of the result. -/
def snapshotAfter (out : SyncOutput) : Except ProviderError SyncOutput :=
  if wantsAfter job.snapshotPolicy then
    match a.snapshots with
    | some p =>
      match p.after with
      | .ok () => .ok out
      | .error e =>
        if job.snapshotFailure = .fail then .error (.other ("after-success snapshot: " ++ e))
        else .ok out
    -- Without a backend a run fails only where a failed snapshot would fail it.
    | none => if job.snapshotFailure = .fail then .error (.other unavailable) else .ok out
  else .ok out

/-- What becomes of the provider's result. -/
def verdict (outcome : Except ProviderError SyncOutput) : Except ProviderError SyncOutput :=
  match outcome with
  | .error e => .error e
  | .ok out =>
    match safetyViolation o job a with
    | some e => .error e
    | none =>
      match failOnMatch o job out with
      | .error e => .error e
      | .ok out =>
        match runVerify job a out.result with
        | .error e => .error (.other ("verify failed: " ++ e))
        | .ok () => snapshotAfter job a out

/-! ## The execution -/

structure Execution where
  outcome : RunOutcome
  hooks : List StartedHook
  /-- The state of the token that the execution shares with its hooks. -/
  cancelled : Bool

/-- `run_once_inner`; `none` while the provider does not come back and has no timeout. -/
def runOnceInner : Option Execution :=
  match prepare job a with
  | .error e => some ⟨⟨.error e, a.seconds⟩, [], false⟩
  | .ok p =>
    let before := runHooks false .beforeSync none job.hooks.beforeSync
    let execution (cancelled : Bool) (outcome : Except ProviderError SyncOutput) : Execution :=
      ⟨⟨(verdict o job a outcome).map SyncOutput.result, a.seconds⟩,
        before ++ runHooks cancelled .afterSync none job.hooks.afterSync, cancelled⟩
    -- The timeout cancels the token, waits for the provider, and drops what it comes back with.
    if timesOut job.timeout a.tie p then some (execution true (.error .timeout))
    else p.millis.map fun _ => execution false p.result

/-- The terminal hooks, on the token of the execution. -/
def Execution.terminal (e : Execution) : Execution :=
  { e with
    hooks := e.hooks ++
      if (e.outcome.successful job.spec).isSome then
        runHooks e.cancelled .onSuccess (some "success") job.hooks.onSuccess
      else runHooks e.cancelled .onFailure (some "failure") job.hooks.onFailure }

/-- `run_once` -/
def runOnce : Option Execution :=
  match a.lock with
  | .error e => some ⟨⟨.error (.other e), 0⟩, [], a.stopped⟩
  | .ok () =>
    if a.stopped then some ⟨⟨.error .cancelled, 0⟩, [], true⟩
    else (runOnceInner o job a).map fun e => e.terminal job

/-! ## Which hooks are started -/

variable {job a}

/-- The commands of one list, in the order in which they were started. -/
def Execution.started (e : Execution) (list : HookList) : List String :=
  (e.hooks.filter fun h => decide (h.list = list)).map StartedHook.command

/-- All hooks of the list that goes with the outcome are started, and none of the other list. -/
structure Execution.Matches (job : RunJob) (e : Execution) : Prop where
  onSuccess : e.started .onSuccess =
    if (e.outcome.successful job.spec).isSome then job.hooks.onSuccess else []
  onFailure : e.started .onFailure =
    if (e.outcome.successful job.spec).isSome then [] else job.hooks.onFailure

/-- The provider is called, and still runs when the timeout of the job is over. -/
def TimedOut (job : RunJob) (a : Answers) : Prop :=
  ∃ p, prepare job a = .ok p ∧ timesOut job.timeout a.tie p = true

theorem runHooks_cancelled (list : HookList) (status : Option String) (hooks : List String) :
    runHooks true list status hooks = [] := by
  cases hooks <;> rfl

theorem runHooks_running (list : HookList) (status : Option String) (hooks : List String) :
    runHooks false list status hooks = hooks.map fun hook => ⟨list, hook, status⟩ := by
  induction hooks with
  | nil => rfl
  | cons hook hooks ih => rw [runHooks, if_neg Bool.false_ne_true, ih, List.map_cons]

/-- The hooks of one list all carry its name. -/
theorem filter_runHooks (cancelled : Bool) (list list' : HookList) (status : Option String)
    (hooks : List String) :
    ((runHooks cancelled list status hooks).filter fun h => decide (h.list = list')).map
        StartedHook.command =
      if list = list' ∧ cancelled = false then hooks else [] := by
  cases cancelled with
  | true => simp [runHooks_cancelled]
  | false =>
    rw [runHooks_running]
    by_cases h : list = list' <;> simp [h, List.filter_map, Function.comp_def]

/-- What the execution says about itself before the terminal hooks. -/
theorem runOnceInner_spec {e : Execution} (h : runOnceInner o job a = some e) :
    e.started .onSuccess = [] ∧ e.started .onFailure = [] ∧ (e.cancelled = true ↔ TimedOut job a) ∧
      (e.cancelled = true → e.outcome.successful job.spec = none) := by
  rw [runOnceInner] at h
  cases hp : prepare job a with
  | error err =>
    rw [hp] at h
    cases h
    exact ⟨rfl, rfl, by simp [TimedOut, hp], by simp⟩
  | ok p =>
    rw [hp] at h
    cases ht : timesOut job.timeout a.tie p with
    | true =>
      simp only [ht, if_true] at h
      cases h
      refine ⟨?_, ?_, iff_of_true rfl ⟨p, hp, ht⟩, fun _ => rfl⟩ <;>
        simp [Execution.started, List.filter_append, filter_runHooks]
    | false =>
      simp only [ht, Bool.false_eq_true, if_false] at h
      obtain ⟨millis, -, rfl⟩ := Option.map_eq_some_iff.mp h
      refine ⟨?_, ?_, by simp [TimedOut, hp, ht], by simp⟩ <;>
        simp [Execution.started, List.filter_append, filter_runHooks]

/-- The terminal hooks of an execution that has come to its end. -/
theorem matches_iff {e : Execution} (h : runOnceInner o job a = some e) :
    (e.terminal job).Matches job ↔ ¬(TimedOut job a ∧ job.hooks.onFailure ≠ []) := by
  obtain ⟨hs, hf, hcancel, hfailed⟩ := runOnceInner_spec o h
  rw [← hcancel]
  have hstarted (list : HookList) : (e.terminal job).started list = e.started list ++
      if (e.outcome.successful job.spec).isSome then
        if HookList.onSuccess = list ∧ e.cancelled = false then job.hooks.onSuccess else []
      else if HookList.onFailure = list ∧ e.cancelled = false then job.hooks.onFailure else [] := by
    rw [Execution.started, Execution.terminal, List.filter_append, List.map_append]
    split <;> rw [filter_runHooks] <;> rfl
  have hsame : (e.terminal job).outcome = e.outcome := rfl
  cases hok : (e.outcome.successful job.spec).isSome with
  | true =>
    -- A success has not timed out.
    have hrunning : e.cancelled = false := by
      by_contra hne
      rw [hfailed (Bool.eq_true_of_not_eq_false hne)] at hok
      cases hok
    refine iff_of_true ⟨?_, ?_⟩ (by simp [hrunning]) <;>
      simp [hstarted, hsame, hs, hf, hok, hrunning]
  | false =>
    constructor
    · rintro hm ⟨hc, hne⟩
      have hnone := hm.onFailure
      rw [hstarted, hsame, hf, hok, hc] at hnone
      exact hne (by simpa using hnone.symm)
    · intro hnot
      refine ⟨by simp [hstarted, hsame, hs, hok], ?_⟩
      rw [hstarted, hsame, hf, hok]
      cases hc : e.cancelled with
      | true => simpa [hc] using hnot
      | false => simp

/-- An execution that gets its lock and is not stopped from outside starts the hooks that go with
its outcome, unless the timeout has run out and there are hooks for a failure. -/
theorem terminal_hooks_iff (job : RunJob) (a : Answers) (hlock : a.lock = .ok ())
    (hstop : a.stopped = false) :
    (∀ e, runOnce o job a = some e → e.Matches job) ↔
      ¬(TimedOut job a ∧ job.hooks.onFailure ≠ []) := by
  have hrun : runOnce o job a = (runOnceInner o job a).map fun e => e.terminal job := by
    rw [runOnce, hlock, hstop]
    rfl
  rw [hrun]
  cases hinner : runOnceInner o job a with
  | some e =>
    rw [← matches_iff o hinner]
    exact ⟨fun h => h _ rfl, fun h e' he' => by cases he'; exact h⟩
  | none =>
    -- A provider that never comes back has no timeout, and nothing is to be shown.
    refine iff_of_true (fun e he => by cases he) ?_
    rintro ⟨⟨p, hp, ht⟩, -⟩
    simp [runOnceInner, hp, ht] at hinner

end

/-! ## A job with a hook for each ending -/

def hookedJob : RunJob where
  spec := ⟨"debian", true, .script, 0, 0, 0, [], .retry, [], 1⟩
  storage := "/srv/mirror/debian"
  statistics := .provider
  timeout := some 3600
  failOnMatch := none
  hooks := ⟨[], [], ["notify ok"], ["notify failed"]⟩
  safety := ⟨none, none, none⟩
  verify := ⟨false, [], none⟩
  snapshotPolicy := .never
  snapshotFailure := .warn

/-- A machine without surprises, on which the provider comes back after `millis`. -/
def comesBack (millis : Option ℕ) (result : Except ProviderError SyncOutput) : Answers where
  lock := .ok ()
  stopped := false
  ensured := none
  storageDir := .ok ()
  snapshots := none
  provider := .ok ⟨millis, result⟩
  tie := false
  before := (0, 0)
  after := (0, 0)
  findings _ := ⟨true, 0, .ok (some 0)⟩
  seconds := 0

def noMatch : Outer :=
  ⟨fun _ _ => some false, fun _ _ _ => false, fun _ _ _ => false, fun _ _ => "", fun _ => ""⟩

/-- A provider that fails in time leaves its failure hook started. -/
theorem terminal_hooks_iff_failed : ∃ e,
    runOnce noMatch hookedJob (comesBack (some 1000) (.error (.exit 1))) = some e ∧
      e.Matches hookedJob :=
  ⟨_, rfl, (terminal_hooks_iff noMatch hookedJob (comesBack (some 1000) (.error (.exit 1)))
    rfl rfl).mpr (by
      rintro ⟨⟨p, hp, ht⟩, -⟩
      cases hp
      exact absurd ht (by decide)) _ rfl⟩

/-- A provider that hangs is stopped after the hour, and nobody is notified. -/
theorem timeout_starts_no_hook : ∃ e,
    runOnce noMatch hookedJob (comesBack none (.error .cancelled)) = some e ∧
      e.outcome.result = .error .timeout ∧ e.hooks = [] ∧ ¬e.Matches hookedJob :=
  ⟨_, rfl, rfl, rfl, fun h => absurd h.onFailure (by decide)⟩

end Synora.Engine
