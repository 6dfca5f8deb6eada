import Synora.Engine.ReloadFrame
import Synora.Lib.Runs

namespace Synora.Engine
open Core Db Table Script World Runs

/-! ## A daemon start -/

/-- What one start takes from outside. The jobs stand in the order of the live map. -/
structure Start where
  cfg : ResolvedConfig
  now : Time
  ids : String → String
  stamps : String → Time
  fails : ℕ → Option String

/-- `Engine::new`: the maps come from the file, the tables from the last life. -/
def World.boot (cfg : ResolvedConfig) (w : World) : World :=
  { w with
    liveJobs := cfg.jobs, jobLocks := cfg.jobs.map JobDef.name
    routing := cfg.routing, settings := cfg.settings }

def syncStarted (cal : Calendar) (b : Start) (job : JobDef) : List (Op World String) :=
  .call (World.syncJob job (b.stamps job.name)) ::
    syncScheduleFor cal job (b.ids job.name) b.now true

/-- The jobs the database knows and the file does not. -/
def World.strangers (w : World) (cfg : ResolvedConfig) : List String :=
  (w.tables.jobs.map JobRow.name).filter fun n => decide (n ∉ cfg.jobs.map JobDef.name)

/-- The end of `sync_config`: `job_status_list`, then the purges. -/
def purgeStrangers (cfg : ResolvedConfig) (w : World) : List (Op World String) :=
  .call (fun v => v) :: (w.strangers cfg).flatMap (forgetRemoved w)

def syncConfig (cal : Calendar) (b : Start) (w : World) : Verdict String × World :=
  let sync := b.cfg.jobs.flatMap (syncStarted cal b)
  match run b.fails 0 sync (w.boot b.cfg) with
  | (.ok, v) => run b.fails sync.length (purgeStrangers b.cfg v) v
  | stopped => stopped

theorem foreignTo_purgeStrangers {cfg : ResolvedConfig} {name : String}
    (h : name ∈ cfg.jobs.map JobDef.name) (w : World) :
    ForeignTo name (purgeStrangers cfg w) := by
  intro op hop
  simp only [purgeStrangers, List.mem_cons, List.mem_flatMap] at hop
  obtain rfl | ⟨other, ho, hop⟩ := hop
  · exact fun v u hu => hu
  · refine foreignTo_forgetJobCurrent (fun he => ?_) _ op hop
    simp only [World.strangers, List.mem_filter, decide_eq_true_eq] at ho
    exact ho.2 (he ▸ h)

theorem foreignTo_syncStarted {cal : Calendar} {b : Start} {job : JobDef} {name : String}
    (h : name ≠ job.name) : ForeignTo name (syncStarted cal b job) := by
  intro op hop v
  obtain rfl | hop := List.mem_cons.mp hop
  · exact (foreign_syncJob h (b.stamps job.name)).keeps v
  · exact foreignTo_syncScheduleFor h _ _ _ op hop v

theorem syncConfig_ok {cal : Calendar} {b : Start} {w w' : World}
    (h : syncConfig cal b w = (.ok, w')) :
    ∃ v n, run b.fails 0 (b.cfg.jobs.flatMap (syncStarted cal b)) (w.boot b.cfg) = (.ok, v) ∧
      run b.fails n (purgeStrangers b.cfg v) v = (.ok, w') := by
  rw [syncConfig] at h
  rcases hrun : run b.fails 0 (b.cfg.jobs.flatMap (syncStarted cal b)) (w.boot b.cfg) with
    ⟨verdict, v⟩
  rw [hrun] at h
  cases verdict with
  | ok => exact ⟨v, _, rfl, h⟩
  | err e => cases h
  | panicked => cases h

/-- What the lines of the sync keep of the live map and of the schedules. -/
theorem syncStarted_keeps_maps {cal : Calendar} {b : Start} {jobs : List JobDef}
    {I : List JobDef → List ScheduleRow → Prop} (hrows : ∀ job ∈ jobs, ∀ live rows, I live rows →
      I live (syncScheduleRow cal job b.now true rows)) :
    ∀ op ∈ jobs.flatMap (syncStarted cal b), op.Keeps fun u => I u.liveJobs u.schedules := by
  intro op hop
  obtain ⟨job, hj, hop⟩ := List.mem_flatMap.mp hop
  simp only [syncStarted, syncScheduleFor, List.mem_cons, List.not_mem_nil, or_false] at hop
  obtain rfl | rfl | rfl | rfl | rfl | rfl := hop
  · exact fun _ hu => hu
  · exact fun _ hu => hu
  · trivial
  · trivial
  · exact fun _ hu => hu
  · exact fun u hu => hrows job hj u.liveJobs u.schedules hu

/-- What the sync and the purges keep, a start keeps. -/
theorem syncConfig_ok_keeps {cal : Calendar} {b : Start} {w w' : World}
    {I : List JobDef → List ScheduleRow → Prop} (h : syncConfig cal b w = (.ok, w'))
    (hsync : ∀ job ∈ b.cfg.jobs, ∀ live rows, I live rows →
      I live (syncScheduleRow cal job b.now true rows))
    (hlive : ∀ other live rows, I live rows →
      I (live.filter fun j => decide (j.name ≠ other)) rows)
    (hrows : ∀ other live rows, I live rows → I live (Engine.deleteSchedule other rows))
    (hboot : I b.cfg.jobs w.schedules) : I w'.liveJobs w'.schedules := by
  obtain ⟨v, n, hrun, hpurge⟩ := syncConfig_ok h
  have hv : I v.liveJobs v.schedules := keeps_of_run_ok
    (I := fun u : World => I u.liveJobs u.schedules) (syncStarted_keeps_maps hsync) hboot hrun
  refine keeps_of_run_ok (I := fun u : World => I u.liveJobs u.schedules) ?_ hv hpurge
  intro op hop
  simp only [purgeStrangers, List.mem_cons, List.mem_flatMap] at hop
  obtain rfl | ⟨other, -, hop⟩ := hop
  · exact fun _ hu => hu
  · exact forgetJobCurrent_keeps (hlive other) (hrows other) _ op hop

/-- A start brings no live definition that is not in the file. -/
theorem liveJobs_syncConfig {cal : Calendar} {b : Start} {w w' : World}
    (h : syncConfig cal b w = (.ok, w')) : ∀ x ∈ w'.liveJobs, x ∈ b.cfg.jobs := by
  refine syncConfig_ok_keeps (I := fun live _ => ∀ x ∈ live, x ∈ b.cfg.jobs) h
    (fun _ _ _ _ hlive => hlive) ?_ (fun _ _ _ hlive => hlive) fun _ hx => hx
  exact fun _ _ _ hlive x hx => hlive x (List.mem_of_mem_filter hx)

/-- A start that succeeds leaves the stored schedules in step with the live definitions. -/
theorem mirrored_syncConfig {cal : Calendar} {b : Start} {w w' : World}
    (h : syncConfig cal b w = (.ok, w')) : w'.Mirrored cal := by
  intro name live hl
  obtain ⟨hm, rfl⟩ := lookup_eq_some_mem hl
  have hj := liveJobs_syncConfig h live hm
  obtain ⟨v, n, hsync, hpurge⟩ := syncConfig_ok h
  obtain ⟨k, u, u', hu, -, hv⟩ := loop_block b.cfg.nodup (fun _ => foreignTo_syncStarted) hj hsync
  have hlast := (foreignTo_purgeStrangers (List.mem_map_of_mem hj) v).view_ok hpurge
  simp only [syncStarted, syncScheduleFor, run_call_ok, run_check_ok, run_assert_ok,
    run_nil_ok] at hu
  obtain ⟨row, hrow, hheld⟩ := unchanged_syncScheduleRow cal live b.now true u.schedules
  refine ⟨row, (congrArg JobView.schedule (hlast.trans hv)).trans ?_, hheld⟩
  rw [← hu.2.2.2.2.2.2]
  exact hrow

/-! ## The passes -/

/-- `recompute_next`; `none` is a panic. -/
def recomputeNext (cal : Calendar) (name : String) (now : Time) (w : World) : Option World :=
  match w.schedule name, w.job name with
  | some row, some job =>
    if ¬cal.knownZone row.timezone then some w
    else if ¬isTimestamp now then none
    else
      let anchor := row.anchorAt.map fun a => if isTimestamp a then a else now
      (nextAfter cal job.schedule row.timezone anchor now).map fun next =>
        { w with schedules := setNextRun name next none w.schedules }
  | _, _ => some w

/-- `recompute_next` writes the slot that `next_after` names, or nothing. -/
theorem recomputeNext_cases {cal : Calendar} {name : String} {now : Time} {w w' : World}
    (h : recomputeNext cal name now w = some w') :
    w' = w ∨ ∃ row job next, w.schedule name = some row ∧ w.job name = some job ∧ isTimestamp now ∧
      nextAfter cal job.schedule row.timezone
        (row.anchorAt.map fun a => if isTimestamp a then a else now) now = some next ∧
      w' = { w with schedules := setNextRun name next none w.schedules } := by
  rw [recomputeNext] at h
  split at h
  · rename_i row job hrow hjob
    split at h
    · exact Or.inl (Option.some.inj h).symm
    · split at h
      · cases h
      · rename_i ht
        obtain ⟨next, hnext, rfl⟩ := Option.map_eq_some_iff.mp h
        exact Or.inr ⟨row, job, next, hrow, hjob, by simpa using ht, hnext, rfl⟩
  · exact Or.inl (Option.some.inj h).symm

/-- The rows `boot_pass` handles: due before this boot. -/
def World.missed (w : World) (boot now : Time) : List String :=
  (w.schedules.filter fun row => row.nextRun.any fun n => decide (n ≤ now ∧ n < boot)).map
    ScheduleRow.jobName

def World.due (w : World) (now : Time) : List String :=
  (w.schedules.filter fun row => row.nextRun.any fun n => decide (n ≤ now)).map
    ScheduleRow.jobName

/-! ## The machine -/

inductive Activity
  | down
  | idle
  /-- A pass holds the configuration gate; these rows are left. -/
  | passing (names : List String)
deriving DecidableEq, Repr

def Activity.afterRows : List String → Activity
  | [] => .idle
  | names => .passing names

/-- The part of the daemon that reads and writes schedules. -/
structure Scheduler where
  world : World
  activity : Activity
  clock : Time

inductive SchedAction
  | start (b : Start)
  | bootPass (boot now : Time)
  /-- `now` was read when the tick began. -/
  | dispatchDue (now : Time)
  /-- The next row of a pass, after whatever time its dispatch took; a failed store call leaves the
  row as it is. -/
  | recompute (now : Time) (stored : Bool)
  | reload (r : Reload)
  /-- Runs, logs and job states move on. -/
  | work (tables : Tables)
  | stop

/-- One step; the clock does not go back. -/
def schedStep (cal : Calendar) (s : Scheduler) : SchedAction → Option Scheduler
  | .start b =>
    if s.activity = .down ∧ s.clock ≤ b.now then
      let (verdict, w) := syncConfig cal b s.world
      some ⟨w, if verdict = .ok then .idle else .down, b.now⟩
    else none
  | .bootPass boot now =>
    if s.activity = .idle ∧ s.clock ≤ now then
      some { s with activity := .afterRows (s.world.missed boot now), clock := now }
    else none
  | .dispatchDue now =>
    if s.activity = .idle then some { s with activity := .afterRows (s.world.due now) } else none
  | .recompute now stored =>
    match s.activity with
    | .passing (name :: names) =>
      if s.clock ≤ now then
        match recomputeNext cal name now s.world with
        | some w => some ⟨if stored then w else s.world, .afterRows names, now⟩
        | none => some ⟨s.world, .idle, now⟩
      else none
    | _ => none
  | .reload r =>
    if s.activity = .idle ∧ s.clock ≤ r.now then
      some ⟨(reload cal r s.world).2, .idle, r.now⟩
    else none
  | .work tables => some { s with world := { s.world with tables } }
  | .stop => some { s with activity := .down }

/-- What a step does to the schedules and to the live map. -/
inductive ScheduleMoves (cal : Calendar) (s s' : Scheduler) : SchedAction → Prop
  | start {b : Start} (hw : s'.world = (syncConfig cal b s.world).2) :
      ScheduleMoves cal s s' (.start b)
  | reload {r : Reload} (hidle : s.activity = .idle)
      (hw : s'.world = (Engine.reload cal r s.world).2) : ScheduleMoves cal s s' (.reload r)
  | recompute {now : Time} {stored : Bool} {name : String} (hup : s.activity ≠ .down)
      (hw : recomputeNext cal name now s.world = some s'.world) :
      ScheduleMoves cal s s' (.recompute now stored)
  | stay {act : SchedAction} (hup : s'.activity ≠ .down → s.activity ≠ .down)
      (hs : s'.world.schedules = s.world.schedules)
      (hl : s'.world.liveJobs = s.world.liveJobs) : ScheduleMoves cal s s' act

theorem schedStep_moves {cal : Calendar} {s s' : Scheduler} {act : SchedAction}
    (h : schedStep cal s act = some s') : ScheduleMoves cal s s' act := by
  cases act with
  | start b =>
    simp only [schedStep, Option.ite_none_right_eq_some, Option.some.injEq] at h
    obtain ⟨-, rfl⟩ := h
    exact .start rfl
  | bootPass boot now =>
    simp only [schedStep, Option.ite_none_right_eq_some, Option.some.injEq] at h
    obtain ⟨⟨hidle, -⟩, rfl⟩ := h
    exact .stay (fun _ => by simp [hidle]) rfl rfl
  | dispatchDue now =>
    simp only [schedStep, Option.ite_none_right_eq_some, Option.some.injEq] at h
    obtain ⟨hidle, rfl⟩ := h
    exact .stay (fun _ => by simp [hidle]) rfl rfl
  | recompute now stored =>
    rw [schedStep] at h
    split at h
    · rename_i name names ha
      have hup : s.activity ≠ .down := by simp [ha]
      rw [Option.ite_none_right_eq_some] at h
      obtain ⟨-, h⟩ := h
      cases hr : recomputeNext cal name now s.world with
      | none =>
        obtain rfl := Option.some.inj (hr ▸ h)
        exact .stay (fun _ => hup) rfl rfl
      | some w =>
        obtain rfl := Option.some.inj (hr ▸ h)
        cases stored with
        | true => exact .recompute hup hr
        | false => exact .stay (fun _ => hup) rfl rfl
    · cases h
  | reload r =>
    simp only [schedStep, Option.ite_none_right_eq_some, Option.some.injEq] at h
    obtain ⟨⟨hidle, -⟩, rfl⟩ := h
    exact .reload hidle rfl
  | work tables =>
    obtain rfl := Option.some.inj h
    exact .stay id rfl rfl
  | stop =>
    obtain rfl := Option.some.inj h
    exact .stay (fun hne => absurd rfl hne) rfl rfl

theorem recomputeNext_live {cal : Calendar} {name : String} {now : Time} {w w' : World}
    (h : recomputeNext cal name now w = some w') : w'.liveJobs = w.liveJobs := by
  obtain rfl | ⟨-, -, next, -, -, -, -, rfl⟩ := recomputeNext_cases h <;> rfl

end Synora.Engine
