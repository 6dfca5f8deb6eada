import Synora.Engine.Scheduler

namespace Synora.Engine
open Core Db Table Script World Runs

section Interval

variable (cal : Calendar) (name tz : String) (every : ℤ)

/-- The row holds the interval schedule. -/
def ScheduleRow.Holds (row : ScheduleRow) : Prop :=
  row.scheduleJson = cal.toJson (.interval every) ∧ row.timezone = tz

/-- The interval schedule has not been stored yet. -/
def Unsynced (row : Option ScheduleRow) : Prop := ∀ x, row = some x → ¬x.Holds cal tz every

/-- The stored schedule has the anchor `a` and is due on its grid. -/
def Anchored (a : ℤ) (row : Option ScheduleRow) : Prop :=
  ∃ x, row = some x ∧ x.Holds cal tz every ∧ isTimestamp a ∧ x.anchorAt = some a ∧
    ∃ k : ℕ, x.nextRun = some (a + k * every)

/-- The live definition, if there is one, has the interval schedule. -/
def LiveInterval (live : Option JobDef) : Prop := ∀ x, live = some x → x.schedule = .interval every

/-- The configuration has the job with this schedule and this timezone. -/
def ResolvedConfig.Has (cfg : ResolvedConfig) : Prop :=
  ∃ job ∈ cfg.jobs, job.name = name ∧ job.schedule = .interval every ∧ job.timezone = tz

/-- Starts and reloads bring configurations that keep the schedule and the timezone. -/
def SchedAction.KeepsInterval : SchedAction → Prop
  | .start b => b.cfg.Has name tz every
  | .reload r => ∀ cfg, r.loaded = .ok cfg → cfg.Has name tz every
  | _ => True

/-- A reload that stores the schedule over another one of a live job succeeds. -/
def FirstSync (s : Scheduler) : SchedAction → Prop
  | .reload r => s.activity = .idle → LiveInterval every (s.world.job name) ∨
      (∃ n, (reload cal r s.world).1 = some (.ok n)) ∨
      Unsynced cal tz every ((reload cal r s.world).2.schedule name)
  | _ => True

end Interval

variable {cal : Calendar} {name tz : String} {every a : ℤ} {cfg : ResolvedConfig} {w w' : World}
  {r : Reload} {b : Start}

/-! ## One schedule row -/

theorem holds_iff_unchanged {job : JobDef} {row : ScheduleRow} (hs : job.schedule = .interval every)
    (ht : job.timezone = tz) : row.Holds cal tz every ↔ row.unchanged cal job := by
  simp [ScheduleRow.Holds, ScheduleRow.unchanged, hs, ht]

/-- Syncing the schedule again moves neither the anchor nor the due time. -/
theorem Anchored.sync {job : JobDef} {rows : List ScheduleRow} (hs : job.schedule = .interval every)
    (ht : job.timezone = tz) (h : Anchored cal tz every a (getSchedule rows job.name)) (now : Time)
    (immediate : Bool) :
    Anchored cal tz every a
      (getSchedule (syncScheduleRow cal job now immediate rows) job.name) := by
  obtain ⟨row, hrow, hh, ha, hanchor, hgrid⟩ := h
  obtain ⟨row', hrow', hu, hnext, hanchor'⟩ :=
    syncScheduleRow_of_unchanged hrow ((holds_iff_unchanged hs ht).mp hh) now immediate
  refine ⟨row', hrow', (holds_iff_unchanged hs ht).mpr hu, ha, hanchor'.trans hanchor, ?_⟩
  rwa [hnext]

/-- Its first sync makes `now` the anchor, and the anchor or the slot after it the due time. -/
theorem Unsynced.sync {job : JobDef} {rows : List ScheduleRow} (hs : job.schedule = .interval every)
    (ht : job.timezone = tz) (he : 1 ≤ every) (hi : every ≤ 2 ^ 63 - 1 - 253402300799)
    (h : Unsynced cal tz every (getSchedule rows job.name)) {now : ℤ} (hn : isTimestamp now)
    (immediate : Bool) :
    Anchored cal tz every now
      (getSchedule (syncScheduleRow cal job now immediate rows) job.name) := by
  have htimes : syncedTimes cal (getSchedule rows job.name) job now immediate =
      (some (if immediate then now else now + every), some now) := by
    have hsum : saturatingAdd now (max every 1) = now + every := by
      simp only [isTimestamp, decide_eq_true_eq] at hn
      rw [saturatingAdd, max_eq_left he, min_eq_left (by omega)]
    have hfresh : freshTimes cal job now immediate =
        (some (if immediate then now else now + every), some now) := by
      simp only [freshTimes, hs, hsum]
    cases hrow : getSchedule rows job.name with
    | none => exact hfresh
    | some row =>
      have hne : ¬row.unchanged cal job := fun hu =>
        h row hrow ((holds_iff_unchanged hs ht).mpr hu)
      exact (if_neg hne).trans hfresh
  refine ⟨_, getSchedule_syncSchedule _ rows, ⟨by rw [hs], ht⟩, hn, ?_, ?_⟩
  · simp only [htimes, Option.some_or]
  · simp only [htimes]
    cases immediate with
    | true => exact ⟨0, by simp⟩
    | false => exact ⟨1, by simp⟩

theorem schedule_setNextRun (w : World) (other : String) (next : Option Time) :
    ({ w with schedules := setNextRun other next none w.schedules } : World).schedule name =
      if name = other then (w.schedule name).map fun row => { row with nextRun := next }
      else w.schedule name := getSchedule_setNextRun w.schedules name other next

/-- `recompute_next` stays on the grid. -/
theorem Anchored.recompute {now : ℤ} {other : String} (he : 1 ≤ every)
    (hi : every ≤ 2 ^ 63 - 1 - 253402300799)
    (h : Anchored cal tz every a (w.schedule name)) (hl : LiveInterval every (w.job name))
    (hr : recomputeNext cal other now w = some w') :
    Anchored cal tz every a (w'.schedule name) := by
  obtain rfl | ⟨row, job, next, hrow, hjob, hnow, hnext, rfl⟩ := recomputeNext_cases hr
  · exact h
  · rw [schedule_setNextRun]
    split
    · subst other
      obtain ⟨row', hrow', hh, ha, hanchor, -⟩ := h
      obtain rfl := Option.some.inj (hrow.symm.trans hrow')
      rw [hl job hjob, hanchor] at hnext
      simp only [nextAfter, Option.map_some, ha, if_true, Option.getD_some,
        Option.map_eq_some_iff] at hnext
      obtain ⟨slot, hslot, rfl⟩ := hnext
      obtain ⟨k, hk, -⟩ := intervalNext_eq_some (by omega) ha hnow hslot
      rw [max_eq_left he] at hk
      refine ⟨{ row with nextRun := some slot }, by rw [hrow, Option.map_some], hh, ha, hanchor, k,
        ?_⟩
      rw [hk]
    · exact h

/-- A due time is no schedule. -/
theorem Unsynced.recompute {now : ℤ} {other : String}
    (h : Unsynced cal tz every (w.schedule name)) (hr : recomputeNext cal other now w = some w') :
    Unsynced cal tz every (w'.schedule name) := by
  obtain rfl | ⟨-, -, next, -, -, -, -, rfl⟩ := recomputeNext_cases hr
  · exact h
  · rw [schedule_setNextRun]
    split
    · intro x hx
      obtain ⟨row, hrow, rfl⟩ := Option.map_eq_some_iff.mp hx
      exact h row hrow
    · exact h

/-! ## The scripts -/

/-- The scripts of a start and of a reload, as far as the job's schedule goes: other jobs' lines do
not reach it, its own lines only sync it. -/
theorem syncScheduleFor_keeps {P : Option ScheduleRow → Prop} {job : JobDef} {now : Time}
    {immediate : Bool} (hname : job.name = name)
    (hP : ∀ rows, P (getSchedule rows job.name) →
      P (getSchedule (syncScheduleRow cal job now immediate rows) job.name)) (id : String) :
    ∀ op ∈ syncScheduleFor cal job id now immediate, op.Keeps fun w => P (w.schedule name) := by
  subst hname
  intro op hop
  simp only [syncScheduleFor, List.mem_cons, List.not_mem_nil, or_false] at hop
  obtain rfl | rfl | rfl | rfl | rfl := hop
  · exact fun _ hw => hw
  · trivial
  · trivial
  · exact fun _ hw => hw
  · exact fun w hw => hP w.schedules hw

theorem ResolvedConfig.Has.eq_job {job : JobDef} (h : cfg.Has name tz every) (hj : job ∈ cfg.jobs)
    (hn : job.name = name) : job.schedule = .interval every ∧ job.timezone = tz := by
  obtain ⟨job', hj', hn', hs, ht⟩ := h
  obtain rfl := List.inj_on_of_nodup_map cfg.nodup hj' hj (hn'.trans hn.symm)
  exact ⟨hs, ht⟩

theorem ResolvedConfig.Has.mem (h : cfg.Has name tz every) : name ∈ cfg.jobs.map JobDef.name := by
  obtain ⟨job, hj, hn, -⟩ := h
  exact List.mem_map.mpr ⟨job, hj, hn⟩

/-- What syncing an interval job keeps, every line of a reload keeps. -/
theorem reloadScript_keeps {P : Option ScheduleRow → Prop} (h : cfg.Has name tz every)
    (hP : ∀ job, job.name = name → job.schedule = .interval every → job.timezone = tz →
      ∀ rows, P (getSchedule rows job.name) →
        P (getSchedule (syncScheduleRow cal job r.now false rows) job.name)) :
    ∀ op ∈ reloadScript cal r cfg w, op.Keeps fun v => P (v.schedule name) := by
  intro op hop
  simp only [reloadScript, List.mem_append, List.mem_flatMap] at hop
  obtain ⟨job, hj, hop⟩ | ⟨other, ho, hop⟩ | hop := hop
  · by_cases hn : job.name = name
    · obtain ⟨hs, ht⟩ := h.eq_job (mem_changedJobs.mp hj).1 hn
      simp only [applyChanged, List.mem_cons] at hop
      obtain rfl | rfl | hop := hop
      · exact fun _ hu => hu
      · exact fun _ hu => hu
      · exact syncScheduleFor_keeps hn (hP job hn hs ht) _ op hop
    · exact (foreignTo_applyChanged (Ne.symm hn)).keeps (fun v => P v.schedule) op hop
  · have hne : name ≠ other := fun he => (mem_removed.mp (he ▸ ho)).2 h.mem
    exact (foreignTo_forgetJobCurrent hne _).keeps (fun v => P v.schedule) op hop
  · exact publish_keeps_rows (I := fun _ rows => P (getSchedule rows name)) op hop

/-- The live definition stays an interval one. -/
theorem reloadScript_keeps_live (h : cfg.Has name tz every) :
    ∀ op ∈ reloadScript cal r cfg w, op.Keeps fun v => LiveInterval every (v.job name) := by
  intro op hop
  simp only [reloadScript, List.mem_append, List.mem_flatMap] at hop
  obtain ⟨job, -, hop⟩ | ⟨other, ho, hop⟩ | hop := hop
  · simp only [applyChanged, syncScheduleFor, List.mem_cons, List.not_mem_nil, or_false] at hop
    obtain rfl | rfl | rfl | rfl | rfl | rfl | rfl := hop
    · exact fun _ hu => hu
    · exact fun _ hu => hu
    · exact fun _ hu => hu
    · trivial
    · trivial
    · exact fun _ hu => hu
    · exact fun _ hu => hu
  · have hne : name ≠ other := fun he => (mem_removed.mp (he ▸ ho)).2 h.mem
    exact (foreignTo_forgetJobCurrent hne _).keeps (fun v => LiveInterval every v.live) op hop
  · refine publish_keeps (fun u hu => ?_) (fun _ _ _ hu => hu) (fun _ hu => hu) (fun _ _ hu => hu)
      op hop
    by_cases hn : name ∈ (w.changedJobs cfg).map JobDef.name
    · obtain ⟨job, hj, rfl⟩ := List.mem_map.mp hn
      intro x hx
      rw [job_foldl_insertLive (nodup_changedJobs w cfg) hj u, Option.some.injEq] at hx
      exact hx ▸ (h.eq_job (mem_changedJobs.mp hj).1 rfl).1
    · have hv : (List.foldl insertLive u (w.changedJobs cfg)).job name = u.job name :=
        congrArg JobView.live (foreign_foldl_insertLive hn u)
      rwa [hv]

theorem syncStarted_keeps {P : Option ScheduleRow → Prop} (h : cfg.Has name tz every)
    (hP : ∀ job, job.name = name → job.schedule = .interval every → job.timezone = tz →
      ∀ rows, P (getSchedule rows job.name) →
        P (getSchedule (syncScheduleRow cal job b.now true rows) job.name)) :
    ∀ op ∈ cfg.jobs.flatMap (syncStarted cal b), op.Keeps fun v => P (v.schedule name) := by
  intro op hop
  obtain ⟨job, hj, hop⟩ := List.mem_flatMap.mp hop
  simp only [syncStarted, List.mem_cons] at hop
  obtain rfl | hop := hop
  · exact fun _ hu => hu
  · by_cases hn : job.name = name
    · obtain ⟨hs, ht⟩ := h.eq_job hj hn
      exact syncScheduleFor_keeps hn (hP job hn hs ht) _ op hop
    · exact (foreignTo_syncScheduleFor (Ne.symm hn) _ _ _).keeps (fun v => P v.schedule) op hop

/-- What the sync of a start keeps, the whole start keeps. -/
theorem syncConfig_keeps {I : JobView → Prop} (h : name ∈ b.cfg.jobs.map JobDef.name)
    (hI : ∀ op ∈ b.cfg.jobs.flatMap (syncStarted cal b), op.Keeps fun v => I (v.view name))
    (hw : I ((w.boot b.cfg).view name)) : I ((syncConfig cal b w).2.view name) := by
  have hsync : I ((run b.fails 0 (b.cfg.jobs.flatMap (syncStarted cal b))
      (w.boot b.cfg)).2.view name) := run_keeps hI hw
  rw [syncConfig]
  rcases hrun : run b.fails 0 (b.cfg.jobs.flatMap (syncStarted cal b)) (w.boot b.cfg) with
    ⟨verdict, v⟩
  rw [hrun] at hsync
  cases verdict with
  | ok =>
    have hf := (foreignTo_purgeStrangers h v).view_run b.fails
      (b.cfg.jobs.flatMap (syncStarted cal b)).length v
    exact hf ▸ hsync
  | err e => exact hsync
  | panicked => exact hsync

/-- After a start the live definition is the one of the file. -/
theorem live_syncConfig (h : b.cfg.Has name tz every) :
    LiveInterval every ((syncConfig cal b w).2.job name) := by
  refine syncConfig_keeps (I := fun v => LiveInterval every v.live) h.mem ?_ ?_
  · refine syncStarted_keeps_maps
      (I := fun live _ => LiveInterval every (lookup JobDef.name name live)) ?_
    exact fun _ _ _ _ hlive => hlive
  · intro x hx
    obtain ⟨hj, hn⟩ := lookup_eq_some_mem hx
    exact (h.eq_job hj hn).1

/-! ## A clock beyond the calendar -/

/-- No schedule is stored at a time that no `OffsetDateTime` can hold. -/
theorem schedules_of_untimed {pre post : List (Op World String)} {job : JobDef} {id : String}
    {now : Time} {immediate : Bool} {fails : ℕ → Option String} {n : ℕ}
    (ht : isTimestamp now = false)
    (hpre : ∀ op ∈ pre, op.Keeps fun u => u.schedules = w.schedules) :
    (run fails n (pre ++ (syncScheduleFor cal job id now immediate ++ post)) w).1 ≠ .ok ∧
      (run fails n (pre ++ (syncScheduleFor cal job id now immediate ++ post)) w).2.schedules =
        w.schedules := by
  have hsplit : pre ++ (syncScheduleFor cal job id now immediate ++ post) =
      (pre ++ [.call (exec (.setConfigGeneration job.name id)),
        .check (cal.knownZone job.timezone) ("unknown timezone `" ++ job.timezone ++ "`")]) ++
      .assert false ::
        (.call (fun w => w) :: .call (storeSchedule cal job now immediate) :: post) := by
    simp [syncScheduleFor, ht]
  rw [hsplit, (run_panic _).2]
  refine ⟨(run_panic _).1, run_keeps (I := fun u : World => u.schedules = w.schedules) ?_ rfl⟩
  intro op hop
  simp only [List.mem_append, List.mem_cons, List.not_mem_nil, or_false] at hop
  obtain hop | rfl | rfl := hop
  · exact hpre op hop
  · exact fun _ hu => hu
  · trivial

theorem reload_of_untimed (h : cfg.Has name tz every) (ht : isTimestamp r.now = false) :
    (run r.fails 0 (reloadScript cal r cfg w) w).2.schedule name = w.schedule name := by
  cases hc : w.changedJobs cfg with
  | nil =>
    have hn : name ∉ (w.changedJobs cfg).map JobDef.name := by simp [hc]
    have hr : name ∉ w.removed cfg := fun hr => (mem_removed.mp hr).2 h.mem
    have hf : ForeignTo name (reloadScript cal r cfg w) :=
      (foreignTo_changed hn).append ((foreignTo_removed hr).append (foreignTo_publish hn))
    exact congrArg JobView.schedule (hf.view_run r.fails 0 w)
  | cons job rest =>
    have hscript : reloadScript cal r cfg w =
        [.call (exec (.updateRun (.cancelChanged job.name r.now))),
          .call (World.syncJob job (r.stamps job.name))] ++
        (syncScheduleFor cal job (r.ids job.name) r.now false ++
          (rest.flatMap (applyChanged cal r) ++
            ((w.removed cfg).flatMap (forgetRemoved w) ++ publish r cfg w))) := by
      rw [reloadScript, hc, List.flatMap_cons, List.append_assoc]
      rfl
    rw [hscript]
    refine congrArg (fun rows => getSchedule rows name) (schedules_of_untimed ht ?_).2
    intro op hop
    simp only [List.mem_cons, List.not_mem_nil, or_false] at hop
    obtain rfl | rfl := hop <;> exact fun _ hu => hu

theorem syncConfig_of_untimed (h : b.cfg.Has name tz every) (ht : isTimestamp b.now = false) :
    (syncConfig cal b w).2.schedule name = w.schedule name := by
  obtain ⟨job, hj, -⟩ := h
  obtain ⟨first, rest, hjobs⟩ : ∃ first rest, b.cfg.jobs = first :: rest :=
    List.exists_cons_of_ne_nil (List.ne_nil_of_mem hj)
  have hscript : b.cfg.jobs.flatMap (syncStarted cal b) =
      [.call (World.syncJob first (b.stamps first.name))] ++
        (syncScheduleFor cal first (b.ids first.name) b.now true ++
          rest.flatMap (syncStarted cal b)) := by
    rw [hjobs, List.flatMap_cons]
    rfl
  obtain ⟨hne, hrows⟩ : (run b.fails 0 (b.cfg.jobs.flatMap (syncStarted cal b))
      (w.boot b.cfg)).1 ≠ .ok ∧ (run b.fails 0 (b.cfg.jobs.flatMap (syncStarted cal b))
      (w.boot b.cfg)).2.schedules = w.schedules := by
    rw [hscript]
    refine schedules_of_untimed ht ?_
    intro op hop
    obtain rfl := List.mem_singleton.mp hop
    exact fun _ hu => hu
  rw [syncConfig]
  rcases hrun : run b.fails 0 (b.cfg.jobs.flatMap (syncStarted cal b)) (w.boot b.cfg) with
    ⟨verdict, v⟩
  rw [hrun] at hne hrows
  cases verdict with
  | ok => exact absurd rfl hne
  | err e => exact congrArg (fun rows => getSchedule rows name) hrows
  | panicked => exact congrArg (fun rows => getSchedule rows name) hrows

/-! ## Steps and runs -/

/-- A running daemon recomputes the job as an interval, if it knows it. -/
def LiveIn (name : String) (every : ℤ) (s : Scheduler) : Prop :=
  s.activity ≠ .down → LiveInterval every (s.world.job name)

/-- The schedule is stored on the grid of `a`. -/
structure OnGrid (cal : Calendar) (name tz : String) (every a : ℤ) (s : Scheduler) : Prop where
  anchored : Anchored cal tz every a (s.world.schedule name)
  live : LiveIn name every s

variable {s s' : Scheduler} {act : SchedAction}

theorem LiveIn.step (hk : act.KeepsInterval name tz every) (h : LiveIn name every s)
    (hs : schedStep cal s act = some s') : LiveIn name every s' := by
  intro hup
  cases schedStep_moves hs with
  | start hw => exact hw ▸ live_syncConfig hk
  | reload hidle hw =>
    have hlive := h (by simp [hidle])
    obtain hw' | ⟨cfg, hc, hw'⟩ := reload_world cal _ s.world
    · rwa [hw, hw']
    · rw [hw, hw']
      exact run_keeps (reloadScript_keeps_live (hk cfg hc)) hlive
  | recompute hup hw =>
    rw [World.job, recomputeNext_live hw]
    exact h hup
  | stay hup' _ hl =>
    rw [World.job, hl]
    exact h (hup' hup)

theorem Anchored.step (he : 1 ≤ every) (hi : every ≤ 2 ^ 63 - 1 - 253402300799)
    (hk : act.KeepsInterval name tz every) (hl : LiveIn name every s)
    (h : Anchored cal tz every a (s.world.schedule name)) (hs : schedStep cal s act = some s') :
    Anchored cal tz every a (s'.world.schedule name) := by
  cases schedStep_moves hs with
  | @start b hw =>
    rw [hw]
    refine syncConfig_keeps (I := fun v => Anchored cal tz every a v.schedule) hk.mem ?_ h
    refine syncStarted_keeps hk fun job _ hsched htz rows hrows => ?_
    exact hrows.sync hsched htz b.now true
  | @reload r hidle hw =>
    obtain hw' | ⟨cfg, hc, hw'⟩ := reload_world cal r s.world
    · rwa [hw, hw']
    · rw [hw, hw']
      refine run_keeps (I := fun v : World => Anchored cal tz every a (v.schedule name)) ?_ h
      refine reloadScript_keeps (hk cfg hc) fun job _ hsched htz rows hrows => ?_
      exact hrows.sync hsched htz r.now false
  | recompute hup hw => exact h.recompute he hi (hl hup) hw
  | stay _ hrows _ => rwa [World.schedule, hrows]

theorem OnGrid.step (he : 1 ≤ every) (hi : every ≤ 2 ^ 63 - 1 - 253402300799)
    (hk : act.KeepsInterval name tz every) (h : OnGrid cal name tz every a s)
    (hs : schedStep cal s act = some s') : OnGrid cal name tz every a s' :=
  ⟨h.anchored.step he hi hk h.live hs, h.live.step hk hs⟩

/-- Where no other schedule of the job is live, there is nothing to ask of the first sync. -/
theorem firstSync_of_liveIn {as : List SchedAction}
    (hk : ∀ x ∈ as, x.KeepsInterval name tz every) (h : LiveIn name every s) :
    Along (schedStep cal) (FirstSync cal name tz every) s as := by
  induction as generalizing s with
  | nil => trivial
  | cons x as ih =>
    refine ⟨?_, fun t ht => ih (fun y hy => hk y (List.mem_cons_of_mem x hy)) ?_⟩
    · cases x with
      | reload r => exact fun hidle => Or.inl (h (by simp [hidle]))
      | _ => trivial
    · exact h.step (hk x List.mem_cons_self) ht

theorem OnGrid.exec {as : List SchedAction} (he : 1 ≤ every)
    (hi : every ≤ 2 ^ 63 - 1 - 253402300799) (hk : ∀ x ∈ as, x.KeepsInterval name tz every)
    (h : OnGrid cal name tz every a s) (hs : Runs.exec (schedStep cal) s as = some s') :
    OnGrid cal name tz every a s' := by
  have hc : Along (schedStep cal) (fun _ x => x.KeepsInterval name tz every) s as :=
    along_of_forall _ (fun x hx _ => hk x hx) s
  exact exec_invariant_along _ _ _ (fun _ _ _ hx hg ht => hg.step he hi hx ht) h hc hs

/-- A reload of a job that is not stored yet. -/
theorem Unsynced.reload (he : 1 ≤ every) (hi : every ≤ 2 ^ 63 - 1 - 253402300799)
    (hk : cfg.Has name tz every) (h : Unsynced cal tz every (w.schedule name)) :
    Unsynced cal tz every ((run r.fails 0 (reloadScript cal r cfg w) w).2.schedule name) ∨
      Anchored cal tz every r.now
        ((run r.fails 0 (reloadScript cal r cfg w) w).2.schedule name) := by
  cases ht : isTimestamp r.now with
  | false => exact Or.inl ((reload_of_untimed hk ht).symm ▸ h)
  | true =>
    refine run_keeps (I := fun v : World => Unsynced cal tz every (v.schedule name) ∨
      Anchored cal tz every r.now (v.schedule name)) ?_ (Or.inl h)
    refine reloadScript_keeps (P := fun x => Unsynced cal tz every x ∨ Anchored cal tz every r.now x)
      hk fun job _ hsched htz rows hrows => Or.inr ?_
    obtain hrows | hrows := hrows
    · exact hrows.sync hsched htz he hi ht false
    · exact hrows.sync hsched htz r.now false

/-- A start of a job that is not stored yet. -/
theorem Unsynced.start (he : 1 ≤ every) (hi : every ≤ 2 ^ 63 - 1 - 253402300799)
    (hk : b.cfg.Has name tz every) (h : Unsynced cal tz every (w.schedule name)) :
    Unsynced cal tz every ((syncConfig cal b w).2.schedule name) ∨
      Anchored cal tz every b.now ((syncConfig cal b w).2.schedule name) := by
  cases ht : isTimestamp b.now with
  | false => exact Or.inl ((syncConfig_of_untimed hk ht).symm ▸ h)
  | true =>
    refine syncConfig_keeps (I := fun v => Unsynced cal tz every v.schedule ∨
      Anchored cal tz every b.now v.schedule) hk.mem ?_ (Or.inl h)
    refine syncStarted_keeps (P := fun x => Unsynced cal tz every x ∨ Anchored cal tz every b.now x)
      hk fun job _ hsched htz rows hrows => Or.inr ?_
    obtain hrows | hrows := hrows
    · exact hrows.sync hsched htz he hi ht true
    · exact hrows.sync hsched htz b.now true

/-- A successful reload leaves the definition of the file in the live map. -/
theorem live_of_reload_ok (hk : cfg.Has name tz every)
    (h : run r.fails 0 (reloadScript cal r cfg w) w = (.ok, w')) :
    LiveInterval every (w'.job name) := by
  obtain ⟨job, hj, rfl, hs, -⟩ := hk
  intro x hx
  obtain ⟨hl, -⟩ | ⟨live, hl, hx', hv⟩ := (reload_live h).1 job hj
  · exact Option.some.inj (hx.symm.trans hl) ▸ hs
  · have hsame : w'.job job.name = some live := (congrArg JobView.live hv).trans hl
    obtain rfl := Option.some.inj (hx.symm.trans hsame)
    have hexact := congrArg JobDef.schedule (JobDef.exact_of_eq hx')
    exact hexact.trans hs

/-- Before its first sync the schedule stays unstored, or the step anchors it. -/
theorem Unsynced.step (he : 1 ≤ every) (hi : every ≤ 2 ^ 63 - 1 - 253402300799)
    (hk : act.KeepsInterval name tz every) (hf : FirstSync cal name tz every s act)
    (h : Unsynced cal tz every (s.world.schedule name)) (hs : schedStep cal s act = some s') :
    Unsynced cal tz every (s'.world.schedule name) ∨ ∃ a, OnGrid cal name tz every a s' := by
  cases schedStep_moves hs with
  | @start b hw =>
    have hend := h.start he hi hk
    rw [← hw] at hend
    exact hend.imp id fun ha => ⟨b.now, ha, fun _ => hw ▸ live_syncConfig hk⟩
  | @reload r hidle hw =>
    obtain hw' | ⟨cfg, hc, hw'⟩ := reload_world cal r s.world
    · exact Or.inl (by rwa [hw, hw'])
    · have hend := h.reload (r := r) he hi (hk cfg hc)
      rw [← hw', ← hw] at hend
      obtain hl | ⟨n, hok⟩ | hno := hf hidle
      · refine hend.imp id fun ha => ⟨r.now, ha, fun _ => ?_⟩
        rw [hw, hw']
        exact run_keeps (reloadScript_keeps_live (hk cfg hc)) hl
      · obtain ⟨cfg', hc', hrun⟩ := reload_ok (Prod.ext hok hw.symm : _ = (some (.ok n), s'.world))
        exact hend.imp id fun ha => ⟨r.now, ha, fun _ => live_of_reload_ok (hk cfg' hc') hrun⟩
      · exact Or.inl (hw ▸ hno)
  | recompute hup hw => exact Or.inl (h.recompute hw)
  | stay _ hrows _ => exact Or.inl (by rwa [World.schedule, hrows])

/-- Every state of a run is before the first sync, or on the grid of some anchor. -/
theorem onGrid_of_exec {as : List SchedAction} (he : 1 ≤ every)
    (hi : every ≤ 2 ^ 63 - 1 - 253402300799) (hk : ∀ x ∈ as, x.KeepsInterval name tz every)
    (hf : Along (schedStep cal) (FirstSync cal name tz every) s as)
    (h : Unsynced cal tz every (s.world.schedule name))
    (hs : exec (schedStep cal) s as = some s') :
    Unsynced cal tz every (s'.world.schedule name) ∨ ∃ a, OnGrid cal name tz every a s' := by
  have hc : Along (schedStep cal) (fun _ x => x.KeepsInterval name tz every) s as :=
    along_of_forall _ (fun x hx _ => hk x hx) s
  refine exec_invariant_along _ _ (fun t => Unsynced cal tz every (t.world.schedule name) ∨
    ∃ a, OnGrid cal name tz every a t) ?_ (Or.inl h) (hf.and _ hc) hs
  rintro t x u ⟨hfirst, hkeep⟩ (ht | ⟨a, ht⟩) hu
  · exact ht.step he hi hkeep hfirst hu
  · exact Or.inr ⟨a, ht.step he hi hkeep hu⟩

theorem Anchored.unique {a' : ℤ} {row : Option ScheduleRow} (h : Anchored cal tz every a row)
    (h' : Anchored cal tz every a' row) : a = a' := by
  obtain ⟨x, rfl, -, -, ha, -⟩ := h
  obtain ⟨y, hy, -, -, ha', -⟩ := h'
  obtain rfl := Option.some.inj hy
  exact Option.some.inj (ha.symm.trans ha')

/-- Interval schedules never drift: whatever starts, passes, reloads and pauses follow, the stored
anchor is the one of the first sync and every stored due time lies on its grid. -/
theorem interval_never_drifts {as : List SchedAction} (he : 1 ≤ every)
    (hi : every ≤ 2 ^ 63 - 1 - 253402300799)
    (hs : Unsynced cal tz every (s.world.schedule name))
    (hk : ∀ x ∈ as, x.KeepsInterval name tz every)
    (hf : Along (schedStep cal) (FirstSync cal name tz every) s as) :
    ∃ anchor, ∀ pre post t row, as = pre ++ post → exec (schedStep cal) s pre = some t →
      t.world.schedule name = some row → row.Holds cal tz every →
      row.anchorAt = some anchor ∧ ∃ k : ℕ, row.nextRun = some (anchor + k * every) := by
  have hgrid : ∀ pre post t row, as = pre ++ post → exec (schedStep cal) s pre = some t →
      t.world.schedule name = some row → row.Holds cal tz every →
      ∃ a, OnGrid cal name tz every a t := by
    intro pre post t row has ht hrow hh
    subst has
    have hk' : ∀ x ∈ pre, x.KeepsInterval name tz every := fun x hx =>
      hk x (List.mem_append_left post hx)
    obtain hno | hgrid := onGrid_of_exec he hi hk' ((along_append _).mp hf).1 hs ht
    · exact absurd hh (hno row hrow)
    · exact hgrid
  -- of two states of one run the earlier one hands its anchor to the later one
  have hlater : ∀ pre mid post t u a, as = pre ++ mid ++ post →
      exec (schedStep cal) s pre = some t → exec (schedStep cal) s (pre ++ mid) = some u →
      OnGrid cal name tz every a t → OnGrid cal name tz every a u := by
    intro pre mid post t u a has ht hu hg
    obtain ⟨t', ht', hmid⟩ := (exec_append_eq_some _).mp hu
    obtain rfl := Option.some.inj (ht.symm.trans ht')
    refine hg.exec he hi (fun x hx => hk x ?_) hmid
    rw [has]
    exact List.mem_append_left post (List.mem_append_right pre hx)
  by_cases hex : ∃ pre post t a, as = pre ++ post ∧ exec (schedStep cal) s pre = some t ∧
      OnGrid cal name tz every a t
  · obtain ⟨pre, post, t, a, has, ht, hg⟩ := hex
    refine ⟨a, fun pre' post' t' row has' ht' hrow hh => ?_⟩
    obtain ⟨a', hg'⟩ := hgrid pre' post' t' row has' ht' hrow hh
    have ha : a' = a := by
      obtain ⟨mid, hmid, hpost⟩ | ⟨mid, hmid, hpost⟩ :=
        List.append_eq_append_iff.mp (has.symm.trans has')
      · subst hmid
        exact hg'.anchored.unique (hlater pre mid post' t t' a has' ht ht' hg).anchored
      · subst hmid
        exact (hlater pre' mid post t' t a' has ht' ht hg').anchored.unique hg.anchored
    obtain ⟨x, hx, -, -, hanchor, hnext⟩ := hg'.anchored
    obtain rfl := Option.some.inj (hx.symm.trans hrow)
    exact ha ▸ ⟨hanchor, hnext⟩
  · refine ⟨0, fun pre post t row has ht hrow hh => ?_⟩
    obtain ⟨a, hg⟩ := hgrid pre post t row has ht hrow hh
    exact absurd ⟨pre, post, t, a, has, ht, hg⟩ hex

/-- A database without schedules. -/
def freshDaemon : Scheduler where
  world := ⟨Tables.empty, [], [], [], [], [], [], [], noRouting, plainSettings⟩
  activity := .down
  clock := 0

def oneMirror (rest : String) : ResolvedConfig where
  settings := plainSettings
  jobs := [hourly "debian" rest]
  routing := noRouting
  nodup := List.nodup_singleton _

def startAt (now : Time) : SchedAction :=
  .start ⟨oneMirror "", now, fun _ => "gen", fun _ => now, fun _ => none⟩

/-- A start, a pass, a reload, a crash and a late restart. -/
def restarts : List SchedAction :=
  [startAt 1000, .dispatchDue 1000, .recompute 5000 true,
    .reload ⟨.ok (oneMirror "proxy"), 6000, fun _ => "gen2", fun _ => 6000, fun _ => none⟩, .stop,
    startAt 90000, .bootPass 90000 90001, .recompute 90002 true]

theorem interval_never_drifts_restarts : ∃ anchor t row,
    exec (schedStep utcOnly) freshDaemon restarts = some t ∧
      t.world.schedule "debian" = some row ∧ row.anchorAt = some anchor ∧
      ∃ k : ℕ, row.nextRun = some (anchor + k * 3600) := by
  have hhas (rest : String) : (oneMirror rest).Has "debian" "UTC" 3600 :=
    ⟨hourly "debian" rest, List.mem_singleton_self _, rfl, rfl, rfl⟩
  have hk : ∀ x ∈ restarts, x.KeepsInterval "debian" "UTC" 3600 := by
    intro x hx
    simp only [restarts, startAt, List.mem_cons, List.not_mem_nil, or_false] at hx
    obtain rfl | rfl | rfl | rfl | rfl | rfl | rfl | rfl := hx
    · exact hhas ""
    · trivial
    · trivial
    · rintro cfg hc
      exact Except.ok.inj hc ▸ hhas "proxy"
    · trivial
    · exact hhas ""
    · trivial
    · trivial
  have hs : Unsynced utcOnly "UTC" 3600 (freshDaemon.world.schedule "debian") := fun x hx => by
    cases hx
  have hlive : LiveIn "debian" 3600 freshDaemon := fun hne => absurd rfl hne
  have hf : Along (schedStep utcOnly) (FirstSync utcOnly "debian" "UTC" 3600) freshDaemon restarts :=
    firstSync_of_liveIn hk hlive
  obtain ⟨anchor, h⟩ := interval_never_drifts (by decide) (by decide) hs hk hf
  obtain ⟨row, hrow, hh⟩ := (Option.any_eq_true _ _).mp (show
    ((exec (schedStep utcOnly) freshDaemon restarts).bind fun t => t.world.schedule "debian").any
      (fun row => decide (row.scheduleJson = utcOnly.toJson (.interval 3600) ∧
        row.timezone = "UTC")) = true by decide +kernel)
  obtain ⟨t, ht, hrow⟩ := Option.bind_eq_some_iff.mp hrow
  have hholds : row.scheduleJson = utcOnly.toJson (.interval 3600) ∧ row.timezone = "UTC" :=
    of_decide_eq_true hh
  exact ⟨anchor, t, row, ht, hrow, h restarts [] t row (by simp) ht hrow hholds⟩

end Synora.Engine
