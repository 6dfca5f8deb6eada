import Synora.Engine.Occurrences

namespace Synora.Engine
open Core Db Table Script World Zones

/-! ## Passes over the schedules -/

/-- What a pass has come to: the slots that it handed to `dispatch_current`, the world, and whether
no `recompute_next` panicked. -/
structure Pass where
  dispatched : List (String × Time)
  world : World
  finished : Bool

/-- The loop over the rows that `all_schedules` answered. The verdict on a row is whether it is
taken, and for which slot it is dispatched; `clock` is what `recompute_next` reads. -/
def pass (cal : Calendar) (clock : String → Time) (verdict : ScheduleRow → Option (Option Time)) :
    List ScheduleRow → World → Pass
  | [], w => ⟨[], w, true⟩
  | row :: rows, w =>
    match verdict row with
    | none => pass cal clock verdict rows w
    | some slot =>
      let sent := slot.toList.map fun n => (row.jobName, n)
      match recomputeNext cal row.jobName (clock row.jobName) w with
      | none => ⟨sent, w, false⟩
      | some w' =>
        let rest := pass cal clock verdict rows w'
        { rest with dispatched := sent ++ rest.dispatched }

/-- A row that was due before the boot is missed; its policy is compared as a text. -/
def bootVerdict (boot now : Time) (row : ScheduleRow) : Option (Option Time) :=
  row.nextRun.bind fun next =>
    if now < next ∨ boot ≤ next then none
    else some (if row.misfirePolicy = "run-immediately" then some next else none)

def dueVerdict (now : Time) (row : ScheduleRow) : Option (Option Time) :=
  row.nextRun.bind fun next => if now < next then none else some (some next)

def bootPass (cal : Calendar) (boot now : Time) (clock : String → Time)
    (rows : List ScheduleRow) (w : World) : Pass := pass cal clock (bootVerdict boot now) rows w

def dispatchDue (cal : Calendar) (now : Time) (clock : String → Time) (rows : List ScheduleRow)
    (w : World) : Pass := pass cal clock (dueVerdict now) rows w

/-- No row that is taken panics. -/
def Clear (cal : Calendar) (clock : String → Time) (verdict : ScheduleRow → Option (Option Time))
    (rows : List ScheduleRow) (w : World) : Prop :=
  ∀ row ∈ rows, verdict row ≠ none →
    (recomputeNext cal row.jobName (clock row.jobName) w).isSome = true

/-- The rows that come before a job's. -/
def before (name : String) (rows : List ScheduleRow) : List ScheduleRow :=
  rows.takeWhile fun row => decide (row.jobName ≠ name)

section Pass

variable {cal : Calendar} {clock : String → Time} {verdict : ScheduleRow → Option (Option Time)}
  {rows pre post : List ScheduleRow} {row : ScheduleRow} {w w' v : World} {name : String}

theorem recomputeNext_schedule_of_ne {now : Time} {other : String}
    (h : recomputeNext cal other now w = some w') (hne : name ≠ other) :
    w'.schedule name = w.schedule name := by
  obtain rfl | ⟨-, -, next, -, -, -, -, rfl⟩ := recomputeNext_cases h
  · rfl
  · exact (getSchedule_setNextRun w.schedules name other next).trans (if_neg hne)

/-- `recompute_next` reads and writes the row of its job only. -/
theorem recomputeNext_congr {now : Time} (hs : w.schedule name = v.schedule name)
    (hj : w.job name = v.job name) :
    (recomputeNext cal name now w).map (fun u => u.schedule name) =
      (recomputeNext cal name now v).map fun u => u.schedule name := by
  have hset : ∀ (u : World) (next : Option Time),
      World.schedule { u with schedules := setNextRun name next none u.schedules } name =
        (u.schedule name).map fun row => { row with nextRun := next } := fun u next =>
    (getSchedule_setNextRun u.schedules name name next).trans (if_pos rfl)
  unfold recomputeNext
  rw [← hs, ← hj]
  rcases hrow : w.schedule name with _ | row
  · simp only [Option.map_some, hrow, ← hs]
  · rcases w.job name with _ | job
    · simp only [Option.map_some, hrow, ← hs]
    · dsimp only
      by_cases hzone : cal.knownZone row.timezone = true
      · by_cases hnow : isTimestamp now = true
        · rw [if_neg (not_not.mpr hzone), if_neg (not_not.mpr hnow), if_neg (not_not.mpr hzone),
            if_neg (not_not.mpr hnow), Option.map_map, Option.map_map]
          simp only [Function.comp_def, hset, ← hs]
        · rw [if_neg (not_not.mpr hzone), if_pos hnow, if_neg (not_not.mpr hzone), if_pos hnow]
      · rw [if_pos hzone, if_pos hzone]
        simp only [Option.map_some, ← hs]

theorem isSome_recomputeNext_congr {now : Time} (hs : w.schedule name = v.schedule name)
    (hj : w.job name = v.job name) :
    (recomputeNext cal name now w).isSome = (recomputeNext cal name now v).isSome := by
  have hmap : ((recomputeNext cal name now w).map fun u => u.schedule name).isSome = _ :=
    congrArg Option.isSome (recomputeNext_congr hs hj)
  rwa [Option.isSome_map, Option.isSome_map] at hmap

theorem pass_live : (pass cal clock verdict rows w).world.liveJobs = w.liveJobs := by
  induction rows generalizing w with
  | nil => rfl
  | cons row rows ih =>
    unfold pass
    split
    · exact ih
    · split
      · rfl
      · rename_i w' hw'
        exact ih.trans (recomputeNext_live hw')

theorem pass_append (pre post : List ScheduleRow) (w : World) :
    pass cal clock verdict (pre ++ post) w =
      let first := pass cal clock verdict pre w
      if first.finished then
        let rest := pass cal clock verdict post first.world
        { rest with dispatched := first.dispatched ++ rest.dispatched }
      else first := by
  induction pre generalizing w with
  | nil => rfl
  | cons row rows ih =>
    rw [List.cons_append, pass, pass]
    rcases verdict row with _ | slot
    · exact ih w
    · rcases recomputeNext cal row.jobName (clock row.jobName) w with _ | w'
      · rfl
      · dsimp only
        rw [ih w']
        dsimp only
        split_ifs
        · rw [List.append_assoc]
        · rfl

/-- What is dispatched was taken for it. -/
theorem mem_dispatched {slot : Time}
    (h : (name, slot) ∈ (pass cal clock verdict rows w).dispatched) :
    ∃ row ∈ rows, row.jobName = name ∧ verdict row = some (some slot) := by
  induction rows generalizing w with
  | nil => cases h
  | cons row rows ih =>
    have hsent : ∀ {s : Option Time}, (name, slot) ∈ s.toList.map (fun n => (row.jobName, n)) →
        row.jobName = name ∧ s = some slot := by
      intro s hs
      obtain ⟨n, hn, heq⟩ := List.mem_map.mp hs
      obtain ⟨hname, rfl⟩ := Prod.mk.inj heq
      exact ⟨hname, Option.mem_toList.mp hn⟩
    rw [pass] at h
    rcases hverdict : verdict row with _ | s
    · rw [hverdict] at h
      obtain ⟨row', hrow', hspec⟩ := ih h
      exact ⟨row', List.mem_cons_of_mem _ hrow', hspec⟩
    · rw [hverdict] at h
      dsimp only at h
      rcases hnext : recomputeNext cal row.jobName (clock row.jobName) w with _ | w'
      · rw [hnext] at h
        obtain ⟨hname, rfl⟩ := hsent h
        exact ⟨row, List.mem_cons_self, hname, hverdict⟩
      · rw [hnext] at h
        rcases List.mem_append.mp h with h | h
        · obtain ⟨hname, rfl⟩ := hsent h
          exact ⟨row, List.mem_cons_self, hname, hverdict⟩
        · obtain ⟨row', hrow', hspec⟩ := ih h
          exact ⟨row', List.mem_cons_of_mem _ hrow', hspec⟩

/-- Other rows' turns leave a job's row alone. -/
theorem pass_schedule_of_ne (h : ∀ row ∈ rows, row.jobName ≠ name) :
    (pass cal clock verdict rows w).world.schedule name = w.schedule name := by
  induction rows generalizing w with
  | nil => rfl
  | cons row rows ih =>
    obtain ⟨hne, hrows⟩ := List.forall_mem_cons.mp h
    rw [pass]
    rcases verdict row with _ | s
    · exact ih hrows
    · rcases hnext : recomputeNext cal row.jobName (clock row.jobName) w with _ | w'
      · rfl
      · exact (ih hrows).trans (recomputeNext_schedule_of_ne hnext hne.symm)

theorem clear_congr (hs : ∀ row ∈ rows, w.schedule row.jobName = v.schedule row.jobName)
    (hl : w.liveJobs = v.liveJobs) :
    Clear cal clock verdict rows w ↔ Clear cal clock verdict rows v := by
  refine forall₂_congr fun row hrow => imp_congr_right fun _ => ?_
  have hjob : w.job row.jobName = v.job row.jobName := by
    rw [World.job, hl, World.job]
  rw [isSome_recomputeNext_congr (hs row hrow) hjob]

theorem pass_finished_iff (hnd : (rows.map ScheduleRow.jobName).Nodup) :
    (pass cal clock verdict rows w).finished = true ↔ Clear cal clock verdict rows w := by
  induction rows generalizing w with
  | nil => exact iff_of_true rfl fun row hrow => absurd hrow List.not_mem_nil
  | cons row rows ih =>
    rw [List.map_cons, List.nodup_cons] at hnd
    rw [pass, Clear, List.forall_mem_cons]
    rcases verdict row with _ | s
    · exact (ih hnd.2).trans ⟨fun h => ⟨fun hne => absurd rfl hne, h⟩, fun h => h.2⟩
    · rcases hnext : recomputeNext cal row.jobName (clock row.jobName) w with _ | w'
      · refine iff_of_false Bool.false_ne_true fun h => ?_
        exact absurd (h.1 (Option.some_ne_none s)) Bool.false_ne_true
      · have hsame : Clear cal clock verdict rows w' ↔ Clear cal clock verdict rows w := by
          refine clear_congr (fun other hother => ?_) (recomputeNext_live hnext)
          refine recomputeNext_schedule_of_ne hnext fun heq => hnd.1 ?_
          exact heq ▸ List.mem_map_of_mem hother
        refine Iff.trans ((ih hnd.2).trans hsame) ⟨fun h => ⟨fun _ => rfl, h⟩, fun h => h.2⟩

theorem exists_split (hnd : (rows.map ScheduleRow.jobName).Nodup) (hrow : row ∈ rows) :
    ∃ post, rows = before row.jobName rows ++ row :: post ∧
      (∀ r ∈ before row.jobName rows, r.jobName ≠ row.jobName) ∧
      ∀ r ∈ post, r.jobName ≠ row.jobName := by
  obtain ⟨pre, post, rfl⟩ := List.append_of_mem hrow
  rw [List.map_append, List.map_cons, List.nodup_append, List.nodup_cons] at hnd
  obtain ⟨-, ⟨hpost, -⟩, hdisjoint⟩ := hnd
  have hpre : ∀ r ∈ pre, r.jobName ≠ row.jobName := fun r hr =>
    hdisjoint _ (List.mem_map_of_mem hr) _ List.mem_cons_self
  have hbefore : before row.jobName (pre ++ row :: post) = pre := by
    rw [before, List.takeWhile_append_of_pos (fun r hr => decide_eq_true (hpre r hr)),
      List.takeWhile_cons_of_neg (by simp), List.append_nil]
  rw [hbefore]
  exact ⟨post, rfl, hpre, fun r hr heq => hpost (heq ▸ List.mem_map_of_mem hr)⟩

theorem nodup_before (hnd : (rows.map ScheduleRow.jobName).Nodup) :
    ((before name rows).map ScheduleRow.jobName).Nodup :=
  hnd.sublist ((List.takeWhile_sublist _).map ScheduleRow.jobName)

/-- A job is dispatched for the slot that its row is taken for, where the pass comes to it. -/
theorem dispatched_iff {slot : Time} (hnd : (rows.map ScheduleRow.jobName).Nodup)
    (hrow : row ∈ rows) : (row.jobName, slot) ∈ (pass cal clock verdict rows w).dispatched ↔
      verdict row = some (some slot) ∧ Clear cal clock verdict (before row.jobName rows) w := by
  constructor
  · intro hmem
    obtain ⟨r, hr, hname, hverdict⟩ := mem_dispatched hmem
    obtain rfl := List.inj_on_of_nodup_map hnd hr hrow hname
    refine ⟨hverdict, ?_⟩
    rw [← pass_finished_iff (nodup_before hnd)]
    obtain ⟨post, hsplit, hpre, -⟩ := exists_split hnd hrow
    by_contra hfin
    rw [hsplit, pass_append, if_neg hfin] at hmem
    obtain ⟨other, hother, hname, -⟩ := mem_dispatched hmem
    exact hpre other hother hname
  · rintro ⟨hverdict, hclear⟩
    rw [← pass_finished_iff (nodup_before hnd)] at hclear
    obtain ⟨post, hsplit, -, -⟩ := exists_split hnd hrow
    rw [hsplit, pass_append, if_pos hclear]
    refine List.mem_append_right _ ?_
    rw [pass, hverdict]
    dsimp only
    split
    · exact List.mem_singleton_self _
    · exact List.mem_append_left _ (List.mem_singleton_self _)

open Classical in
/-- A pass writes into a job's row what `recompute_next` stores, where it takes the row and comes
to it. -/
theorem pass_schedule (hnd : (rows.map ScheduleRow.jobName).Nodup) (hrow : row ∈ rows) :
    (pass cal clock verdict rows w).world.schedule row.jobName =
      if verdict row ≠ none ∧ Clear cal clock verdict (before row.jobName rows) w then
        ((recomputeNext cal row.jobName (clock row.jobName) w).map
          fun u => u.schedule row.jobName).getD (w.schedule row.jobName)
      else w.schedule row.jobName := by
  obtain ⟨post, hsplit, hpre, hpost⟩ := exists_split hnd hrow
  rw [← pass_finished_iff (nodup_before hnd)]
  generalize before row.jobName rows = pre at *
  subst hsplit
  have hsame : (pass cal clock verdict pre w).world.schedule row.jobName = w.schedule row.jobName :=
    pass_schedule_of_ne hpre
  have hjob : (pass cal clock verdict pre w).world.job row.jobName = w.job row.jobName := by
    rw [World.job, pass_live, World.job]
  rw [pass_append]
  dsimp only
  by_cases hfin : (pass cal clock verdict pre w).finished = true
  swap
  · rw [if_neg hfin, if_neg fun h => hfin h.2, hsame]
  rw [if_pos hfin, pass]
  rcases verdict row with _ | s
  · rw [if_neg fun h => h.1 rfl]
    exact (pass_schedule_of_ne hpost).trans hsame
  · rw [if_pos ⟨Option.some_ne_none s, hfin⟩, ← recomputeNext_congr hsame hjob, ← hsame]
    dsimp only
    rcases recomputeNext cal row.jobName (clock row.jobName) (pass cal clock verdict pre w).world
      with _ | u
    · rfl
    · exact pass_schedule_of_ne hpost

theorem pass_keys : (pass cal clock verdict rows w).world.schedules.map ScheduleRow.jobName =
    w.schedules.map ScheduleRow.jobName := by
  induction rows generalizing w with
  | nil => rfl
  | cons row rows ih =>
    rw [pass]
    rcases verdict row with _ | s
    · exact ih
    · rcases hnext : recomputeNext cal row.jobName (clock row.jobName) w with _ | w'
      · rfl
      · refine ih.trans ?_
        obtain rfl | ⟨-, -, next, -, -, -, -, rfl⟩ := recomputeNext_cases hnext
        · rfl
        · exact map_key_update w.schedules fun _ => rfl

end Pass

/-! ## What a start leaves to the passes -/

/-- `sync_config` has synced the job's row, and the live map has its definition. -/
theorem synced_row {cal : Calendar} {b : Start} {w w' : World}
    (h : syncConfig cal b w = (.ok, w')) {job : JobDef} (hj : job ∈ b.cfg.jobs) :
    (∃ rows, getSchedule rows job.name = w.schedule job.name ∧
      w'.schedule job.name = getSchedule (syncScheduleRow cal job b.now true rows) job.name) ∧
    w'.job job.name = some job ∧ cal.knownZone job.timezone = true := by
  obtain ⟨v, n, hsync, hpurge⟩ := syncConfig_ok h
  obtain ⟨k, u, u', hu, hstart, hv⟩ :=
    loop_block b.cfg.nodup (fun _ => foreignTo_syncStarted) hj hsync
  have hlast := (foreignTo_purgeStrangers (List.mem_map_of_mem hj) v).view_ok hpurge
  have hview := hlast.trans hv
  simp only [syncStarted, syncScheduleFor, run_call_ok, run_check_ok, run_assert_ok,
    run_nil_ok] at hu
  obtain ⟨-, -, hzone, -, -, -, rfl⟩ := hu
  refine ⟨⟨u.schedules, congrArg JobView.schedule hstart, congrArg JobView.schedule hview⟩, ?_,
    hzone⟩
  refine (congrArg JobView.live hview).trans ((congrArg JobView.live hstart).trans ?_)
  exact lookup_of_mem b.cfg.nodup hj

theorem nodup_upsert {row : ScheduleRow} {f : ScheduleRow → ScheduleRow} {rows : List ScheduleRow}
    (hf : ∀ r, (f r).jobName = r.jobName) (h : (rows.map ScheduleRow.jobName).Nodup) :
    ((upsert ScheduleRow.jobName row f rows).map ScheduleRow.jobName).Nodup := by
  unfold upsert
  split_ifs with hsome
  · rwa [map_key_update rows hf]
  · rw [List.map_append, List.map_singleton, List.nodup_append]
    refine ⟨h, List.nodup_singleton _, fun name hname other hother heq => hsome ?_⟩
    obtain ⟨r, hr, rfl⟩ := List.mem_map.mp hname
    rw [List.mem_singleton.mp hother] at heq
    rw [← heq, lookup_of_mem h hr]
    rfl

/-- The primary key of the schedules outlives a start. -/
theorem nodup_syncConfig {cal : Calendar} {b : Start} {w w' : World}
    (hkeys : (w.schedules.map ScheduleRow.jobName).Nodup) (h : syncConfig cal b w = (.ok, w')) :
    (w'.schedules.map ScheduleRow.jobName).Nodup := by
  refine syncConfig_ok_keeps (I := fun _ rows => (rows.map ScheduleRow.jobName).Nodup) h ?_
    (fun _ _ _ hrows => hrows) ?_ hkeys
  · exact fun job _ _ rows hrows => nodup_upsert (fun _ => rfl) hrows
  · exact fun _ _ rows hrows => hrows.sublist (List.filter_sublist.map ScheduleRow.jobName)

/-- A newly added interval job is due at once. -/
theorem synced_interval {cal : Calendar} {b : Start} {w w' : World}
    (h : syncConfig cal b w = (.ok, w')) {job : JobDef} (hj : job ∈ b.cfg.jobs) {every : ℤ}
    (hkind : job.schedule = .interval every) (hnew : w.schedule job.name = none) :
    w'.schedule job.name = some ⟨job.name, cal.toJson job.schedule, job.timezone,
      job.misfirePolicy.text, some b.now, some b.now⟩ := by
  obtain ⟨⟨rows, hrows, hrow⟩, -⟩ := synced_row h hj
  rw [hrow, syncScheduleRow, hrows, hnew, getSchedule_syncSchedule]
  simp [syncedTimes, freshTimes, hkind]

/-- The row of a job holds its policy and its time zone. -/
theorem synced_policy {cal : Calendar} {b : Start} {w w' : World}
    (h : syncConfig cal b w = (.ok, w')) {job : JobDef} (hj : job ∈ b.cfg.jobs) {row : ScheduleRow}
    (hrow : w'.schedule job.name = some row) :
    row.jobName = job.name ∧ row.misfirePolicy = job.misfirePolicy.text ∧
      row.timezone = job.timezone := by
  obtain ⟨⟨rows, -, hsynced⟩, -⟩ := synced_row h hj
  rw [hrow, syncScheduleRow, getSchedule_syncSchedule, Option.some.injEq] at hsynced
  rw [hsynced]
  exact ⟨rfl, rfl, rfl⟩

/-! ## What `recompute_next` moves a row to -/

/-- The anchor that `recompute_next` hands on. -/
def ScheduleRow.anchorFor (row : ScheduleRow) (now : Time) : Option Time :=
  row.anchorAt.map fun a => if isTimestamp a then a else now

/-- The due time that `recompute_next` stores; `none` is a panic. -/
def recomputed (cal : Calendar) (job : JobDef) (row : ScheduleRow) (now : Time) :
    Option (Option Time) :=
  if isTimestamp now then nextAfter cal job.schedule row.timezone (row.anchorFor now) now else none

theorem recomputeNext_known {cal : Calendar} {name : String} {now : Time} {w : World}
    {row : ScheduleRow} {job : JobDef} (hrow : w.schedule name = some row)
    (hjob : w.job name = some job) (hzone : cal.knownZone row.timezone = true) :
    (recomputeNext cal name now w).map (fun u => u.schedule name) =
      (recomputed cal job row now).map fun next => some { row with nextRun := next } := by
  have hset : ∀ next : Option Time,
      World.schedule { w with schedules := setNextRun name next none w.schedules } name =
        some { row with nextRun := next } := by
    intro next
    refine (getSchedule_setNextRun w.schedules name name next).trans ?_
    rw [if_pos rfl, ← World.schedule, hrow, Option.map_some]
  unfold recomputeNext recomputed
  rw [hrow, hjob]
  dsimp only
  rw [if_neg (not_not.mpr hzone)]
  by_cases hnow : isTimestamp now = true
  · rw [if_neg (not_not.mpr hnow), if_pos hnow, Option.map_map]
    simp only [Function.comp_def, hset, ScheduleRow.anchorFor]
  · rw [if_pos hnow, if_neg hnow, Option.map_none, Option.map_none]

/-- A slot of the schedule is ahead, in the calendar and within the reach of a search. -/
def Upcoming (zone : String → Option Zone) (kind : ScheduleKind) (timezone : String)
    (anchor : Option Time) (now : Time) : Prop :=
  match kind with
  | .interval every => ∃ k : ℕ, 1 ≤ k ∧ now < anchor.getD now + k * max every 1 ∧
      isTimestamp (anchor.getD now + k * max every 1) = true
  | .manual | .startup => False
  | kind => ∃ z, zone timezone = some z ∧ SlotAhead z kind (now * nanos)

section Next

variable {toJson : ScheduleKind → String} {zone : String → Option Zone} {kind : ScheduleKind}
  {timezone : String} {anchor : Option Time} {now t : Time}

theorem lt_of_nextSlot {z : Zone} (h : nextSlot z kind (now * nanos) = some (some t)) :
    now < t := by
  obtain ⟨W, p, -, -, hfound⟩ := nextSlot_eq_some.mp h
  obtain ⟨i, -, -, hhit, -⟩ := search_found hfound
  obtain ⟨-, -, hafter⟩ := candidate_eq_some.mp hhit
  exact lt_of_mul_lt_mul_right hafter (by decide)

theorem isTimestamp_getD (hnow : isTimestamp now = true) (ha : ∀ a ∈ anchor, isTimestamp a = true) :
    isTimestamp (anchor.getD now) = true := by
  rcases anchor with _ | a
  · exact hnow
  · exact ha a rfl

theorem lt_of_nextAfter (hsecs : ∀ every, kind = .interval every → every < 2 ^ 63)
    (hnow : isTimestamp now = true) (ha : ∀ a ∈ anchor, isTimestamp a = true)
    (h : nextAfter (systemCalendar toJson zone) kind timezone anchor now = some (some t)) :
    now < t := by
  have hclock : (zone timezone).elim (some none) (fun z => nextSlot z kind (now * nanos)) =
      some (some t) → now < t := by
    intro hslot
    rcases hz : zone timezone with _ | z
    · rw [hz] at hslot
      cases hslot
    · rw [hz] at hslot
      exact lt_of_nextSlot hslot
  cases kind with
  | interval every =>
    obtain ⟨x, hx, hxt⟩ := Option.map_eq_some_iff.mp h
    obtain rfl := Option.some.inj hxt
    obtain ⟨-, -, hlt⟩ := intervalNext_eq_some (hsecs every rfl) (isTimestamp_getD hnow ha) hnow hx
    exact hlt
  | manual => cases h
  | startup => cases h
  | cron expr => exact hclock h
  | daily time => exact hclock h
  | weekly weekday time => exact hclock h

theorem nextAfter_isSome_iff (hclock : kind.IsClock)
    (hsecs : ∀ every, kind = .interval every → every < 2 ^ 63) (hnow : isTimestamp now = true)
    (ha : ∀ a ∈ anchor, isTimestamp a = true) :
    (∃ t, nextAfter (systemCalendar toJson zone) kind timezone anchor now = some (some t)) ↔
      Upcoming zone kind timezone anchor now := by
  have hslot : (∃ t, (zone timezone).elim (some none) (fun z => nextSlot z kind (now * nanos)) =
      some (some t)) ↔ ∃ z, zone timezone = some z ∧ SlotAhead z kind (now * nanos) := by
    rcases zone timezone with _ | z
    · simp
    · simp [nextSlot_isSome_iff hclock]
  cases kind with
  | interval every =>
    have hiff := intervalNext_isSome_iff (hsecs every rfl) (isTimestamp_getD hnow ha) hnow
    refine Iff.trans ?_ hiff
    simp [nextAfter]
  | manual => exact iff_of_false (fun h => by obtain ⟨t, h⟩ := h; cases h) id
  | startup => exact iff_of_false (fun h => by obtain ⟨t, h⟩ := h; cases h) id
  | cron expr => exact hslot
  | daily time => exact hslot
  | weekly weekday time => exact hslot

theorem isTimestamp_anchorFor {row : ScheduleRow} (hnow : isTimestamp now = true) :
    ∀ a ∈ row.anchorFor now, isTimestamp a = true := by
  intro a ha
  obtain ⟨x, -, rfl⟩ := Option.map_eq_some_iff.mp ha
  split_ifs with hx
  · exact hx
  · exact hnow

variable {job : JobDef} {row : ScheduleRow}

theorem lt_of_recomputed (hsecs : ∀ every, job.schedule = .interval every → every < 2 ^ 63)
    (h : recomputed (systemCalendar toJson zone) job row now = some (some t)) : now < t := by
  obtain ⟨hnow, hnext⟩ := Option.ite_none_right_eq_some.mp h
  exact lt_of_nextAfter hsecs hnow (isTimestamp_anchorFor hnow) hnext

theorem recomputed_isSome_iff (hclock : job.schedule.IsClock)
    (hsecs : ∀ every, job.schedule = .interval every → every < 2 ^ 63) :
    (∃ t, recomputed (systemCalendar toJson zone) job row now = some (some t)) ↔
      isTimestamp now = true ∧ Upcoming zone job.schedule row.timezone (row.anchorFor now) now := by
  simp only [recomputed, Option.ite_none_right_eq_some, exists_and_left]
  refine and_congr_right fun hnow => ?_
  exact nextAfter_isSome_iff hclock hsecs hnow (isTimestamp_anchorFor hnow)

end Next

/-! ## The first passes of a start -/

/-- The clock as `run` and its first two passes read it, after `sync_config` has read it. -/
structure Readings (sync : Time) where
  boot : Time
  now : Time
  bootClock : String → Time
  tick : Time
  tickClock : String → Time
  sync_le : sync ≤ boot
  boot_le : boot ≤ now
  now_le : ∀ name, now ≤ bootClock name
  bootClock_le : ∀ name, bootClock name ≤ tick
  tick_le : ∀ name, tick ≤ tickClock name

namespace Readings

variable {sync : Time}

def first (r : Readings sync) (cal : Calendar) (rows : List ScheduleRow) (w : World) : Pass :=
  bootPass cal r.boot r.now r.bootClock rows w

def second (r : Readings sync) (cal : Calendar) (rows : List ScheduleRow) (w : World) : Pass :=
  dispatchDue cal r.tick r.tickClock rows w

theorem sync_le_bootClock (r : Readings sync) (name : String) : sync ≤ r.bootClock name :=
  r.sync_le.trans (r.boot_le.trans (r.now_le name))

theorem sync_le_tick (r : Readings sync) (name : String) : sync ≤ r.tick :=
  (r.sync_le_bootClock name).trans (r.bootClock_le name)

/-- The slot that `sync_config` stored is dispatched by one of the passes. -/
def FirstSlotFires (r : Readings sync) (cal : Calendar) (rows rows' : List ScheduleRow) (w : World)
    (name : String) : Prop :=
  (name, sync) ∈ (r.first cal rows w).dispatched ∨ (r.first cal rows w).finished = true ∧
    (name, sync) ∈ (r.second cal rows' (r.first cal rows w).world).dispatched

/-- `boot_pass` dispatches nothing for the job and moves it past the current time. -/
def MisfireSkipped (r : Readings sync) (cal : Calendar) (rows : List ScheduleRow) (w : World)
    (name : String) : Prop :=
  (∀ slot, (name, slot) ∉ (r.first cal rows w).dispatched) ∧
    ∃ t, ((r.first cal rows w).world.schedule name).bind ScheduleRow.nextRun = some t ∧
      r.bootClock name < t

/-- No row that `boot_pass` takes panics. -/
def BootClear (r : Readings sync) (cal : Calendar) (rows : List ScheduleRow) (w : World) : Prop :=
  Clear cal r.bootClock (bootVerdict r.boot r.now) rows w

def TickClear (r : Readings sync) (cal : Calendar) (rows : List ScheduleRow) (w : World) : Prop :=
  Clear cal r.tickClock (dueVerdict r.tick) rows w

section

variable {toJson : ScheduleKind → String} {zone : String → Option Zone} {r : Readings sync}
  {rows : List ScheduleRow} {row : ScheduleRow} {w : World} {job : JobDef}

theorem bootVerdict_fresh {boot now next : Time} (hnext : row.nextRun = some next)
    (h : boot ≤ next) : bootVerdict boot now row = none := by
  rw [bootVerdict, hnext, Option.bind_some, if_pos (Or.inr h)]

theorem bootVerdict_missed {boot now next : Time} {policy : MisfirePolicy}
    (hpolicy : row.misfirePolicy = policy.text) (hnext : row.nextRun = some next) (h : next < boot)
    (hnow : boot ≤ now) : bootVerdict boot now row =
      some (if policy = .runImmediately then some next else none) := by
  have htext : row.misfirePolicy = "run-immediately" ↔ policy = .runImmediately := by
    rw [hpolicy]
    cases policy <;> decide
  rw [bootVerdict, hnext, Option.bind_some, if_neg]
  · simp only [htext]
  · exact not_or.mpr ⟨not_lt.mpr (h.le.trans hnow), not_le.mpr h⟩

theorem dueVerdict_slot {now slot : Time} (h : dueVerdict now row = some (some slot)) :
    row.nextRun = some slot := by
  obtain ⟨next, hnext, hslot⟩ := Option.bind_eq_some_iff.mp h
  obtain ⟨-, hslot⟩ := Option.ite_none_left_eq_some.mp hslot
  rw [hnext, Option.some.inj hslot]

open Classical in
/-- What `boot_pass` leaves of a row that it takes. -/
theorem first_schedule {cal : Calendar} (hnd : (rows.map ScheduleRow.jobName).Nodup)
    (hmem : row ∈ rows) (hrow : w.schedule row.jobName = some row)
    (hjob : w.job row.jobName = some job) (hzone : cal.knownZone row.timezone = true)
    (htaken : bootVerdict r.boot r.now row ≠ none) :
    (r.first cal rows w).world.schedule row.jobName =
      if r.BootClear cal (before row.jobName rows) w then
        ((recomputed cal job row (r.bootClock row.jobName)).map
          fun next => some { row with nextRun := next }).getD (some row)
      else some row := by
  refine (pass_schedule hnd hmem).trans ?_
  rw [recomputeNext_known hrow hjob hzone, hrow]
  by_cases hclear : r.BootClear cal (before row.jobName rows) w
  · rw [if_pos hclear]
    exact if_pos ⟨htaken, hclear⟩
  · rw [if_neg hclear]
    exact if_neg fun h => hclear h.2

/-- A row that was taken is not left with a slot that has passed, unless a panic ended the pass. -/
theorem first_ahead (hsecs : ∀ every, job.schedule = .interval every → every < 2 ^ 63)
    (hnd : (rows.map ScheduleRow.jobName).Nodup) (hmem : row ∈ rows)
    (hrow : w.schedule row.jobName = some row) (hjob : w.job row.jobName = some job)
    (hzone : (systemCalendar toJson zone).knownZone row.timezone = true)
    (htaken : bootVerdict r.boot r.now row ≠ none)
    (hfin : (r.first (systemCalendar toJson zone) rows w).finished = true) :
    ∃ next, (r.first (systemCalendar toJson zone) rows w).world.schedule row.jobName =
      some { row with nextRun := next } ∧ ∀ t, next = some t → r.bootClock row.jobName < t := by
  have hclear := (pass_finished_iff hnd).mp hfin
  have hbefore : r.BootClear (systemCalendar toJson zone) (before row.jobName rows) w :=
    fun other hother => hclear other ((List.takeWhile_sublist _).mem hother)
  have hmoved := hclear row hmem htaken
  rw [← Option.isSome_map (f := fun u : World => u.schedule row.jobName),
    recomputeNext_known hrow hjob hzone, Option.isSome_map] at hmoved
  obtain ⟨next, hnext⟩ := Option.isSome_iff_exists.mp hmoved
  refine ⟨next, ?_, fun t ht => lt_of_recomputed hsecs (hnext.trans (congrArg some ht))⟩
  rw [first_schedule hnd hmem hrow hjob hzone htaken, if_pos hbefore, hnext]
  rfl

end

section Start

variable {toJson : ScheduleKind → String} {zone : String → Option Zone} {b : Start} {w w' : World}
  {rows rows' : List ScheduleRow} {job : JobDef}

/-- `all_schedules` answers in any order. -/
theorem mem_answer {name : String} {row : ScheduleRow} (hrows : rows.Perm w.schedules)
    (hrow : w.schedule name = some row) : row ∈ rows ∧ row.jobName = name := by
  obtain ⟨hmem, hname⟩ := lookup_eq_some_mem hrow
  exact ⟨hrows.mem_iff.mpr hmem, hname⟩

theorem nodup_answer (hrows : rows.Perm w.schedules)
    (hkeys : (w.schedules.map ScheduleRow.jobName).Nodup) :
    (rows.map ScheduleRow.jobName).Nodup := (hrows.map ScheduleRow.jobName).nodup_iff.mpr hkeys

theorem firstSlotFires_iff (hkeys : (w.schedules.map ScheduleRow.jobName).Nodup)
    (h : syncConfig (systemCalendar toJson zone) b w = (.ok, w')) (r : Readings b.now)
    (hrows : rows.Perm w'.schedules)
    (hrows' : rows'.Perm (r.first (systemCalendar toJson zone) rows w').world.schedules)
    (hj : job ∈ b.cfg.jobs) {every : ℤ} (hkind : job.schedule = .interval every)
    (hsecs : ∀ every, job.schedule = .interval every → every < 2 ^ 63)
    (hnew : w.schedule job.name = none) :
    r.FirstSlotFires (systemCalendar toJson zone) rows rows' w' job.name ↔
      (r.boot = b.now ∧ r.BootClear (systemCalendar toJson zone) rows w' ∧
        r.TickClear (systemCalendar toJson zone) (before job.name rows')
          (r.first (systemCalendar toJson zone) rows w').world) ∨
      (b.now < r.boot ∧ job.misfirePolicy = .runImmediately ∧
        r.BootClear (systemCalendar toJson zone) (before job.name rows) w') := by
  have hrow := synced_interval h hj hkind hnew
  obtain ⟨-, hjob, hzone⟩ := synced_row h hj
  have hnd' := nodup_syncConfig hkeys h
  have hnd := nodup_answer hrows hnd'
  obtain ⟨hmem, -⟩ := mem_answer hrows hrow
  generalize hfresh : (⟨job.name, (systemCalendar toJson zone).toJson job.schedule, job.timezone,
    job.misfirePolicy.text, some b.now, some b.now⟩ : ScheduleRow) = row at *
  have hname : row.jobName = job.name := by rw [← hfresh]
  have hnext : row.nextRun = some b.now := by rw [← hfresh]
  have hpolicy : row.misfirePolicy = job.misfirePolicy.text := by rw [← hfresh]
  have hrowzone : (systemCalendar toJson zone).knownZone row.timezone = true := by
    rw [← hfresh]
    exact hzone
  rw [← hname] at hrow hjob ⊢
  have hnd2 := nodup_answer hrows' (by rw [first, bootPass, pass_keys]; exact hnd')
  have hfin : (r.first (systemCalendar toJson zone) rows w').finished = true ↔
      r.BootClear (systemCalendar toJson zone) rows w' := pass_finished_iff hnd
  have hsent : (row.jobName, b.now) ∈ (r.first (systemCalendar toJson zone) rows w').dispatched ↔
      bootVerdict r.boot r.now row = some (some b.now) ∧
        r.BootClear (systemCalendar toJson zone) (before row.jobName rows) w' :=
    dispatched_iff hnd hmem
  unfold FirstSlotFires
  rcases r.sync_le.eq_or_lt with hboot | hboot
  -- the row is left to the tick
  · have hfresh : bootVerdict r.boot r.now row = none := bootVerdict_fresh hnext hboot.ge
    have hkept : (r.first (systemCalendar toJson zone) rows w').world.schedule row.jobName =
        some row := (pass_schedule hnd hmem).trans ((if_neg fun h => h.1 hfresh).trans hrow)
    have hdue : dueVerdict r.tick row = some (some b.now) := by
      rw [dueVerdict, hnext, Option.bind_some, if_neg]
      exact not_lt.mpr (r.sync_le_tick row.jobName)
    have hsecond : (row.jobName, b.now) ∈ (r.second (systemCalendar toJson zone) rows'
        (r.first (systemCalendar toJson zone) rows w').world).dispatched ↔ _ :=
      (dispatched_iff hnd2 (mem_answer hrows' hkept).1).trans (and_iff_right hdue)
    rw [hsecond]
    constructor
    · rintro (hfirst | ⟨hdone, hclear⟩)
      · rw [hfresh] at hsent
        cases (hsent.mp hfirst).1
      · exact Or.inl ⟨hboot.symm, hfin.mp hdone, hclear⟩
    · rintro (⟨-, hdone, hclear⟩ | ⟨hlt, -⟩)
      · exact Or.inr ⟨hfin.mpr hdone, hclear⟩
      · exact absurd hlt hboot.not_lt
  -- the row counts as missed
  · have hmissed := bootVerdict_missed hpolicy hnext hboot r.boot_le
    rw [hmissed] at hsent
    constructor
    · rintro (hfirst | ⟨hdone, htick⟩)
      · obtain ⟨hslot, hclear⟩ := hsent.mp hfirst
        refine Or.inr ⟨hboot, ?_, hclear⟩
        by_contra hne
        rw [if_neg hne] at hslot
        cases hslot
      -- and has no slot as early as this any more when the tick comes
      · obtain ⟨next, hmoved, hahead⟩ := first_ahead hsecs hnd hmem hrow hjob hrowzone
          (by rw [hmissed]; exact Option.some_ne_none _) hdone
        obtain ⟨hmem', -⟩ := mem_answer hrows' hmoved
        obtain ⟨hslot, -⟩ := (dispatched_iff hnd2 hmem').mp htick
        have hstored : next = some b.now := dueVerdict_slot hslot
        exact absurd (hahead b.now hstored) (not_lt.mpr (r.sync_le_bootClock _))
    · rintro (⟨heq, -⟩ | ⟨-, himmediate, hclear⟩)
      · exact absurd heq hboot.ne'
      · exact Or.inl (hsent.mpr ⟨by rw [if_pos himmediate], hclear⟩)

theorem misfireSkipped_iff (hkeys : (w.schedules.map ScheduleRow.jobName).Nodup)
    (h : syncConfig (systemCalendar toJson zone) b w = (.ok, w')) (r : Readings b.now)
    (hrows : rows.Perm w'.schedules) (hj : job ∈ b.cfg.jobs) (hclock : job.schedule.IsClock)
    (hsecs : ∀ every, job.schedule = .interval every → every < 2 ^ 63)
    (hpolicy : job.misfirePolicy ≠ .runImmediately) {row : ScheduleRow} {n : Time}
    (hrow : w'.schedule job.name = some row) (hnext : row.nextRun = some n) (hpast : n < b.now) :
    r.MisfireSkipped (systemCalendar toJson zone) rows w' job.name ↔
      r.BootClear (systemCalendar toJson zone) (before job.name rows) w' ∧
        isTimestamp (r.bootClock job.name) = true ∧
        Upcoming zone job.schedule job.timezone (row.anchorFor (r.bootClock job.name))
          (r.bootClock job.name) := by
  obtain ⟨-, hjob, hzone⟩ := synced_row h hj
  obtain ⟨hname, hstored, htimezone⟩ := synced_policy h hj hrow
  have hnd := nodup_answer hrows (nodup_syncConfig hkeys h)
  obtain ⟨hmem, -⟩ := mem_answer hrows hrow
  have hmissed := bootVerdict_missed hstored hnext (hpast.trans_le r.sync_le) r.boot_le
  rw [if_neg hpolicy] at hmissed
  rw [← htimezone] at hzone ⊢
  rw [← hname] at hrow hjob ⊢
  have hsilent : ∀ slot, (row.jobName, slot) ∉
      (r.first (systemCalendar toJson zone) rows w').dispatched := by
    intro slot hslot
    obtain ⟨hverdict, -⟩ := (dispatched_iff hnd hmem).mp hslot
    rw [hmissed] at hverdict
    cases hverdict
  have hafter := first_schedule (r := r) hnd hmem hrow hjob hzone
    (by rw [hmissed]; exact Option.some_ne_none _)
  have hstale : ¬∃ t, row.nextRun = some t ∧ r.bootClock row.jobName < t := by
    rintro ⟨t, ht, hlt⟩
    obtain rfl := Option.some.inj (hnext.symm.trans ht)
    exact absurd (hpast.trans_le (r.sync_le_bootClock row.jobName)) hlt.not_gt
  have hslot : (∃ t, recomputed (systemCalendar toJson zone) job row (r.bootClock row.jobName) =
      some (some t)) ↔ _ := recomputed_isSome_iff hclock hsecs
  unfold MisfireSkipped
  rw [and_iff_right hsilent, hafter, ← hslot]
  by_cases hclear : r.BootClear (systemCalendar toJson zone) (before row.jobName rows) w'
  · rw [if_pos hclear, and_iff_right hclear]
    rcases hnew : recomputed (systemCalendar toJson zone) job row (r.bootClock row.jobName) with
      _ | _ | t
    · exact iff_of_false hstale (by simp)
    · simp
    · have hlt := lt_of_recomputed hsecs hnew
      exact iff_of_true ⟨t, rfl, hlt⟩ ⟨t, rfl⟩
  · rw [if_neg hclear]
    exact iff_of_false hstale fun hand => hclear hand.1

/-- The slot of a newly added interval job is dispatched by the first two passes exactly where no
second began between `sync_config` and `run` or its policy is to run at once, as long as no row
before it panics. A missed slot is skipped, and the row moved past the current time, exactly where
no row before it panics and the schedule has a slot ahead. -/
theorem first_slots_exact (hkeys : (w.schedules.map ScheduleRow.jobName).Nodup)
    (h : syncConfig (systemCalendar toJson zone) b w = (.ok, w')) (r : Readings b.now)
    (hrows : rows.Perm w'.schedules)
    (hrows' : rows'.Perm (r.first (systemCalendar toJson zone) rows w').world.schedules)
    (hj : job ∈ b.cfg.jobs) (hclock : job.schedule.IsClock)
    (hsecs : ∀ every, job.schedule = .interval every → every < 2 ^ 63) :
    (∀ every, job.schedule = .interval every → w.schedule job.name = none →
      (r.FirstSlotFires (systemCalendar toJson zone) rows rows' w' job.name ↔
        (r.boot = b.now ∧ r.BootClear (systemCalendar toJson zone) rows w' ∧
          r.TickClear (systemCalendar toJson zone) (before job.name rows')
            (r.first (systemCalendar toJson zone) rows w').world) ∨
        (b.now < r.boot ∧ job.misfirePolicy = .runImmediately ∧
          r.BootClear (systemCalendar toJson zone) (before job.name rows) w'))) ∧
    (∀ row n, job.misfirePolicy ≠ .runImmediately → w'.schedule job.name = some row →
      row.nextRun = some n → n < b.now →
      (r.MisfireSkipped (systemCalendar toJson zone) rows w' job.name ↔
        r.BootClear (systemCalendar toJson zone) (before job.name rows) w' ∧
          isTimestamp (r.bootClock job.name) = true ∧
          Upcoming zone job.schedule job.timezone (row.anchorFor (r.bootClock job.name))
            (r.bootClock job.name))) := by
  constructor
  · intro every hkind hnew
    exact firstSlotFires_iff hkeys h r hrows hrows' hj hkind hsecs hnew
  · intro row n hpolicy hrow hnext hpast
    exact misfireSkipped_iff hkeys h r hrows hj hclock hsecs hpolicy hrow hnext hpast

end Start

/-! A mirror `new` joins the mirror `old`, which was due while the daemon was down. -/

def intervalText : ScheduleKind → String
  | .interval every => "interval " ++ toString every
  | _ => "other"

def utc (name : String) : Option Zone :=
  if name = "UTC" then some (.single 0 0 0 (by decide)) else none

def twoMirrors : Start where
  cfg := ⟨plainSettings, [hourly "old" "", hourly "new" ""], noRouting, by decide⟩
  now := 100
  ids name := "gen-" ++ name
  stamps _ := 100
  fails _ := none

def oldMirror : World where
  tables := { Tables.empty with jobs := [⟨"old", .pending, "gen-old"⟩] }
  columns := [(hourly "old" "").columns 40]
  schedules := [⟨"old", "interval 3600", "UTC", "skip", some 90, some 40⟩]
  events := []
  configHistory := []
  repositories := []
  liveJobs := []
  jobLocks := []
  routing := noRouting
  settings := plainSettings

/-- `run` begins `gap` seconds after `sync_config`. -/
def bootAfter (gap : ℕ) : Readings twoMirrors.now where
  boot := 100 + gap
  now := 100 + gap
  bootClock _ := 100 + gap
  tick := 100 + gap
  tickClock _ := 100 + gap
  sync_le := show (100 : ℤ) ≤ 100 + gap by omega
  boot_le := le_rfl
  now_le _ := le_rfl
  bootClock_le _ := le_rfl
  tick_le _ := le_rfl

def synced : World := (syncConfig (systemCalendar intervalText utc) twoMirrors oldMirror).2

theorem synced_ok : syncConfig (systemCalendar intervalText utc) twoMirrors oldMirror =
    (.ok, synced) := Prod.ext (by decide +kernel) rfl

theorem first_slots_exact_sameSecond :
    (bootAfter 0).FirstSlotFires (systemCalendar intervalText utc) synced.schedules
      ((bootAfter 0).first (systemCalendar intervalText utc) synced.schedules
        synced).world.schedules synced "new" ∧
    (bootAfter 0).MisfireSkipped (systemCalendar intervalText utc) synced.schedules synced
      "old" := by
  have hkeys : (oldMirror.schedules.map ScheduleRow.jobName).Nodup := by decide
  have hsecs : ∀ name every, (hourly name "").schedule = .interval every → every < 2 ^ 63 := by
    intro name every heq
    rw [← ScheduleKind.interval.inj heq]
    decide
  have hnew := first_slots_exact hkeys synced_ok (bootAfter 0) (List.Perm.refl _)
    (List.Perm.refl _) (show hourly "new" "" ∈ twoMirrors.cfg.jobs by decide) trivial (hsecs "new")
  have hold := first_slots_exact hkeys synced_ok (bootAfter 0) (List.Perm.refl _)
    (List.Perm.refl _) (show hourly "old" "" ∈ twoMirrors.cfg.jobs by decide) trivial (hsecs "old")
  constructor
  · refine (hnew.1 3600 rfl (by decide)).mpr (Or.inl ⟨rfl, ?_, ?_⟩)
    · unfold BootClear Clear
      decide +kernel
    · unfold TickClear Clear
      decide +kernel
  · refine (hold.2 ⟨"old", "interval 3600", "UTC", "skip", some 90, some 40⟩ 90 (by decide)
      (by decide +kernel) rfl (by decide)).mpr ⟨?_, by decide, 1, le_rfl, by decide, by decide⟩
    unfold BootClear Clear
    decide +kernel

/-- A second later the mirror `new` counts as missed before it ever ran, and is skipped. -/
theorem first_slot_skipped : ¬∀ (toJson : ScheduleKind → String) (zone : String → Option Zone)
    (b : Start) (w w' : World) (r : Readings b.now) (rows rows' : List ScheduleRow) (job : JobDef)
    (every : ℤ), (w.schedules.map ScheduleRow.jobName).Nodup →
    syncConfig (systemCalendar toJson zone) b w = (.ok, w') → rows.Perm w'.schedules →
    rows'.Perm (r.first (systemCalendar toJson zone) rows w').world.schedules →
    job ∈ b.cfg.jobs → job.schedule = .interval every → w.schedule job.name = none →
    r.FirstSlotFires (systemCalendar toJson zone) rows rows' w' job.name := by
  intro h
  have hfires := h intervalText utc twoMirrors oldMirror synced (bootAfter 1) _ _
    (hourly "new" "") 3600 (by decide) synced_ok (List.Perm.refl _) (List.Perm.refl _) (by decide)
    rfl (by decide)
  revert hfires
  unfold FirstSlotFires
  decide +kernel

end Readings

end Synora.Engine
