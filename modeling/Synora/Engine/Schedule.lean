import Mathlib.Tactic.Ring
import Synora.Engine.Dispatch
import Synora.Storage.Context

namespace Synora.Engine
open Core Db Table
open Storage (StatisticsMode)

/-! ## Schedules -/

inductive Weekday
  | sunday | monday | tuesday | wednesday | thursday | friday | saturday
deriving DecidableEq, Repr

/-- Times of the day are seconds since midnight. -/
inductive ScheduleKind
  | cron (expr : String)
  | daily (time : ℤ)
  | weekly (weekday : Weekday) (time : ℤ)
  /-- Whole seconds: `parse_duration_human` knows no smaller unit. -/
  | interval (every : ℤ)
  | manual
  | startup
deriving DecidableEq, Repr

inductive MisfirePolicy
  | skip | runImmediately | runNext
deriving DecidableEq, Repr

def MisfirePolicy.text : MisfirePolicy → String
  | .skip => "skip"
  | .runImmediately => "run-immediately"
  | .runNext => "run-next"

/-- What a schedule needs from outside: its JSON text, the zones of the system's database and the
next slot of a calendar schedule after a time, where an outer `none` is a panic. -/
structure Calendar where
  toJson : ScheduleKind → String
  knownZone : String → Bool
  nextSlot : ScheduleKind → String → Time → Option (Option Time)

/-- The seconds an `OffsetDateTime` can hold: the years -9999 to 9999. -/
def isTimestamp (t : ℤ) : Bool := decide (-377705116800 ≤ t ∧ t ≤ 253402300799)

/-- `t + Duration::seconds(secs)`; `none` is the panic at the ends of the calendar. -/
def addSecs (t secs : ℤ) : Option ℤ := if isTimestamp (t + secs) then some (t + secs) else none

/-- `n as i64`, for a `u64`. -/
def wrapI64 (n : ℤ) : ℤ := if n < 2 ^ 63 then n else n - 2 ^ 64

/-- `while next <= now { next += every; }` -/
def catchUp (every now : ℤ) : ℕ → ℤ → Option ℤ
  | 0, _ => none
  | fuel + 1, next =>
    if next ≤ now then (addSecs next every).bind (catchUp every now fuel) else some next

/-- The next slot on the anchor's grid; `none` where the code panics. -/
def intervalNext (anchor every now : ℤ) : Option ℤ :=
  let everySecs := max every 1
  let spanSecs := max (now - anchor) 0
  let k := spanSecs / everySecs
  (addSecs anchor (wrapI64 ((k + 1) * everySecs))).bind fun next =>
    catchUp every now ((now - next).toNat + 1) next

/-- `next_after`; the outer `none` is a panic, the inner one "never". -/
def nextAfter (cal : Calendar) (kind : ScheduleKind) (timezone : String) (anchor : Option ℤ)
    (now : ℤ) : Option (Option ℤ) :=
  match kind with
  | .interval every => (intervalNext (anchor.getD now) every now).map some
  | .manual | .startup => some none
  | kind => cal.nextSlot kind timezone now

section Slots

variable {anchor every now next : ℤ}

/-- The slot after the last one passed is ahead of `now`. -/
theorem lt_add_slots (anchor now : ℤ) (he : 1 ≤ every) :
    now < anchor + (max (now - anchor) 0 / every + 1) * every ∧
      0 ≤ max (now - anchor) 0 / every ∧
      (max (now - anchor) 0 / every + 1) * every ≤ max (now - anchor) 0 + every := by
  have hspan : 0 ≤ max (now - anchor) 0 := le_max_right _ _
  have hle : now - anchor ≤ max (now - anchor) 0 := le_max_left _ _
  generalize max (now - anchor) 0 = span at *
  have hdiv := Int.mul_ediv_add_emod span every
  have hmod := Int.emod_nonneg span (by omega : every ≠ 0)
  have hlt := Int.emod_lt_of_pos span (by omega : 0 < every)
  have hexpand : (span / every + 1) * every = every * (span / every) + every := by ring
  exact ⟨by omega, Int.ediv_nonneg hspan (by omega), by omega⟩

/-- The product is cast without a loss where it fits, and is out of the calendar elsewhere: the loop
of `interval_next` never turns. -/
theorem intervalNext_eq_addSecs (hi : every < 2 ^ 63) (ha : isTimestamp anchor)
    (hn : isTimestamp now) : intervalNext anchor every now =
      addSecs anchor ((max (now - anchor) 0 / max every 1 + 1) * max every 1) := by
  obtain ⟨hafter, -, hle⟩ := lt_add_slots anchor now (le_max_right every 1)
  have hspan : max (now - anchor) 0 + max every 1 < 2 ^ 40 + 2 ^ 63 := by
    rw [isTimestamp, decide_eq_true_iff] at ha hn
    omega
  unfold intervalNext
  dsimp only
  generalize (max (now - anchor) 0 / max every 1 + 1) * max every 1 = secs at *
  by_cases hfit : secs < 2 ^ 63
  · rw [wrapI64, if_pos hfit]
    rcases hadd : addSecs anchor secs with _ | next
    · rfl
    · obtain ⟨-, hnext⟩ := Option.ite_none_right_eq_some.mp hadd
      rw [Option.bind_some, catchUp, if_neg]
      rw [← Option.some.inj hnext]
      omega
  · have hout : ∀ n : ℤ, 2 ^ 62 ≤ n ∨ n ≤ -2 ^ 62 → addSecs anchor n = none := by
      intro n hn
      rw [isTimestamp, decide_eq_true_iff] at ha
      unfold addSecs
      rw [if_neg]
      rw [isTimestamp, decide_eq_true_iff]
      omega
    rw [wrapI64, if_neg hfit, hout _ (by omega), hout _ (by omega)]
    rfl

theorem intervalNext_eq_some (hi : every < 2 ^ 63) (ha : isTimestamp anchor)
    (hn : isTimestamp now) (h : intervalNext anchor every now = some next) :
    ∃ k : ℕ, next = anchor + k * max every 1 ∧ now < next := by
  rw [intervalNext_eq_addSecs hi ha hn] at h
  obtain ⟨-, h⟩ := Option.ite_none_right_eq_some.mp h
  obtain ⟨hafter, hk, -⟩ := lt_add_slots anchor now (le_max_right every 1)
  obtain rfl := Option.some.inj h
  refine ⟨(max (now - anchor) 0 / max every 1 + 1).toNat, ?_, hafter⟩
  rw [Int.toNat_of_nonneg (by omega)]

/-- There is a slot iff a later one than the anchor is ahead and in the calendar. -/
theorem intervalNext_isSome_iff (hi : every < 2 ^ 63) (ha : isTimestamp anchor)
    (hn : isTimestamp now) : (∃ t, intervalNext anchor every now = some t) ↔
      ∃ k : ℕ, 1 ≤ k ∧ now < anchor + k * max every 1 ∧
        isTimestamp (anchor + k * max every 1) = true := by
  have he : 1 ≤ max every 1 := le_max_right every 1
  obtain ⟨hafter, hk, -⟩ := lt_add_slots anchor now he
  rw [intervalNext_eq_addSecs hi ha hn]
  constructor
  · rintro ⟨t, ht⟩
    obtain ⟨hin, -⟩ := Option.ite_none_right_eq_some.mp ht
    refine ⟨(max (now - anchor) 0 / max every 1 + 1).toNat, by omega, ?_⟩
    rw [Int.toNat_of_nonneg (by omega)]
    exact ⟨hafter, hin⟩
  · rintro ⟨k, hpos, hlt, hin⟩
    -- no slot of the calendar comes before the one that the code names
    have hle : max (now - anchor) 0 / max every 1 + 1 ≤ k := by
      refine Int.add_one_le_iff.mpr (Int.ediv_lt_of_lt_mul (by omega) ?_)
      exact max_lt (by omega) (Int.mul_pos (by omega) (by omega))
    have hmul := Int.mul_le_mul_of_nonneg_right hle (by omega : 0 ≤ max every 1)
    have hnonneg : 0 ≤ (max (now - anchor) 0 / max every 1 + 1) * max every 1 :=
      Int.mul_nonneg (by omega) (by omega)
    refine ⟨_, if_pos ?_⟩
    rw [isTimestamp, decide_eq_true_iff] at ha hin ⊢
    omega

end Slots

/-! ## Job definitions -/

/-- A job definition as the configuration gives it. `rest` stands for the fields that only the
comparison of `reload` and the JSON texts read. -/
structure JobDef where
  spec : JobSpec
  worker : Option String
  upstream : Option String
  storage : String
  timeout : Option ℤ
  failOnMatch : Option String
  statistics : StatisticsMode
  resources : List String
  priority : ℤ
  schedule : ScheduleKind
  timezone : String
  misfirePolicy : MisfirePolicy
  cpuLimit : Option F64
  maxDeleteRatio : Option F64
  maxSizeDropRatio : Option F64
  rest : String
deriving DecidableEq, Repr

def JobDef.name (job : JobDef) : String := job.spec.name

def isNaN (x : F64) : Bool := decide (0x7ff0000000000000 < x &&& 0x7fffffffffffffff)

/-- `==` on `f64`: no `NaN` equals anything, and the two zeros are equal. -/
def eqF64 (a b : F64) : Bool :=
  !isNaN a && !isNaN b && decide (a = b ∨ (a ||| b) &&& 0x7fffffffffffffff = 0)

def eqLimit : Option F64 → Option F64 → Bool
  | none, none => true
  | some a, some b => eqF64 a b
  | _, _ => false

/-- The definition without its floats. -/
def JobDef.exact (job : JobDef) : JobDef :=
  { job with
    spec := { job.spec with retryBackoff := 0 }
    cpuLimit := none, maxDeleteRatio := none, maxSizeDropRatio := none }

/-- The derived `==` of job definitions. -/
def JobDef.eq (a b : JobDef) : Bool :=
  decide (a.exact = b.exact) && eqF64 a.spec.retryBackoff b.spec.retryBackoff &&
    eqLimit a.cpuLimit b.cpuLimit && eqLimit a.maxDeleteRatio b.maxDeleteRatio &&
    eqLimit a.maxSizeDropRatio b.maxSizeDropRatio

/-- `==` lets two definitions differ in the sign of a zero only. -/
theorem JobDef.exact_of_eq {a b : JobDef} (h : a.eq b) : a.exact = b.exact := by
  simp only [JobDef.eq, Bool.and_eq_true, decide_eq_true_eq] at h
  exact h.1.1.1.1

/-! ## Schedule rows -/

structure ScheduleRow where
  jobName : String
  scheduleJson : String
  timezone : String
  misfirePolicy : String
  nextRun : Option Time
  anchorAt : Option Time
deriving DecidableEq, Repr

def getSchedule (rows : List ScheduleRow) (name : String) : Option ScheduleRow :=
  lookup ScheduleRow.jobName name rows

/-- The row holds the schedule and the timezone of the definition. -/
def ScheduleRow.unchanged (cal : Calendar) (job : JobDef) (row : ScheduleRow) : Bool :=
  decide (row.scheduleJson = cal.toJson job.schedule ∧ row.timezone = job.timezone)

/-- `now.saturating_add(secs)` for `0 ≤ secs`. -/
def saturatingAdd (now secs : ℤ) : ℤ := min (now + secs) (2 ^ 63 - 1)

/-- The due time and the anchor of a schedule that the row does not hold yet. A calendar search that
panics ends the sync; here it finds no slot. -/
def freshTimes (cal : Calendar) (job : JobDef) (now : Time) (immediate : Bool) :
    Option Time × Option Time :=
  match job.schedule with
  | .manual | .startup => (none, none)
  | .interval every =>
    (some (if immediate then now else saturatingAdd now (max every 1)), some now)
  | kind => ((cal.nextSlot kind job.timezone now).join, none)

/-- What `sync_schedule_for` stores: an unchanged schedule keeps its due time and its anchor. -/
def syncedTimes (cal : Calendar) (existing : Option ScheduleRow) (job : JobDef) (now : Time)
    (immediate : Bool) : Option Time × Option Time :=
  match existing with
  | some row =>
    if row.unchanged cal job then (row.nextRun, row.anchorAt)
    else freshTimes cal job now immediate
  | none => freshTimes cal job now immediate

/-- The `ON CONFLICT` part of `sync_schedule`: the persisted anchor outlives a missing one. -/
def ScheduleRow.overwrite (row old : ScheduleRow) : ScheduleRow :=
  { old with
    scheduleJson := row.scheduleJson, timezone := row.timezone
    misfirePolicy := row.misfirePolicy, nextRun := row.nextRun
    anchorAt := row.anchorAt.or old.anchorAt }

def syncSchedule (row : ScheduleRow) (rows : List ScheduleRow) : List ScheduleRow :=
  upsert ScheduleRow.jobName row row.overwrite rows

/-- `get_schedule` and `sync_schedule` as `sync_schedule_for` issues them. -/
def syncScheduleRow (cal : Calendar) (job : JobDef) (now : Time) (immediate : Bool)
    (rows : List ScheduleRow) : List ScheduleRow :=
  let times := syncedTimes cal (getSchedule rows job.name) job now immediate
  syncSchedule ⟨job.name, cal.toJson job.schedule, job.timezone, job.misfirePolicy.text, times.1,
    times.2⟩ rows

def setNextRun (name : String) (next anchor : Option Time) (rows : List ScheduleRow) :
    List ScheduleRow :=
  update (fun row => decide (row.jobName = name)) (fun row =>
    { row with nextRun := next, anchorAt := anchor.or row.anchorAt }) rows

def deleteSchedule (name : String) (rows : List ScheduleRow) : List ScheduleRow :=
  rows.filter fun row => decide (row.jobName ≠ name)

theorem getSchedule_syncSchedule (row : ScheduleRow) (rows : List ScheduleRow) :
    getSchedule (syncSchedule row rows) row.jobName =
      some { row with
        anchorAt := row.anchorAt.or
          ((getSchedule rows row.jobName).bind ScheduleRow.anchorAt) } := by
  have h : getSchedule (syncSchedule row rows) row.jobName =
      some (((getSchedule rows row.jobName).map row.overwrite).getD row) :=
    lookup_upsert_self rows fun _ => rfl
  rw [h]
  cases hr : getSchedule rows row.jobName with
  | none => simp
  | some old =>
    have hk := (lookup_eq_some_mem hr).2
    simp [ScheduleRow.overwrite, hk]

theorem getSchedule_syncSchedule_of_ne {row : ScheduleRow} (rows : List ScheduleRow) {name : String}
    (h : name ≠ row.jobName) : getSchedule (syncSchedule row rows) name = getSchedule rows name :=
  lookup_upsert_of_ne rows (fun _ => rfl) h

/-- A synced row holds the schedule and the timezone of the definition. -/
theorem unchanged_syncScheduleRow (cal : Calendar) (job : JobDef) (now : Time) (immediate : Bool)
    (rows : List ScheduleRow) :
    ∃ row, getSchedule (syncScheduleRow cal job now immediate rows) job.name = some row ∧
      row.unchanged cal job :=
  ⟨_, getSchedule_syncSchedule _ rows, by simp [ScheduleRow.unchanged]⟩

/-- A row that held them already keeps its due time and its anchor. -/
theorem syncScheduleRow_of_unchanged {cal : Calendar} {job : JobDef} {rows : List ScheduleRow}
    {row : ScheduleRow} (h : getSchedule rows job.name = some row) (hu : row.unchanged cal job)
    (now : Time) (immediate : Bool) :
    ∃ row', getSchedule (syncScheduleRow cal job now immediate rows) job.name = some row' ∧
      row'.unchanged cal job ∧ row'.nextRun = row.nextRun ∧ row'.anchorAt = row.anchorAt := by
  have ht : syncedTimes cal (some row) job now immediate = (row.nextRun, row.anchorAt) := if_pos hu
  refine ⟨_, getSchedule_syncSchedule _ rows, by simp [ScheduleRow.unchanged], ?_, ?_⟩
  · simp only [h, ht]
  · simp only [h, ht, Option.bind_some, Option.or_self]

theorem getSchedule_setNextRun (rows : List ScheduleRow) (name name' : String)
    (next : Option Time) :
    getSchedule (setNextRun name' next none rows) name =
      if name = name' then (getSchedule rows name).map fun row => { row with nextRun := next }
      else getSchedule rows name :=
  lookup_update_key rows (by intro _; rfl) name'

theorem getSchedule_deleteSchedule (rows : List ScheduleRow) (name name' : String) :
    getSchedule (deleteSchedule name' rows) name =
      if name = name' then none else getSchedule rows name := lookup_delete rows name'

end Synora.Engine
