import Mathlib.Order.Bounds.Basic
import Synora.Engine.Durations

namespace Synora.Engine
open Strings

/-! ## Intervals to the nanosecond -/

/-- The clocks of the years -9999 to 9999, in nanoseconds. -/
def isClock (clock : ℤ) : Bool :=
  decide (-377705116800 * 10 ^ 9 ≤ clock ∧ clock < 253402300800 * 10 ^ 9)

/-- A local date and time, in nanoseconds, and its offset from UTC in seconds. -/
structure OffsetDateTime where
  clock : ℤ
  offset : ℤ
  clock_mem : isClock clock
  offset_mem : -93599 ≤ offset ∧ offset ≤ 93599
deriving DecidableEq

namespace OffsetDateTime

def instant (t : OffsetDateTime) : ℤ := t.clock - t.offset * 10 ^ 9

/-- `t + Duration::seconds(secs)`; the clock has to stay in the calendar. -/
def add (t : OffsetDateTime) (secs : ℤ) : Option OffsetDateTime :=
  if h : isClock (t.clock + secs * 10 ^ 9) then some ⟨_, t.offset, h, t.offset_mem⟩ else none

/-- `(self - other).whole_seconds()`, which cuts towards zero. -/
def wholeSecondsSince (self other : OffsetDateTime) : ℤ :=
  (self.instant - other.instant).tdiv (10 ^ 9)

/-- `while next <= now { next += every; }` -/
def catchUp (every : ℤ) (now : OffsetDateTime) : ℕ → OffsetDateTime → Option OffsetDateTime
  | 0, _ => none
  | fuel + 1, next =>
    if next.instant ≤ now.instant then (next.add every).bind (catchUp every now fuel)
    else some next

/-- `interval_next`; `none` is a panic. -/
def intervalNext (anchor : OffsetDateTime) (every : ℤ) (now : OffsetDateTime) :
    Option OffsetDateTime :=
  let everySecs := max every 1
  let spanSecs := max (now.wholeSecondsSince anchor) 0
  let k := spanSecs / everySecs
  (anchor.add (wrapI64 ((k + 1) * everySecs))).bind fun next =>
    catchUp every now ((now.instant - next.instant).toNat + 1) next

/-- The slots of the grid after a time. -/
def slotsAfter (anchor : OffsetDateTime) (every : ℤ) (now : OffsetDateTime) : Set ℤ :=
  {t | (∃ k : ℕ, t = anchor.instant + k * (every * 10 ^ 9)) ∧ now.instant < t}

/-- The result is the least slot after `now`. -/
def NextSlot (anchor : OffsetDateTime) (every : ℤ) (now : OffsetDateTime) : Prop :=
  ∃ next, intervalNext anchor every now = some next ∧
    IsLeast (slotsAfter anchor every now) next.instant

variable {anchor now : OffsetDateTime} {every : ℤ}

/-- The number of whole intervals that have passed. -/
def passed (anchor : OffsetDateTime) (every : ℤ) (now : OffsetDateTime) : ℤ :=
  max (now.wholeSecondsSince anchor) 0 / every

theorem instant_bounds (t : OffsetDateTime) :
    -377705210399 * 10 ^ 9 ≤ t.instant ∧ t.instant < 253402394399 * 10 ^ 9 := by
  have hclock := t.clock_mem
  have hoffset := t.offset_mem
  rw [isClock, decide_eq_true_iff] at hclock
  unfold instant
  omega

theorem add_eq_some {t next : OffsetDateTime} {secs : ℤ} (h : t.add secs = some next) :
    isClock (t.clock + secs * 10 ^ 9) ∧ next.instant = t.instant + secs * 10 ^ 9 := by
  unfold add at h
  split_ifs at h with hclock
  refine ⟨hclock, ?_⟩
  rw [← Option.some.inj h, instant, instant]
  ring

theorem span_of_le (h : anchor.instant ≤ now.instant) :
    max (now.wholeSecondsSince anchor) 0 = (now.instant - anchor.instant) / 10 ^ 9 := by
  rw [wholeSecondsSince, Int.tdiv_eq_ediv_of_nonneg (by omega), max_eq_left (by omega)]

theorem span_of_lt (h : now.instant < anchor.instant) :
    max (now.wholeSecondsSince anchor) 0 = 0 := by
  refine max_eq_right ?_
  rw [wholeSecondsSince, ← neg_sub, Int.neg_tdiv, Int.tdiv_eq_ediv_of_nonneg (by omega)]
  omega

theorem span_bounds (anchor now : OffsetDateTime) :
    0 ≤ max (now.wholeSecondsSince anchor) 0 ∧ max (now.wholeSecondsSince anchor) 0 < 2 ^ 40 ∧
      now.instant - anchor.instant < (max (now.wholeSecondsSince anchor) 0 + 1) * 10 ^ 9 := by
  have hanchor := anchor.instant_bounds
  have hnow := now.instant_bounds
  rcases le_or_gt anchor.instant now.instant with h | h
  · rw [span_of_le h]
    omega
  · rw [span_of_lt h]
    omega

/-- The slot after the last one passed. -/
theorem passed_bounds (anchor now : OffsetDateTime) (he : 1 ≤ every) :
    0 ≤ passed anchor every now ∧ (passed anchor every now + 1) * every < 2 ^ 40 + every ∧
      now.instant < anchor.instant + (passed anchor every now + 1) * every * 10 ^ 9 := by
  obtain ⟨hnonneg, hlt, hspan⟩ := span_bounds anchor now
  unfold passed
  generalize max (now.wholeSecondsSince anchor) 0 = span at *
  have hdiv := Int.mul_ediv_add_emod span every
  have hmod := Int.emod_nonneg span (by omega : every ≠ 0)
  have hrem := Int.emod_lt_of_pos span (by omega : 0 < every)
  have hexpand : (span / every + 1) * every = every * (span / every) + every := by ring
  exact ⟨Int.ediv_nonneg hnonneg (by omega), by omega, by omega⟩

/-- The product is cast without a loss where it fits, and is out of the calendar elsewhere: the
loop never turns. -/
theorem intervalNext_eq (anchor now : OffsetDateTime) (he : 1 ≤ every) (hi : every < 2 ^ 63) :
    intervalNext anchor every now = anchor.add ((passed anchor every now + 1) * every) := by
  obtain ⟨-, hlt, hafter⟩ := passed_bounds anchor now he
  have hclock := anchor.clock_mem
  rw [isClock, decide_eq_true_iff] at hclock
  unfold intervalNext
  rw [max_eq_left he]
  change (anchor.add (wrapI64 ((passed anchor every now + 1) * every))).bind _ = _
  generalize (passed anchor every now + 1) * every = secs at *
  by_cases hfit : secs < 2 ^ 63
  · rw [wrapI64, if_pos hfit]
    rcases hadd : anchor.add secs with _ | next
    · rfl
    · rw [Option.bind_some, catchUp, if_neg]
      rw [(add_eq_some hadd).2]
      omega
  · have hout : ∀ n : ℤ, 2 ^ 62 ≤ n ∨ n ≤ -2 ^ 62 → anchor.add n = none := by
      intro n hn
      unfold add
      rw [dif_neg]
      rw [isClock, decide_eq_true_iff]
      omega
    rw [wrapI64, if_neg hfit, hout _ (by omega), hout _ (by omega)]
    rfl

theorem passed_le (he : 1 ≤ every) (h : anchor.instant ≤ now.instant) :
    anchor.instant + passed anchor every now * (every * 10 ^ 9) ≤ now.instant := by
  have hspan := span_of_le h
  unfold passed
  rw [hspan]
  have hdiv := Int.ediv_mul_le ((now.instant - anchor.instant) / 10 ^ 9) (by omega : every ≠ 0)
  have hassoc : (now.instant - anchor.instant) / 10 ^ 9 / every * (every * 10 ^ 9) =
      (now.instant - anchor.instant) / 10 ^ 9 / every * every * 10 ^ 9 := by ring
  omega

/-- From the anchor on, the first slot after `now` is the one after the last one passed. -/
theorem isLeast_slotsAfter (he : 1 ≤ every) (h : anchor.instant ≤ now.instant) :
    IsLeast (slotsAfter anchor every now)
      (anchor.instant + (passed anchor every now + 1) * every * 10 ^ 9) := by
  obtain ⟨hnonneg, -, hafter⟩ := passed_bounds anchor now he
  have hle := passed_le he h
  refine ⟨⟨⟨(passed anchor every now + 1).toNat, ?_⟩, hafter⟩, ?_⟩
  · rw [Int.toNat_of_nonneg (by omega)]
    ring
  · rintro t ⟨⟨k, rfl⟩, hk⟩
    have hlt : passed anchor every now * (every * 10 ^ 9) < k * (every * 10 ^ 9) := by omega
    have hstep := lt_of_mul_lt_mul_right hlt (by omega)
    have hmul := mul_le_mul_of_nonneg_right (by omega : passed anchor every now + 1 ≤ (k : ℤ))
      (by omega : 0 ≤ every * 10 ^ 9)
    have hassoc : (passed anchor every now + 1) * every * 10 ^ 9 =
        (passed anchor every now + 1) * (every * 10 ^ 9) := by ring
    omega

/-- The result is the least slot after `now` exactly from the anchor on, as long as a later slot
is in the anchor's calendar. -/
theorem nextSlot_iff {text : Text} (hparse : parseDurationHuman text = some (.ok every))
    (he : 1 ≤ every) (anchor now : OffsetDateTime) :
    NextSlot anchor every now ↔ anchor.instant ≤ now.instant ∧
      ∃ k : ℕ, now.instant < anchor.instant + k * (every * 10 ^ 9) ∧
        isClock (anchor.clock + k * (every * 10 ^ 9)) := by
  have heq := intervalNext_eq anchor now he (parseDurationHuman_lt hparse)
  obtain ⟨hnonneg, -, hafter⟩ := passed_bounds anchor now he
  unfold NextSlot
  rw [heq]
  constructor
  · rintro ⟨next, hadd, hleast⟩
    obtain ⟨hclock, hinstant⟩ := add_eq_some hadd
    have hle : anchor.instant ≤ now.instant := by
      by_contra hlt
      -- before the anchor the anchor itself is the first slot
      have hmem : anchor.instant ∈ slotsAfter anchor every now := ⟨⟨0, by ring⟩, by omega⟩
      have hanchor := hleast.2 hmem
      have hpassed : passed anchor every now = 0 := by
        rw [passed, span_of_lt (by omega), Int.zero_ediv]
      rw [hinstant, hpassed, zero_add, one_mul] at hanchor
      omega
    have hcast : (((passed anchor every now + 1).toNat : ℕ) : ℤ) * (every * 10 ^ 9) =
        (passed anchor every now + 1) * every * 10 ^ 9 := by
      rw [Int.toNat_of_nonneg (by omega)]
      ring
    refine ⟨hle, (passed anchor every now + 1).toNat, ?_, ?_⟩
    · rwa [hcast]
    · rwa [hcast]
  · rintro ⟨hle, k, hk, hclock⟩
    have hleast := isLeast_slotsAfter he hle
    have hbound := hleast.2 ⟨⟨k, rfl⟩, hk⟩
    have hanchor := anchor.clock_mem
    have hpos : 0 ≤ (passed anchor every now + 1) * every :=
      mul_nonneg (by omega) (by omega)
    rw [isClock, decide_eq_true_iff] at hanchor hclock
    rcases hadd : anchor.add ((passed anchor every now + 1) * every) with _ | next
    · unfold add at hadd
      rw [dite_eq_right_iff] at hadd
      refine absurd (hadd ?_) (Option.some_ne_none _)
      rw [isClock, decide_eq_true_iff]
      omega
    · refine ⟨next, rfl, ?_⟩
      rwa [(add_eq_some hadd).2]

/-- Noon on the first day of the epoch, in UTC. -/
def noon : OffsetDateTime := ⟨43200 * 10 ^ 9, 0, by decide, by decide⟩

theorem nextSlot_iff_noon : NextSlot noon 21600 noon := by
  have hparse : parseDurationHuman "6h".toList = some (.ok 21600) := by decide +kernel
  exact (nextSlot_iff hparse (by decide) noon noon).mpr ⟨le_rfl, 1, by decide, by decide⟩

def eleven : OffsetDateTime := ⟨39600 * 10 ^ 9, 0, by decide, by decide⟩

/-- An hour before the anchor, the slot at the anchor is left out. -/
theorem anchor_skipped :
    (intervalNext noon 21600 eleven).map clock = some (64800 * 10 ^ 9) ∧
      ¬∀ (text : Text) (every : ℤ), parseDurationHuman text = some (.ok every) → 1 ≤ every →
        ∀ anchor now, NextSlot anchor every now := by
  have hrun : intervalNext noon 21600 eleven =
      some ⟨64800 * 10 ^ 9, 0, by decide, by decide⟩ := by decide +kernel
  refine ⟨by rw [hrun]; rfl, fun h => ?_⟩
  obtain ⟨next, hnext, hleast⟩ := h "6h".toList 21600 (by decide +kernel) (by decide) noon eleven
  obtain rfl := Option.some.inj (hrun.symm.trans hnext)
  have hle := hleast.2 (⟨⟨0, by ring⟩, by decide⟩ : noon.instant ∈ slotsAfter noon 21600 eleven)
  exact absurd hle (by decide)

/-! ## Whole seconds -/

/-- `from_unix_timestamp` -/
def ofUnix (t : ℤ) (h : isTimestamp t) : OffsetDateTime where
  clock := t * 10 ^ 9
  offset := 0
  clock_mem := by
    rw [isTimestamp, decide_eq_true_iff] at h
    rw [isClock, decide_eq_true_iff]
    omega
  offset_mem := by decide

def unixTimestamp (t : OffsetDateTime) : ℤ := t.instant / 10 ^ 9

theorem instant_ofUnix (t : ℤ) (h : isTimestamp t) : (ofUnix t h).instant = t * 10 ^ 9 := by
  rw [instant, ofUnix, zero_mul, sub_zero]

theorem add_ofUnix (t : ℤ) (h : isTimestamp t) (secs : ℤ) :
    ((ofUnix t h).add secs).map unixTimestamp = addSecs t secs := by
  have hsum : (t * 10 ^ 9 + secs * 10 ^ 9 : ℤ) = (t + secs) * 10 ^ 9 := by ring
  have hclock : isClock ((ofUnix t h).clock + secs * 10 ^ 9) ↔ isTimestamp (t + secs) := by
    rw [ofUnix, hsum, isClock, isTimestamp, decide_eq_true_iff, decide_eq_true_iff]
    omega
  unfold add addSecs
  by_cases hin : isTimestamp (t + secs)
  · rw [dif_pos (hclock.mpr hin), if_pos hin]
    show some ((t * 10 ^ 9 + secs * 10 ^ 9 - 0 * 10 ^ 9) / 10 ^ 9) = some (t + secs)
    rw [Option.some.injEq]
    omega
  · rw [dif_neg (fun hc => hin (hclock.mp hc)), if_neg hin, Option.map_none]

theorem passed_ofUnix {anchor now : ℤ} (ha : isTimestamp anchor) (hn : isTimestamp now)
    (every : ℤ) :
    passed (ofUnix anchor ha) every (ofUnix now hn) = max (now - anchor) 0 / every := by
  rw [passed, wholeSecondsSince, instant_ofUnix, instant_ofUnix, ← sub_mul,
    Int.mul_tdiv_cancel _ (by decide)]

/-- The scheduler works on whole seconds in UTC. -/
theorem intervalNext_ofUnix {anchor every now : ℤ} (he : 1 ≤ every) (hi : every < 2 ^ 63)
    (ha : isTimestamp anchor) (hn : isTimestamp now) :
    (intervalNext (ofUnix anchor ha) every (ofUnix now hn)).map unixTimestamp =
      Engine.intervalNext anchor every now := by
  rw [intervalNext_eq _ _ he hi, add_ofUnix, passed_ofUnix,
    Engine.intervalNext_eq_addSecs hi ha hn, max_eq_left he]

end OffsetDateTime

end Synora.Engine
