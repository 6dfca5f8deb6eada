import Synora.Engine.Cron
import Synora.Lib.Zone

namespace Synora.Engine
open Strings Zones

/-! ## Slots of a calendar schedule

An instant is a whole second; `now` counts nanoseconds, as an `OffsetDateTime` does. -/

def nanos : ℤ := 1000000000

/-- `wall`; `none` is the panic at the ends of the calendar. -/
def wallAt (z : Zone) (now : ℤ) : Option ℤ :=
  let w := z.wall (now / nanos)
  if isTimestamp w then some w else none

def toUtc (z : Zone) (w : ℤ) : Option ℤ := (z.earliest w).filter isTimestamp

/-- The instant of a wall time, when it is still to come. -/
def candidate (z : Zone) (now w : ℤ) : Option ℤ :=
  (toUtc z w).filter fun x => decide (now < x * nanos)

/-- The searches: the first wall time of the progression that is wanted and still to come. -/
def search (z : Zone) (wanted : ℤ → Bool) (step : ℤ) (n : ℕ) (now start : ℤ) : Scan :=
  scan isTimestamp step (fun w => if wanted w then candidate z now w else none) n start

/-- The last day has no next one, which ends the loop over dates with `None`. -/
def Scan.hit : Scan → Option ℤ
  | .found x => some x
  | _ => none

def weekdayOf (day : ℤ) : Weekday :=
  match dowNum day with
  | 0 => .sunday
  | 1 => .monday
  | 2 => .tuesday
  | 3 => .wednesday
  | 4 => .thursday
  | 5 => .friday
  | _ => .saturday

/-- The result of `next_after` on a schedule; the outer `none` is a panic. -/
def dailyNext (z : Zone) (time now : ℤ) : Option (Option ℤ) :=
  (wallAt z now).map fun w =>
    Scan.hit (search z (fun _ => true) 86400 3 now (w / 86400 * 86400 + time))

def weeklyNext (z : Zone) (weekday : Weekday) (time now : ℤ) : Option (Option ℤ) :=
  (wallAt z now).map fun w =>
    Scan.hit (search z (fun v => decide (weekdayOf (v / 86400) = weekday)) 86400 9 now
      (w / 86400 * 86400 + time))

def maxMinutes : ℕ := 2 * 366 * 24 * 60

def cronNext (z : Zone) (expr : Text) (now : ℤ) : Option (Option ℤ) :=
  match CronExpr.parse expr with
  | .error _ => some none
  | .ok cron =>
    (wallAt z now).bind fun w =>
      match search z cron.matches 60 maxMinutes now (w / 60 * 60 + 60) with
      | .found x => some (some x)
      | .exhausted => some none
      -- adding to the candidate panics
      | .overran => none

/-- `next_after` on the calendar schedules. -/
def nextSlot (z : Zone) (kind : ScheduleKind) (now : ℤ) : Option (Option ℤ) :=
  match kind with
  | .cron expr => cronNext z expr.toList now
  | .daily time => dailyNext z time now
  | .weekly weekday time => weeklyNext z weekday time now
  | .interval _ | .manual | .startup => some none

/-- The wall times of a schedule. -/
def ScheduleKind.matches : ScheduleKind → ℤ → Bool
  | .cron expr, w => decide (w % 60 = 0) && (CronExpr.parse expr.toList).toOption.any fun c =>
      c.matches w
  | .daily time, w => decide (w % 86400 = time)
  | .weekly weekday time, w => decide (w % 86400 = time ∧ weekdayOf (w / 86400) = weekday)
  | _, _ => false

/-- The time of day of a schedule is one. -/
def ScheduleKind.IsClock : ScheduleKind → Prop
  | .daily time | .weekly _ time => 0 ≤ time ∧ time < 86400
  | _ => True

/-! ## What a search finds -/

theorem candidate_eq_some {z : Zone} {now w x : ℤ} : candidate z now w = some x ↔
    z.earliest w = some x ∧ isTimestamp x = true ∧ now < x * nanos := by
  simp [candidate, toUtc, Option.filter_eq_some_iff]

theorem lt_of_now_lt {now x : ℤ} (h : now < x * nanos) : now / nanos < x :=
  Int.ediv_lt_of_lt_mul (by decide) h

section

variable {z : Zone} {wanted : ℤ → Bool} {P : ℤ → Prop} {step now start t : ℤ} {n : ℕ}

theorem search_found (h : search z wanted step n now start = .found t) :
    ∃ i < n, wanted (start + step * i) = true ∧ candidate z now (start + step * i) = some t ∧
      ∀ j < i, wanted (start + step * j) = true → candidate z now (start + step * j) = none := by
  obtain ⟨i, hi, -, hhit, hmiss⟩ := scan_found h
  rw [Option.ite_none_right_eq_some] at hhit
  refine ⟨i, hi, hhit.1, hhit.2, fun j hj hwanted => ?_⟩
  simpa [hwanted] using hmiss j hj

/-- A search over all wall times of a schedule that are ahead of the clock finds its next slot. -/
theorem search_sound (hstep : 0 < step) (hnow : isTimestamp (now / nanos) = true)
    (hsound : ∀ i : ℕ, wanted (start + step * i) = true → P (start + step * i))
    (hcover : ∀ v, P v → z.wall (now / nanos) < v →
      wanted v = true ∧ ∃ i : ℕ, v = start + step * i)
    (h : search z wanted step n now start = .found t) :
    now < t * nanos ∧ (∃ w, P w ∧ z.earliest w = some t) ∧
      ∀ v x, P v → z.earliest v = some x → now < x * nanos → t ≤ x := by
  obtain ⟨i, -, hwanted, hhit, hmiss⟩ := search_found h
  obtain ⟨hearliest, ht, hafter⟩ := candidate_eq_some.mp hhit
  refine ⟨hafter, ⟨_, hsound i hwanted, hearliest⟩, fun v x hv hx hxnow => ?_⟩
  by_contra hlt
  push Not at hlt
  have hahead : z.wall (now / nanos) < v := by
    by_contra hle
    have := Zone.earliest_le_of_wall_le hx (not_lt.mp hle)
    have := lt_of_now_lt hxnow
    omega
  obtain ⟨hvwanted, j, rfl⟩ := hcover v hv hahead
  rcases lt_trichotomy (start + step * j) (start + step * i) with hji | hji | hji
  · have hmissed := hmiss j (by
      by_contra hle
      have hmono := Int.mul_le_mul_of_nonneg_left (Int.ofNat_le.mpr (not_lt.mp hle)) hstep.le
      omega) hvwanted
    have hxt : isTimestamp x = true := by
      have := lt_of_now_lt hxnow
      simp only [isTimestamp, decide_eq_true_eq] at ht hnow ⊢
      omega
    rw [candidate_eq_some.mpr ⟨hx, hxt, hxnow⟩] at hmissed
    cases hmissed
  · rw [hji, hearliest] at hx
    cases hx
    omega
  · have := Zone.earliest_lt hearliest hx hji
    omega

/-- A search hits iff a wanted wall time within its bound is still to come. -/
theorem search_hits_iff (hstep : 0 < step) (hstart : -377705116800 ≤ start) :
    (∃ t, search z wanted step n now start = .found t) ↔
      ∃ i : ℕ, i < n ∧ isTimestamp (start + step * i) = true ∧ wanted (start + step * i) = true ∧
        (candidate z now (start + step * i)).isSome = true := by
  constructor
  · rintro ⟨t, h⟩
    obtain ⟨i, hi, hvalid, hhit, -⟩ := scan_found h
    rw [Option.ite_none_right_eq_some] at hhit
    exact ⟨i, hi, hvalid i le_rfl, hhit.1, by rw [hhit.2]; rfl⟩
  · rintro ⟨i, hi, hvalid, hwanted, hhit⟩
    refine exists_scan_found hi (fun j hj => ?_) (by rw [if_pos hwanted]; exact hhit)
    have hmono := Int.mul_le_mul_of_nonneg_left (Int.ofNat_le.mpr hj) hstep.le
    have hpos : 0 ≤ step * (j : ℤ) := by positivity
    simp only [isTimestamp, decide_eq_true_eq] at hvalid ⊢
    omega

end

/-! ## Every slot is the next one -/

section

variable {z : Zone} {now W t : ℤ}

theorem wallAt_eq_some : wallAt z now = some W ↔
    W = z.wall (now / nanos) ∧ isTimestamp W = true := by
  simp only [wallAt, Option.ite_none_right_eq_some, Option.some.injEq]
  constructor
  · rintro ⟨ht, rfl⟩
    exact ⟨rfl, ht⟩
  · rintro ⟨rfl, ht⟩
    exact ⟨ht, rfl⟩

theorem hit_eq_some {s : Scan} : Scan.hit s = some t ↔ s = .found t := by
  cases s <;> simp [Scan.hit]

end

/-- What a search tries: the wall times of a progression that are wanted. -/
structure Progression where
  wanted : ℤ → Bool
  step : ℤ
  bound : ℕ
  start : ℤ

/-- The search of each schedule when the wall clock shows `W`. -/
def ScheduleKind.progression (W : ℤ) : ScheduleKind → Option Progression
  | .daily time => some ⟨fun _ => true, 86400, 3, W / 86400 * 86400 + time⟩
  | .weekly weekday time =>
    some ⟨fun v => decide (weekdayOf (v / 86400) = weekday), 86400, 9, W / 86400 * 86400 + time⟩
  | .cron expr => (CronExpr.parse expr.toList).toOption.map fun c =>
      ⟨c.matches, 60, maxMinutes, W / 60 * 60 + 60⟩
  | _ => none

/-- The progression runs through the schedule's wall times, those ahead of `W` among them. -/
structure Progression.Fits (p : Progression) (kind : ScheduleKind) (W : ℤ) : Prop where
  step_pos : 0 < p.step
  start_le : isTimestamp W = true → -377705116800 ≤ p.start
  sound (i : ℕ) :
    p.wanted (p.start + p.step * i) = true → kind.matches (p.start + p.step * i) = true
  cover (v : ℤ) : kind.matches v = true → W < v →
    p.wanted v = true ∧ ∃ i : ℕ, v = p.start + p.step * i

theorem fits_progression {kind : ScheduleKind} (hkind : kind.IsClock) {W : ℤ} {p : Progression}
    (h : kind.progression W = some p) : p.Fits kind W := by
  cases kind with
  | daily time =>
    cases h
    obtain ⟨h0, h1⟩ := hkind
    refine ⟨by simp, fun hW => ?_, fun i _ => ?_, fun v hv hlt => ⟨rfl, ?_⟩⟩
    · simp only [isTimestamp, decide_eq_true_eq] at hW ⊢
      omega
    · simp only [ScheduleKind.matches, decide_eq_true_eq]
      omega
    · simp only [ScheduleKind.matches, decide_eq_true_eq] at hv
      exact ⟨(v / 86400 - W / 86400).toNat, by simp only; omega⟩
  | weekly weekday time =>
    cases h
    obtain ⟨h0, h1⟩ := hkind
    refine ⟨by simp, fun hW => ?_, fun i hi => ?_, fun v hv hlt => ?_⟩
    · simp only [isTimestamp, decide_eq_true_eq] at hW ⊢
      omega
    · simp only [ScheduleKind.matches, decide_eq_true_eq] at hi ⊢
      exact ⟨by omega, hi⟩
    · simp only [ScheduleKind.matches, decide_eq_true_eq] at hv
      exact ⟨decide_eq_true hv.2, (v / 86400 - W / 86400).toNat, by simp only; omega⟩
  | cron expr =>
    obtain ⟨c, hc, rfl⟩ := Option.map_eq_some_iff.mp h
    refine ⟨by simp, fun hW => ?_, fun i hi => ?_, fun v hv hlt => ?_⟩
    · simp only [isTimestamp, decide_eq_true_eq] at hW ⊢
      omega
    · have hmod : (W / 60 * 60 + 60 + 60 * (i : ℤ)) % 60 = 0 := by omega
      simp only [ScheduleKind.matches, hc, hmod, decide_true, Bool.true_and, Option.any_some]
      exact hi
    · simp only [ScheduleKind.matches, hc, Bool.and_eq_true, decide_eq_true_eq,
        Option.any_some] at hv
      exact ⟨hv.2, (v / 60 - W / 60 - 1).toNat, by simp only; omega⟩
  | interval every => cases h
  | manual => cases h
  | startup => cases h

/-- A slot is what the search of the schedule finds. -/
theorem nextSlot_eq_some {z : Zone} {kind : ScheduleKind} {now t : ℤ} :
    nextSlot z kind now = some (some t) ↔ ∃ W p, wallAt z now = some W ∧
      kind.progression W = some p ∧ search z p.wanted p.step p.bound now p.start = .found t := by
  cases kind with
  | daily time =>
    simp [nextSlot, dailyNext, ScheduleKind.progression, hit_eq_some]
  | weekly weekday time =>
    simp [nextSlot, weeklyNext, ScheduleKind.progression, hit_eq_some]
  | cron expr =>
    simp only [nextSlot, cronNext, ScheduleKind.progression]
    cases hc : CronExpr.parse expr.toList with
    | error e => simp [Except.toOption]
    | ok c =>
      simp only [Except.toOption, Option.map_some, Option.some.injEq]
      constructor
      · intro h
        obtain ⟨W, hW, hcase⟩ := Option.bind_eq_some_iff.mp h
        refine ⟨W, _, hW, rfl, ?_⟩
        split at hcase
        · rename_i x hx
          cases hcase
          exact hx
        · cases hcase
        · cases hcase
      · rintro ⟨W, p, hW, rfl, hfound⟩
        refine Option.bind_eq_some_iff.mpr ⟨W, hW, ?_⟩
        rw [hfound]
  | interval every => simp [nextSlot, ScheduleKind.progression]
  | manual => simp [nextSlot, ScheduleKind.progression]
  | startup => simp [nextSlot, ScheduleKind.progression]

/-! ## Every slot is the next one -/

/-- A calendar schedule's next slot is after now, is the first instant of one of its wall times,
and no other first instant lies in between. -/
theorem nextSlot_sound (z : Zone) (kind : ScheduleKind) (hkind : kind.IsClock) (now t : ℤ)
    (hnow : isTimestamp (now / nanos) = true) (h : nextSlot z kind now = some (some t)) :
    now < t * nanos ∧ (∃ w, kind.matches w = true ∧ z.earliest w = some t) ∧
      ∀ w x, kind.matches w = true → z.earliest w = some x → ¬(now < x * nanos ∧ x < t) := by
  obtain ⟨W, p, hW, hp, hfound⟩ := nextSlot_eq_some.mp h
  obtain ⟨rfl, -⟩ := wallAt_eq_some.mp hW
  have hfits := fits_progression hkind hp
  obtain ⟨hafter, hwall, hnext⟩ := search_sound hfits.step_pos hnow hfits.sound hfits.cover hfound
  refine ⟨hafter, hwall, fun w x hw hx hbetween => ?_⟩
  have := hnext w x hw hx hbetween.1
  omega

/-- New York around 2026-03-08, when the clock skips the hour from two. -/
def newYork : Zone := .single 1772953200 (-18000) (-14400) (by decide)

/-- The skipped 02:30 is left out: from the evening before, the next slot is a day later. -/
theorem nextSlot_sound_newYork :
    nextSlot newYork (.daily 9000) (1772928000 * nanos) = some (some 1773037800) ∧
      1772928000 * nanos < 1773037800 * nanos ∧
      (∃ w, (ScheduleKind.daily 9000).matches w = true ∧ newYork.earliest w = some 1773037800) ∧
      ∀ w x, (ScheduleKind.daily 9000).matches w = true → newYork.earliest w = some x →
        ¬(1772928000 * nanos < x * nanos ∧ x < 1773037800) := by
  have h : nextSlot newYork (.daily 9000) (1772928000 * nanos) = some (some 1773037800) := by
    decide +kernel
  exact ⟨h, nextSlot_sound newYork (.daily 9000) ⟨by decide, by decide⟩ _ _ (by decide) h⟩

end Synora.Engine
