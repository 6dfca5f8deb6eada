import Synora.Engine.Calendar
import Synora.Engine.Scheduler

namespace Synora.Engine
open Strings Zones

/-! ## Slots within the reach of a search -/

/-- Some instant of the calendar after now shows a wall time of the schedule. -/
def Occurs (z : Zone) (kind : ScheduleKind) (now : ℤ) : Prop :=
  ∃ x, now < x * nanos ∧ isTimestamp x = true ∧ isTimestamp (z.wall x) = true ∧
    kind.matches (z.wall x) = true

/-- The wall times that the search tries when the clock shows `W`: three dates, nine dates, or two
years of minutes. -/
def ScheduleKind.Window (W v : ℤ) : ScheduleKind → Prop
  | .daily _ => W / 86400 ≤ v / 86400 ∧ v / 86400 < W / 86400 + 3
  | .weekly _ _ => W / 86400 ≤ v / 86400 ∧ v / 86400 < W / 86400 + 9
  | .cron _ => W / 60 < v / 60 ∧ v / 60 ≤ W / 60 + maxMinutes
  | _ => False

/-- A wall time of the schedule within the search's window is first shown after now. -/
def SlotAhead (z : Zone) (kind : ScheduleKind) (now : ℤ) : Prop :=
  isTimestamp (z.wall (now / nanos)) = true ∧ ∃ w x, kind.matches w = true ∧
    isTimestamp w = true ∧ kind.Window (z.wall (now / nanos)) w ∧ z.earliest w = some x ∧
    isTimestamp x = true ∧ now < x * nanos

theorem window_iff {kind : ScheduleKind} (hkind : kind.IsClock) {W v : ℤ} {p : Progression}
    (h : kind.progression W = some p) (hv : kind.matches v = true) :
    kind.Window W v ↔ p.wanted v = true ∧ ∃ i : ℕ, i < p.bound ∧ v = p.start + p.step * i := by
  cases kind with
  | daily time =>
    cases h
    simp only [ScheduleKind.matches, decide_eq_true_eq] at hv
    simp only [ScheduleKind.Window, true_and]
    constructor
    · intro hw
      exact ⟨(v / 86400 - W / 86400).toNat, by omega, by omega⟩
    · rintro ⟨i, hi, rfl⟩
      obtain ⟨h0, h1⟩ := hkind
      omega
  | weekly weekday time =>
    cases h
    simp only [ScheduleKind.matches, decide_eq_true_eq] at hv
    simp only [ScheduleKind.Window, hv.2, decide_true, true_and]
    constructor
    · intro hw
      exact ⟨(v / 86400 - W / 86400).toNat, by omega, by omega⟩
    · rintro ⟨i, hi, rfl⟩
      obtain ⟨h0, h1⟩ := hkind
      omega
  | cron expr =>
    obtain ⟨c, hc, rfl⟩ := Option.map_eq_some_iff.mp h
    simp only [ScheduleKind.matches, hc, Bool.and_eq_true, decide_eq_true_eq,
      Option.any_some] at hv
    simp only [ScheduleKind.Window, hv.2, true_and]
    constructor
    · intro hw
      exact ⟨(v / 60 - W / 60 - 1).toNat, by omega, by omega⟩
    · rintro ⟨i, hi, rfl⟩
      omega
  | interval every => cases h
  | manual => cases h
  | startup => cases h

theorem progression_isSome {kind : ScheduleKind} {W v : ℤ} (h : kind.matches v = true) :
    ∃ p, kind.progression W = some p := by
  cases kind with
  | daily time => exact ⟨_, rfl⟩
  | weekly weekday time => exact ⟨_, rfl⟩
  | cron expr =>
    simp only [ScheduleKind.matches, Bool.and_eq_true, Option.any_eq_true] at h
    obtain ⟨-, c, hc, -⟩ := h
    exact ⟨_, by rw [ScheduleKind.progression, hc, Option.map_some]⟩
  | interval every => cases h
  | manual => cases h
  | startup => cases h

/-- `next_after` returns a slot iff one lies within the window of its search. -/
theorem nextSlot_isSome_iff {z : Zone} {kind : ScheduleKind} (hkind : kind.IsClock) {now : ℤ} :
    (∃ t, nextSlot z kind now = some (some t)) ↔ SlotAhead z kind now := by
  constructor
  · rintro ⟨t, h⟩
    obtain ⟨W, p, hW, hp, hfound⟩ := nextSlot_eq_some.mp h
    obtain ⟨rfl, hWt⟩ := wallAt_eq_some.mp hW
    have hfits := fits_progression hkind hp
    obtain ⟨i, hi, hvalid, hwanted, hhit⟩ :=
      (search_hits_iff hfits.step_pos (hfits.start_le hWt)).mp ⟨t, hfound⟩
    obtain ⟨x, hx⟩ := Option.isSome_iff_exists.mp hhit
    obtain ⟨hearliest, hxt, hafter⟩ := candidate_eq_some.mp hx
    have hmatch := hfits.sound i hwanted
    exact ⟨hWt, _, x, hmatch, hvalid, (window_iff hkind hp hmatch).mpr ⟨hwanted, i, hi, rfl⟩,
      hearliest, hxt, hafter⟩
  · rintro ⟨hWt, w, x, hmatch, hwt, hwindow, hearliest, hxt, hafter⟩
    obtain ⟨p, hp⟩ := progression_isSome (W := z.wall (now / nanos)) hmatch
    have hfits := fits_progression hkind hp
    obtain ⟨hwanted, i, hi, rfl⟩ := (window_iff hkind hp hmatch).mp hwindow
    have hhit : (candidate z now (p.start + p.step * i)).isSome = true := by
      rw [candidate_eq_some.mpr ⟨hearliest, hxt, hafter⟩]
      rfl
    obtain ⟨t, ht⟩ := (search_hits_iff hfits.step_pos (hfits.start_le hWt)).mpr
      ⟨i, hi, hwt, hwanted, hhit⟩
    exact ⟨t, nextSlot_eq_some.mpr ⟨_, p, wallAt_eq_some.mpr ⟨rfl, hWt⟩, hp, ht⟩⟩

/-- Away from the end of the calendar, three dates always hold a daily slot. -/
theorem daily_slotAhead {z : Zone} {time now : ℤ} (h0 : 0 ≤ time) (h1 : time < 86400)
    (hnow : isTimestamp (now / nanos + 8 * 86400) = true)
    (hW : isTimestamp (z.wall (now / nanos)) = true)
    (hend : isTimestamp (z.wall (now / nanos) + 3 * 86400) = true)
    (hpos : isTimestamp (now / nanos) = true) : SlotAhead z (.daily time) now := by
  generalize hn : now / nanos = n0 at *
  -- a first instant after now of a wall time less than three days ahead
  have hslot {w x : ℤ} (hw : w % 86400 = time) (hlo : z.wall n0 / 86400 ≤ w / 86400)
      (hhi : w / 86400 < z.wall n0 / 86400 + 3) (hx : z.earliest w = some x) (hlt : n0 < x) :
      SlotAhead z (.daily time) now := by
    have hwx := Zone.wall_of_earliest hx
    have hfar : x ≤ n0 + 8 * 86400 := by
      by_contra hbig
      have hsteps := Zone.wall_steps (z := z) n0 4
      have hrest := Zone.wall_lt_add_day (z := z) (x := n0 + 2 * day * (4 : ℕ)) (y := x)
        (by simp only [day]; omega)
      simp only [day] at hsteps hrest
      omega
    simp only [isTimestamp, decide_eq_true_eq] at hnow hpos hW hend
    refine ⟨by simpa [hn, isTimestamp] using hW, w, x, by simpa [ScheduleKind.matches] using hw, ?_,
      by simpa [ScheduleKind.Window, hn] using ⟨hlo, hhi⟩, hx, ?_, ?_⟩
    · simp only [isTimestamp, decide_eq_true_eq]
      omega
    · simp only [isTimestamp, decide_eq_true_eq]
      omega
    · simp only [nanos] at hn ⊢
      omega
  have hahead : z.wall n0 < (z.wall n0 / 86400 + 1) * 86400 + time := by omega
  rcases Zone.exists_earliest_after hahead with ⟨x, hx, hlt⟩ | ⟨x, hx, hlt⟩
  · exact hslot (by omega) (by omega) (by omega) hx hlt
  · simp only [day] at hx
    exact hslot (by omega) (by omega) (by omega) hx hlt

/-! ## What `recompute_next` stores -/

/-- The calendar over the zones of the time-zone database. -/
def systemCalendar (toJson : ScheduleKind → String) (zone : String → Option Zone) : Calendar where
  toJson := toJson
  knownZone name := (zone name).isSome
  nextSlot kind name now := (zone name).elim (some none) fun z => nextSlot z kind (now * nanos)

/-- A calendar schedule's row gets what `next_after` returned. -/
theorem recomputeNext_stores {toJson : ScheduleKind → String} {zone : String → Option Zone}
    {z : Zone} {name : String} {now : ℤ} {w w' : World} {row : ScheduleRow} {job : JobDef} {v : ℤ}
    {next : Option ℤ} (hrow : w.schedule name = some row) (hjob : w.job name = some job)
    (hzone : zone row.timezone = some z) (hkind : job.schedule.matches v = true)
    (hnow : isTimestamp now = true) (hnext : nextSlot z job.schedule (now * nanos) = some next)
    (h : recomputeNext (systemCalendar toJson zone) name now w = some w') :
    (w'.schedule name).bind ScheduleRow.nextRun = next := by
  have hslot : (systemCalendar toJson zone).nextSlot job.schedule row.timezone now = some next := by
    simp [systemCalendar, hzone, hnext]
  have hafter (anchor : Option ℤ) : nextAfter (systemCalendar toJson zone) job.schedule row.timezone
      anchor now = some next := by
    cases hk : job.schedule with
    | daily time => rw [← hslot, hk]; rfl
    | weekly weekday time => rw [← hslot, hk]; rfl
    | cron expr => rw [← hslot, hk]; rfl
    | interval every => rw [hk] at hkind; cases hkind
    | manual => rw [hk] at hkind; cases hkind
    | startup => rw [hk] at hkind; cases hkind
  have hknown : (systemCalendar toJson zone).knownZone row.timezone = true := by
    simp [systemCalendar, hzone]
  simp only [recomputeNext, hrow, hjob, hknown, hnow, hafter, not_true_eq_false, ↓reduceIte,
    Option.map_some, Option.some.injEq] at h
  subst h
  have hstored := getSchedule_setNextRun w.schedules name name next
  rw [if_pos rfl] at hstored
  rw [World.schedule] at hrow ⊢
  rw [hstored, hrow]
  rfl

/-- A calendar schedule that still has an occurrence gets a slot, and `recompute_next` stores one,
iff the search's window holds one; that of a daily schedule always does, away from the end of the
calendar. -/
theorem not_silent_iff (z : Zone) (kind : ScheduleKind) (hkind : kind.IsClock) (now : ℤ)
    (hnow : isTimestamp (now / nanos) = true) :
    ((Occurs z kind now → ∃ t, nextSlot z kind now = some (some t)) ↔
      (Occurs z kind now → SlotAhead z kind now)) ∧
    (∀ toJson zone name secs (w w' : World) row job, now = secs * nanos →
      w.schedule name = some row → w.job name = some job → job.schedule = kind →
      zone row.timezone = some z → nextSlot z kind now ≠ none →
      recomputeNext (systemCalendar toJson zone) name secs w = some w' →
      ((Occurs z kind now → (w'.schedule name).bind ScheduleRow.nextRun ≠ none) ↔
        (Occurs z kind now → SlotAhead z kind now))) ∧
    (∀ time, kind = .daily time → isTimestamp (now / nanos + 8 * 86400) = true →
      isTimestamp (z.wall (now / nanos)) = true →
      isTimestamp (z.wall (now / nanos) + 3 * 86400) = true → SlotAhead z kind now) := by
  refine ⟨forall_congr' fun _ => nextSlot_isSome_iff hkind, ?_, ?_⟩
  · intro toJson zone name secs w w' row job hsecs hrow hjob hjk hzone hpanic h
    refine forall_congr' fun hoccurs => ?_
    obtain ⟨x, -, -, -, hmatch⟩ := hoccurs
    obtain ⟨next, hnext⟩ := Option.ne_none_iff_exists'.mp hpanic
    have hpos : secs * nanos / nanos = secs := Int.mul_ediv_cancel _ (by decide)
    rw [← hjk] at hmatch
    rw [hsecs, ← hjk] at hnext
    rw [hsecs, hpos] at hnow
    rw [recomputeNext_stores hrow hjob hzone hmatch hnow hnext h, ← nextSlot_isSome_iff hkind,
      hsecs, ← hjk, hnext, Option.ne_none_iff_exists']
    simp only [Option.some.injEq]
  · rintro time rfl h8 hW h3
    exact daily_slotAhead hkind.1 hkind.2 h8 hW h3 hnow

theorem not_silent_iff_newYork : Occurs newYork (.daily 9000) (1772928000 * nanos) ∧
    ∃ t, nextSlot newYork (.daily 9000) (1772928000 * nanos) = some (some t) := by
  have hoccurs : Occurs newYork (.daily 9000) (1772928000 * nanos) :=
    ⟨1773037800, by decide, by decide, by decide, by decide⟩
  obtain ⟨hiff, -, hdaily⟩ := not_silent_iff newYork (.daily 9000) ⟨by decide, by decide⟩
    (1772928000 * nanos) (by decide)
  exact ⟨hoccurs, hiff.mpr (fun _ => hdaily 9000 rfl (by decide) (by decide) (by decide)) hoccurs⟩

/-- On Tuesday 2026-03-03 a schedule for Sundays at 02:30 in New York never fires again: the only
Sunday of the nine dates skips that time, though it exists on all later ones. -/
theorem weekly_goes_silent :
    ¬(Occurs newYork (.weekly .sunday 9000) (1772539200 * nanos) →
      ∃ t, nextSlot newYork (.weekly .sunday 9000) (1772539200 * nanos) = some (some t)) := by
  intro h
  have hnone : nextSlot newYork (.weekly .sunday 9000) (1772539200 * nanos) = some none := by
    decide +kernel
  obtain ⟨t, ht⟩ := h ⟨1773556200, by decide, by decide, by decide, by decide⟩
  rw [hnone] at ht
  cases ht

end Synora.Engine
