import Mathlib.Algebra.Order.Group.Int
import Mathlib.Tactic.IntervalCases
import Mathlib.Tactic.Linarith

namespace Synora.Civil

/-! Days of the proleptic Gregorian calendar are counted from 1970-01-01. -/

def isLeapYear (year : ℤ) : Bool :=
  decide (year % 4 = 0 ∧ (year % 100 ≠ 0 ∨ year % 400 = 0))

def daysInMonth (year month : ℤ) : ℤ :=
  if month = 2 then if isLeapYear year then 29 else 28
  else if month = 4 ∨ month = 6 ∨ month = 9 ∨ month = 11 then 30
  else 31

structure Date where
  year : ℤ
  month : ℤ
  day : ℤ
deriving DecidableEq, Repr

/-- The date is one of the calendar. -/
def Date.Valid (d : Date) : Prop :=
  1 ≤ d.month ∧ d.month ≤ 12 ∧ 1 ≤ d.day ∧ d.day ≤ daysInMonth d.year d.month

instance (d : Date) : Decidable d.Valid := by unfold Date.Valid; infer_instance

/-! ## Years that begin in March

The leap day is the last day of such a year, and the months before it have the same lengths in
every year. -/

/-- Day 0 of year 0, which is 0000-03-01. -/
def epoch : ℤ := 719468

/-- Days before the year within its cycle of 400 years. -/
def daysBefore (yoe : ℤ) : ℤ := 365 * yoe + yoe / 4 - yoe / 100

/-- Days before the month, counted from March. -/
def daysBeforeMonth (mp : ℤ) : ℤ := (153 * mp + 2) / 5

/-- The day of the count at which a date falls. -/
def Date.toDay (d : Date) : ℤ :=
  let year := if d.month ≤ 2 then d.year - 1 else d.year
  let mp := if d.month ≤ 2 then d.month + 9 else d.month - 3
  146097 * (year / 400) + daysBefore (year % 400) + daysBeforeMonth mp + (d.day - 1) - epoch

/-- The year within the cycle, of a day within the cycle. -/
def yearOfCycle (doe : ℤ) : ℤ :=
  let century := min (doe / 36524) 3
  let rest := doe - 36524 * century
  100 * century + 4 * (rest / 1461) + min (rest % 1461 / 365) 3

/-- The day within its year, of a day within the cycle. -/
def dayOfYear (doe : ℤ) : ℤ := doe - daysBefore (yearOfCycle doe)

/-- The month, counted from March, of a day of the year. -/
def monthOfYear (doy : ℤ) : ℤ := (5 * doy + 2) / 153

/-- The date in month `mp`, counted from March, of a year that begins in March. -/
def fromMarch (year mp day : ℤ) : Date :=
  if mp < 10 then ⟨year, mp + 3, day⟩ else ⟨year + 1, mp - 9, day⟩

/-- The date of a day of the count. -/
def ofDay (n : ℤ) : Date :=
  let doe := (n + epoch) % 146097
  let doy := dayOfYear doe
  fromMarch (400 * ((n + epoch) / 146097) + yearOfCycle doe) (monthOfYear doy)
    (doy - daysBeforeMonth (monthOfYear doy) + 1)

theorem yearOfCycle_bounds {doe : ℤ} (h0 : 0 ≤ doe) (h1 : doe < 146097) :
    0 ≤ yearOfCycle doe ∧ yearOfCycle doe < 400 := by
  simp only [yearOfCycle]
  omega

/-- Where a day stands in its cycle: only a leap year has a day 365. -/
theorem dayOfYear_bounds {doe : ℤ} (h0 : 0 ≤ doe) (h1 : doe < 146097) :
    0 ≤ dayOfYear doe ∧ dayOfYear doe ≤ 365 ∧ (dayOfYear doe = 365 →
      yearOfCycle doe % 4 = 3 ∧ (yearOfCycle doe % 100 ≠ 99 ∨ yearOfCycle doe = 399)) := by
  obtain ⟨c, hc⟩ : ∃ c, c = min (doe / 36524) 3 := ⟨_, rfl⟩
  obtain ⟨rest, hrest⟩ : ∃ rest, rest = doe - 36524 * c := ⟨_, rfl⟩
  obtain ⟨q, hq⟩ : ∃ q, q = rest / 1461 := ⟨_, rfl⟩
  obtain ⟨r, hr⟩ : ∃ r, r = rest % 1461 := ⟨_, rfl⟩
  obtain ⟨y, hy⟩ : ∃ y, y = min (r / 365) 3 := ⟨_, rfl⟩
  have hyear : yearOfCycle doe = 100 * c + 4 * q + y := by
    simp only [yearOfCycle, hy, hr, hq, hrest, hc]
  have hcb : 0 ≤ c ∧ c ≤ 3 ∧ (rest < 36524 ∨ c = 3) ∧ 0 ≤ rest ∧ rest ≤ 36524 := by omega
  have hrestq : rest = 1461 * q + r ∧ 0 ≤ r ∧ r < 1461 := by omega
  have hqb : 0 ≤ q ∧ q ≤ 24 := by omega
  have hyb : 0 ≤ y ∧ y ≤ 3 ∧ 365 * y ≤ r ∧ r ≤ 365 * y + 365 ∧ (r = 365 * y + 365 → y = 3) := by
    omega
  clear hc hq hr hy h0 h1
  have hquarter : (100 * c + 4 * q + y) / 4 = 25 * c + q := by omega
  have hcentury : (100 * c + 4 * q + y) / 100 = c := by omega
  have hday : dayOfYear doe = r - 365 * y := by
    rw [dayOfYear, daysBefore, hyear, hquarter, hcentury]
    omega
  rw [hday, hyear]
  refine ⟨by omega, by omega, fun hlast => ?_⟩
  have hy3 : y = 3 := hyb.2.2.2.2 (by omega)
  subst hy3
  refine ⟨by omega, ?_⟩
  by_cases hq24 : q = 24
  · right
    omega
  · left
    omega

/-- The months of a year that begins in March; the last is February. -/
theorem monthOfYear_bounds {doy : ℤ} (h0 : 0 ≤ doy) (h1 : doy ≤ 365) :
    0 ≤ monthOfYear doy ∧ monthOfYear doy ≤ 11 ∧ daysBeforeMonth (monthOfYear doy) ≤ doy ∧
      doy - daysBeforeMonth (monthOfYear doy) < (if monthOfYear doy = 11 then 29 else
        if monthOfYear doy = 1 ∨ monthOfYear doy = 3 ∨ monthOfYear doy = 6 ∨ monthOfYear doy = 8
        then 30 else 31) ∧
      (monthOfYear doy = 11 → doy - daysBeforeMonth 11 = 28 → doy = 365) := by
  obtain ⟨mp, hmp⟩ : ∃ mp, mp = monthOfYear doy := ⟨_, rfl⟩
  have hdiv : 153 * mp ≤ 5 * doy + 2 ∧ 5 * doy + 2 < 153 * mp + 153 := by
    rw [hmp, monthOfYear]
    omega
  have hlo : 0 ≤ mp := by omega
  have hhi : mp ≤ 11 := by omega
  rw [← hmp]
  clear hmp
  refine ⟨hlo, hhi, ?_⟩
  simp only [daysBeforeMonth]
  interval_cases mp <;> simp <;> omega

theorem fromMarch_valid {era yoe mp day : ℤ} (hm0 : 0 ≤ mp) (hm1 : mp ≤ 11) (hd : 1 ≤ day)
    (hday : day ≤ if mp = 11 then 29 else if mp = 1 ∨ mp = 3 ∨ mp = 6 ∨ mp = 8 then 30 else 31)
    (hleap : mp = 11 → day = 29 → yoe % 4 = 3 ∧ (yoe % 100 ≠ 99 ∨ yoe = 399)) :
    (fromMarch (400 * era + yoe) mp day).Valid := by
  rcases lt_or_ge mp 10 with hlt | hge
  · simp only [fromMarch, hlt, ↓reduceIte, Date.Valid, daysInMonth]
    split_ifs at hday ⊢ <;> omega
  · obtain rfl | rfl : mp = 10 ∨ mp = 11 := by omega
    · simp only [fromMarch, Date.Valid, daysInMonth]
      simp at hday ⊢
      omega
    · simp only [fromMarch, Date.Valid, daysInMonth, isLeapYear]
      simp only [↓reduceIte, forall_const] at hday hleap
      simp
      split_ifs <;> omega

theorem fromMarch_toDay {era yoe mp day : ℤ} (hy0 : 0 ≤ yoe) (hy1 : yoe < 400) (hm0 : 0 ≤ mp)
    (hm1 : mp ≤ 11) : (fromMarch (400 * era + yoe) mp day).toDay =
      146097 * era + daysBefore yoe + daysBeforeMonth mp + (day - 1) - epoch := by
  have hera : (400 * era + yoe) / 400 = era := by omega
  have hyoe : (400 * era + yoe) % 400 = yoe := by omega
  rcases lt_or_ge mp 10 with hlt | hge
  · have hmonth : ¬ mp + 3 ≤ 2 := by omega
    simp only [fromMarch, hlt, ↓reduceIte, Date.toDay, hmonth, hera, hyoe, add_sub_cancel_right]
  · have hmonth : mp - 9 ≤ 2 := by omega
    have hnot : ¬ mp < 10 := by omega
    simp only [fromMarch, hnot, ↓reduceIte, Date.toDay, hmonth, add_sub_cancel_right, hera, hyoe,
      sub_add_cancel]

theorem ofDay_valid (n : ℤ) : (ofDay n).Valid := by
  have h0 : 0 ≤ (n + epoch) % 146097 := Int.emod_nonneg _ (by decide)
  have h1 : (n + epoch) % 146097 < 146097 := Int.emod_lt_of_pos _ (by decide)
  obtain ⟨hd0, hd1, hleap⟩ := dayOfYear_bounds h0 h1
  obtain ⟨hm0, hm1, hle, hlt, hlast⟩ := monthOfYear_bounds hd0 hd1
  refine fromMarch_valid hm0 hm1 (by omega) (by omega) fun hfeb hday => hleap ?_
  rw [hfeb] at hday
  exact hlast hfeb (by omega)

theorem toDay_ofDay (n : ℤ) : (ofDay n).toDay = n := by
  have h0 : 0 ≤ (n + epoch) % 146097 := Int.emod_nonneg _ (by decide)
  have h1 : (n + epoch) % 146097 < 146097 := Int.emod_lt_of_pos _ (by decide)
  obtain ⟨hy0, hy1⟩ := yearOfCycle_bounds h0 h1
  obtain ⟨hd0, hd1, -⟩ := dayOfYear_bounds h0 h1
  obtain ⟨hm0, hm1, -⟩ := monthOfYear_bounds hd0 hd1
  have hn := Int.mul_ediv_add_emod (n + epoch) 146097
  rw [ofDay, fromMarch_toDay hy0 hy1 hm0 hm1, dayOfYear]
  omega

/-! ## The order of dates -/

def Date.Before (d e : Date) : Prop :=
  d.year < e.year ∨ d.year = e.year ∧ (d.month < e.month ∨ d.month = e.month ∧ d.day < e.day)

/-- Days before a year that begins in March. -/
def daysBeforeYear (year : ℤ) : ℤ := 365 * year + year / 4 - year / 100 + year / 400

theorem daysBeforeYear_mono {a b : ℤ} (h : a ≤ b) : daysBeforeYear a ≤ daysBeforeYear b := by
  unfold daysBeforeYear
  omega

theorem daysBeforeMonth_mono {a b : ℤ} (h : a ≤ b) : daysBeforeMonth a ≤ daysBeforeMonth b := by
  unfold daysBeforeMonth
  omega

theorem Date.toDay_eq (d : Date) : d.toDay =
    daysBeforeYear (if d.month ≤ 2 then d.year - 1 else d.year) +
      daysBeforeMonth (if d.month ≤ 2 then d.month + 9 else d.month - 3) + (d.day - 1) - epoch := by
  unfold Date.toDay daysBefore daysBeforeYear
  simp only
  omega

/-- A day of a month that is not February comes before the next month. -/
theorem day_lt_next_month {d : Date} (h : d.Valid) (hm : d.month ≠ 2) :
    daysBeforeMonth (if d.month ≤ 2 then d.month + 9 else d.month - 3) + (d.day - 1) <
      daysBeforeMonth ((if d.month ≤ 2 then d.month + 9 else d.month - 3) + 1) := by
  obtain ⟨h1, h12, -, hday⟩ := h
  unfold daysInMonth at hday
  rw [if_neg hm] at hday
  unfold daysBeforeMonth
  generalize d.month = month at *
  interval_cases month <;> simp at hday hm ⊢ <;> omega

/-- Every day of a year comes before the next year. -/
theorem day_lt_next_year {d : Date} (h : d.Valid) :
    daysBeforeYear (if d.month ≤ 2 then d.year - 1 else d.year) +
      daysBeforeMonth (if d.month ≤ 2 then d.month + 9 else d.month - 3) + (d.day - 1) <
      daysBeforeYear ((if d.month ≤ 2 then d.year - 1 else d.year) + 1) := by
  by_cases hm : d.month = 2
  · obtain ⟨-, -, -, hday⟩ := h
    unfold daysInMonth isLeapYear at hday
    simp only [hm, ↓reduceIte, decide_eq_true_eq] at hday
    rw [hm, if_pos (by decide), if_pos (by decide)]
    unfold daysBeforeYear daysBeforeMonth
    split at hday <;> omega
  · have hnext := day_lt_next_month h hm
    have hlast : daysBeforeMonth ((if d.month ≤ 2 then d.month + 9 else d.month - 3) + 1) ≤ 365 := by
      obtain ⟨h1, h12, -⟩ := h
      unfold daysBeforeMonth
      split <;> omega
    have hyear (y : ℤ) : daysBeforeYear y + 365 ≤ daysBeforeYear (y + 1) := by
      unfold daysBeforeYear
      omega
    have := hyear (if d.month ≤ 2 then d.year - 1 else d.year)
    omega

theorem toDay_lt {d e : Date} (hd : d.Valid) (he : e.Valid) (h : d.Before e) :
    d.toDay < e.toDay := by
  rw [Date.toDay_eq, Date.toDay_eq]
  have hyear := day_lt_next_year hd
  have hfirst : 0 ≤ daysBeforeMonth (if e.month ≤ 2 then e.month + 9 else e.month - 3) := by
    unfold daysBeforeMonth
    obtain ⟨h1, -⟩ := he
    split <;> omega
  have hday : 1 ≤ e.day := he.2.2.1
  by_cases hlater : (if d.month ≤ 2 then d.year - 1 else d.year) <
      (if e.month ≤ 2 then e.year - 1 else e.year)
  · have := daysBeforeYear_mono (Int.add_one_le_of_lt hlater)
    omega
  -- the same year, when it begins in March
  have hsame : (if d.month ≤ 2 then d.year - 1 else d.year) =
      (if e.month ≤ 2 then e.year - 1 else e.year) := by
    unfold Date.Before at h
    split at hlater <;> split at hlater <;> omega
  rw [hsame]
  by_cases hm : d.month = e.month
  · have : d.day < e.day := by
      unfold Date.Before at h
      rw [hm] at hsame h
      split at hsame <;> omega
    rw [hm]
    omega
  · have hmonth : (if d.month ≤ 2 then d.month + 9 else d.month - 3) + 1 ≤
        (if e.month ≤ 2 then e.month + 9 else e.month - 3) := by
      unfold Date.Before at h
      obtain ⟨hd1, hd12, -⟩ := hd
      obtain ⟨he1, he12, -⟩ := he
      split at hsame <;> split at hsame <;> simp_all <;> omega
    have hnot : d.month ≠ 2 := by
      rintro hfeb
      obtain ⟨he1, he12, -⟩ := he
      rw [hfeb] at hmonth
      split at hmonth <;> split at hmonth <;> omega
    have := day_lt_next_month hd hnot
    have := daysBeforeMonth_mono hmonth
    omega

theorem before_ofDay {m n : ℤ} (h : m < n) : (ofDay m).Before (ofDay n) := by
  by_contra hnot
  have hle : ¬(ofDay m).toDay < (ofDay n).toDay → False := by
    rw [toDay_ofDay, toDay_ofDay]
    exact fun hge => hge h
  have hcases : ofDay m = ofDay n ∨ (ofDay n).Before (ofDay m) := by
    unfold Date.Before at hnot ⊢
    generalize ofDay m = d at hnot
    generalize ofDay n = e at hnot
    rw [Date.mk.injEq]
    omega
  rcases hcases with heq | hlt
  · exact hle (by rw [heq]; exact lt_irrefl _)
  · exact hle (not_lt_of_gt (toDay_lt (ofDay_valid n) (ofDay_valid m) hlt))

theorem year_mono {m n : ℤ} (h : m ≤ n) : (ofDay m).year ≤ (ofDay n).year := by
  rcases eq_or_lt_of_le h with rfl | hlt
  · exact le_rfl
  · have := before_ofDay hlt
    unfold Date.Before at this
    omega

/-! ## Weeks -/

/-- Days since Monday; 1970-01-01 was a Thursday. -/
def daysFromMonday (n : ℤ) : ℤ := (n + 3) % 7

/-- The Thursday of the day's week, whose year is the ISO year of the week. -/
def thursday (n : ℤ) : ℤ := n - daysFromMonday n + 3

def isoYear (n : ℤ) : ℤ := (ofDay (thursday n)).year

def isoWeek (n : ℤ) : ℤ := (thursday n - (⟨isoYear n, 1, 1⟩ : Date).toDay) / 7 + 1

theorem thursday_mono {m n : ℤ} (h : m ≤ n) : thursday m ≤ thursday n := by
  unfold thursday daysFromMonday
  omega

/-- Weeks are numbered in the order of their days. -/
theorem isoWeek_mono {m n : ℤ} (h : m ≤ n) :
    isoYear m < isoYear n ∨ isoYear m = isoYear n ∧ isoWeek m ≤ isoWeek n := by
  have hthursday := thursday_mono h
  rcases lt_or_eq_of_le (year_mono hthursday) with hlt | heq
  · exact Or.inl hlt
  · refine Or.inr ⟨heq, ?_⟩
    have heq' : isoYear m = isoYear n := heq
    unfold isoWeek
    rw [heq']
    omega

theorem month_mono {m n : ℤ} (h : m ≤ n) : (ofDay m).year < (ofDay n).year ∨
    (ofDay m).year = (ofDay n).year ∧ (ofDay m).month ≤ (ofDay n).month := by
  rcases eq_or_lt_of_le h with rfl | hlt
  · exact Or.inr ⟨rfl, le_rfl⟩
  · have := before_ofDay hlt
    unfold Date.Before at this
    omega

end Synora.Civil
