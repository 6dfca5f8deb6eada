import Mathlib.Algebra.Order.Group.Int
import Mathlib.Tactic.Linarith
import Mathlib.Tactic.Ring

namespace Synora.Zones

/-- Seconds of a day. -/
def day : ℤ := 86400

/-- A time zone: an offset from UTC for every second, and for every wall time the first second
that shows it. The offset changes by less than a day, and at most once in two days. -/
structure Zone where
  off : ℤ → ℤ
  earliest : ℤ → Option ℤ
  spaced : ∀ t u, off t ≠ off (t - 1) → off u ≠ off (u - 1) → t < u → 2 * day < u - t
  small : ∀ t, |off t - off (t - 1)| < day
  earliest_least : ∀ w x, earliest w = some x → x + off x = w ∧ ∀ y, y + off y = w → x ≤ y
  earliest_none : ∀ w, earliest w = none → ∀ y, y + off y ≠ w

namespace Zone

variable (z : Zone)

/-- What the clock on the wall shows. -/
def wall (x : ℤ) : ℤ := x + z.off x

/-- The offset changes at this second. -/
def Transition (t : ℤ) : Prop := z.off t ≠ z.off (t - 1)

variable {z} {x y : ℤ}

theorem wall_of_earliest {w : ℤ} (h : z.earliest w = some x) : z.wall x = w :=
  (z.earliest_least w x h).1

theorem earliest_le {w : ℤ} (h : z.earliest w = some x) (hy : z.wall y = w) : x ≤ y :=
  (z.earliest_least w x h).2 y hy

theorem exists_earliest (h : z.wall y = x) : ∃ u, z.earliest x = some u ∧ u ≤ y := by
  cases hu : z.earliest x with
  | none => exact absurd h (z.earliest_none x hu y)
  | some u => exact ⟨u, rfl, earliest_le hu h⟩

/-! ## Two days hold at most one transition -/

/-- Over a stretch without transitions the offset stays. -/
theorem off_eq_of_no_transition (h : x ≤ y) (hno : ∀ t, x < t → t ≤ y → ¬z.Transition t) :
    z.off y = z.off x := by
  obtain ⟨n, rfl⟩ : ∃ n : ℕ, y = x + n := ⟨(y - x).toNat, by omega⟩
  induction n with
  | zero => simp
  | succ n ih =>
    have hlast := hno (x + (n + 1 : ℕ)) (by omega) le_rfl
    have hprev : x + ((n + 1 : ℕ) : ℤ) - 1 = x + n := by omega
    rw [Transition, not_not, hprev] at hlast
    rw [hlast]
    exact ih (by omega) fun t ht htn => hno t ht (by omega)

/-- Within two days the offset stays, or changes at one transition and stays on both sides. -/
theorem off_cases (h : x ≤ y) (hspan : y - x ≤ 2 * day) :
    z.off y = z.off x ∨ ∃ t, x < t ∧ t ≤ y ∧ z.Transition t ∧ z.off (t - 1) = z.off x ∧
      z.off t = z.off y := by
  by_cases hno : ∀ t, x < t → t ≤ y → ¬z.Transition t
  · exact Or.inl (off_eq_of_no_transition h hno)
  · push Not at hno
    obtain ⟨t, hxt, hty, ht⟩ := hno
    have hother (u : ℤ) (hu : x < u) (huy : u ≤ y) (hut : z.Transition u) : u = t := by
      rcases lt_trichotomy u t with hlt | heq | hgt
      · have := z.spaced u t hut ht hlt
        omega
      · exact heq
      · have := z.spaced t u ht hut hgt
        omega
    refine Or.inr ⟨t, hxt, hty, ht, ?_, ?_⟩
    · refine off_eq_of_no_transition (by omega) fun u hu hut htr => ?_
      have := hother u hu (by omega) htr
      omega
    · refine (off_eq_of_no_transition hty fun u hu huy htr => ?_).symm
      have := hother u (by omega) huy htr
      omega

/-- The wall clock loses less than a day in two days. -/
theorem wall_two_days (h : x ≤ y) (hspan : y - x ≤ 2 * day) :
    z.wall x + (y - x) - day < z.wall y := by
  simp only [wall]
  rcases off_cases h hspan with heq | ⟨t, -, -, -, hbefore, hafter⟩
  · rw [heq, day]
    omega
  · have hshift := abs_lt.mp (z.small t)
    rw [hbefore, hafter] at hshift
    omega

/-- The wall clock is never a day behind what it has shown before. -/
theorem wall_lt_add_day (h : x ≤ y) : z.wall x < z.wall y + day := by
  obtain ⟨n, hn⟩ : ∃ n : ℕ, y - x ≤ 2 * day * (n + 1) := ⟨(y - x).toNat, by simp only [day]; omega⟩
  induction n generalizing x with
  | zero =>
    have := wall_two_days (z := z) h (by simpa using hn)
    omega
  | succ n ih =>
    by_cases hspan : y - x ≤ 2 * day
    · have := wall_two_days (z := z) h hspan
      omega
    · have hstep := wall_two_days (z := z) (x := x) (y := x + 2 * day) (by simp only [day]; omega)
        (by omega)
      have hrest := ih (x := x + 2 * day) (by omega) (by push_cast at hn ⊢; linarith)
      simp only [day] at *
      omega

/-- A wall clock that has not moved on was set back at one transition. -/
theorem set_back (hlt : x < y) (hle : z.wall y ≤ z.wall x) :
    ∃ t, x < t ∧ t ≤ y ∧ z.Transition t ∧ z.off (t - 1) = z.off x ∧ z.off t = z.off y := by
  have hspan : y - x ≤ 2 * day := by
    by_contra hbig
    have hstep := wall_two_days (z := z) (x := x) (y := x + 2 * day) (by simp only [day]; omega)
      (by omega)
    have hrest := wall_lt_add_day (z := z) (x := x + 2 * day) (y := y) (by omega)
    omega
  refine (off_cases hlt.le hspan).resolve_left fun heq => ?_
  rw [wall, wall, heq] at hle
  omega

/-- What the wall clock shows a second time, it has shown before. -/
theorem wall_repeats (hlt : x < y) (hle : z.wall y ≤ z.wall x) : ∃ u ≤ x, z.wall u = z.wall y := by
  obtain ⟨t, hxt, hty, ht, hbefore, hafter⟩ := set_back hlt hle
  have hshift := abs_lt.mp (z.small t)
  rw [hbefore, hafter] at hshift
  refine ⟨z.wall y - z.off x, by simp only [wall] at hle ⊢; omega, ?_⟩
  -- the clock has not changed for a day before the transition
  have hstays : z.off x = z.off (z.wall y - z.off x) := by
    simp only [wall] at hle ⊢
    refine off_eq_of_no_transition (by omega) fun u hu hux htr => ?_
    have := z.spaced u t htr ht (by omega)
    simp only [day] at *
    omega
  rw [wall, ← hstays]
  omega

/-- First seconds come in the order of their wall times. -/
theorem earliest_lt {v w : ℤ} (hv : z.earliest v = some x) (hw : z.earliest w = some y)
    (h : v < w) : x < y := by
  by_contra hle
  have hvx := wall_of_earliest hv
  have hwy := wall_of_earliest hw
  have hne : y ≠ x := by
    rintro rfl
    omega
  obtain ⟨u, hu, hwall⟩ := wall_repeats (z := z) (x := y) (y := x) (by omega) (by omega)
  have := earliest_le hv (hwall.trans hvx)
  omega

/-- A wall time that the clock has reached was first shown by now. -/
theorem earliest_le_of_wall_le {w now : ℤ} (h : z.earliest w = some x) (hle : w ≤ z.wall now) :
    x ≤ now := by
  by_contra hlt
  have hwx := wall_of_earliest h
  obtain ⟨u, hu, hwall⟩ := wall_repeats (z := z) (x := now) (y := x) (by omega) (by omega)
  have := earliest_le h (hwall.trans hwx)
  omega

/-! ## Wall times that are skipped -/

/-- The offset stays for two days after a transition. -/
theorem off_after_transition {t : ℤ} (ht : z.Transition t) (hx : t ≤ x) (hxt : x ≤ t + 2 * day) :
    z.off x = z.off t := by
  refine off_eq_of_no_transition hx fun u hu hux htr => ?_
  have := z.spaced t u ht htr hu
  omega

theorem wall_steps (x : ℤ) (n : ℕ) : z.wall x + day * n ≤ z.wall (x + 2 * day * n) := by
  induction n with
  | zero => simp
  | succ n ih =>
    have hstep := wall_two_days (z := z) (x := x + 2 * day * n) (y := x + 2 * day * n + 2 * day)
      (by simp only [day]; omega) (by omega)
    have hnext : x + 2 * day * ((n + 1 : ℕ) : ℤ) = x + 2 * day * n + 2 * day := by push_cast; ring
    have hdays : day * ((n + 1 : ℕ) : ℤ) = day * n + day := by push_cast; ring
    rw [hnext, hdays]
    omega

/-- The wall clock goes past every time, at a second of its own. -/
theorem exists_crossing (w : ℤ) : ∃ t, z.wall (t - 1) < w ∧ w ≤ z.wall t := by
  have hcross (n : ℕ) (lo : ℤ) (hlo : z.wall lo < w) (hhi : w ≤ z.wall (lo + n)) :
      ∃ t, z.wall (t - 1) < w ∧ w ≤ z.wall t := by
    induction n with
    | zero => simp only [Nat.cast_zero, add_zero] at hhi; omega
    | succ n ih =>
      by_cases hn : w ≤ z.wall (lo + n)
      · exact ih hn
      · refine ⟨lo + (n + 1 : ℕ), ?_, hhi⟩
        have hprev : lo + ((n + 1 : ℕ) : ℤ) - 1 = lo + n := by omega
        rw [hprev]
        omega
  obtain ⟨n, hn⟩ : ∃ n : ℕ, |w - z.wall 0| < n := ⟨|w - z.wall 0|.toNat + 1, by omega⟩
  have hbound := abs_lt.mp hn
  have hup := wall_steps (z := z) 0 n
  have hdown := wall_steps (z := z) (0 - 2 * day * n) n
  rw [sub_add_cancel] at hdown
  have hn0 : (n : ℤ) ≤ day * n := by simp only [day]; omega
  refine hcross (4 * 86400 * n) (0 - 2 * day * n) (by omega) ?_
  have hend : 0 - 2 * day * n + ((4 * 86400 * n : ℕ) : ℤ) = 0 + 2 * day * n := by
    push_cast
    simp only [day]
    ring
  rw [hend]
  omega

/-- A skipped wall time is shown again a day later, at a second after the transition. -/
theorem earliest_day_after_gap {w : ℤ} (h : z.earliest w = none) :
    ∃ u, z.wall u = w + day := by
  obtain ⟨t, hbefore, hat⟩ := exists_crossing (z := z) w
  have hskip := z.earliest_none w h t
  have hshift := abs_lt.mp (z.small t)
  simp only [wall] at hbefore hat
  have ht : z.Transition t := by
    intro heq
    omega
  have hoff : z.off (w + day - z.off t) = z.off t :=
    off_after_transition ht (by omega) (by simp only [day] at *; omega)
  refine ⟨w + day - z.off t, ?_⟩
  rw [wall, hoff]
  omega

/-- A wall time to come, or the same time a day later, is first shown after now. -/
theorem exists_earliest_after {w now : ℤ} (hw : z.wall now < w) :
    (∃ x, z.earliest w = some x ∧ now < x) ∨ ∃ x, z.earliest (w + day) = some x ∧ now < x := by
  -- what is a day ahead of the clock has not been shown
  have hlate {x : ℤ} (hx : z.wall x = w + day) : now < x := by
    by_contra hle
    have := wall_lt_add_day (z := z) (x := x) (y := now) (by omega)
    omega
  have hnext {u : ℤ} (hu : z.wall u = w + day) :
      ∃ x, z.earliest (w + day) = some x ∧ now < x := by
    obtain ⟨x, hx, -⟩ := exists_earliest hu
    exact ⟨x, hx, hlate (wall_of_earliest hx)⟩
  cases hfirst : z.earliest w with
  | none =>
    obtain ⟨u, hu⟩ := earliest_day_after_gap hfirst
    exact Or.inr (hnext hu)
  | some x =>
    by_cases hx : now < x
    · exact Or.inl ⟨x, rfl, hx⟩
    · -- the clock was set back since, so it changes no more within the next two days
      have hwx := wall_of_earliest hfirst
      have hne : x ≠ now := by
        rintro rfl
        omega
      obtain ⟨t, hxt, htn, ht, hbefore, hafter⟩ :=
        set_back (z := z) (x := x) (y := now) (by omega) (by omega)
      have hshift := abs_lt.mp (z.small t)
      rw [hbefore, hafter] at hshift
      simp only [wall] at hw hwx
      have hoff : z.off (w + day - z.off t) = z.off t :=
        off_after_transition ht (by simp only [day] at *; omega) (by simp only [day] at *; omega)
      refine Or.inr (hnext (u := w + day - z.off t) ?_)
      rw [wall, hoff]
      omega

/-- The zone whose offset changes once. -/
def single (t before after : ℤ) (h : |after - before| < day) : Zone where
  off x := if x < t then before else after
  earliest w := if w - before < t then some (w - before) else
    if t ≤ w - after then some (w - after) else none
  spaced u v hu hv huv := by split_ifs at hu hv <;> omega
  small u := by
    split_ifs
    · simp [day]
    · omega
    · exact h
    · simp [day]
  earliest_least w x hx := by
    refine ⟨?_, fun y hy => ?_⟩
    · split_ifs at hx ⊢ <;> simp only [Option.some.injEq] at hx <;> omega
    · split_ifs at hx hy <;> simp only [Option.some.injEq] at hx <;> omega
  earliest_none w hw y hy := by split_ifs at hw hy <;> omega

end Zone

/-! ## Searching for a wall time -/

/-- How a bounded search ends: at a hit, at its bound, or at the end of the calendar. -/
inductive Scan
  | found (x : ℤ)
  | exhausted
  | overran
deriving DecidableEq, Repr

/-- Try `start`, `start + step`, … up to `n` times. -/
def scan (valid : ℤ → Bool) (step : ℤ) (attempt : ℤ → Option ℤ) : ℕ → ℤ → Scan
  | 0, _ => .exhausted
  | n + 1, start =>
    if valid start then
      match attempt start with
      | some x => .found x
      | none => scan valid step attempt n (start + step)
    else .overran

section

variable {valid : ℤ → Bool} {step : ℤ} {attempt : ℤ → Option ℤ} {n : ℕ} {start x : ℤ}

theorem scan_found (h : scan valid step attempt n start = .found x) :
    ∃ i < n, (∀ j ≤ i, valid (start + step * j) = true) ∧ attempt (start + step * i) = some x ∧
      ∀ j < i, attempt (start + step * j) = none := by
  induction n generalizing start with
  | zero => cases h
  | succ n ih =>
    rw [scan] at h
    split at h
    · rename_i hvalid
      split at h
      · rename_i y hy
        cases h
        exact ⟨0, by omega, by simpa using hvalid, by simpa using hy, by omega⟩
      · rename_i hnone
        obtain ⟨i, hi, hall, hhit, hmiss⟩ := ih h
        have hshift (j : ℕ) : start + step * ((j + 1 : ℕ) : ℤ) = start + step + step * j := by
          push_cast
          ring
        refine ⟨i + 1, by omega, ?_, by rw [hshift]; exact hhit, ?_⟩
        · rintro (_ | j) hj
          · simpa using hvalid
          · rw [hshift]
            exact hall j (by omega)
        · rintro (_ | j) hj
          · simpa using hnone
          · rw [hshift]
            exact hmiss j (by omega)
    · cases h

theorem exists_scan_found {i : ℕ} (hi : i < n) (hvalid : ∀ j ≤ i, valid (start + step * j) = true)
    (hhit : (attempt (start + step * i)).isSome = true) :
    ∃ y, scan valid step attempt n start = .found y := by
  induction n generalizing start i with
  | zero => omega
  | succ n ih =>
    have hstart : valid start = true := by simpa using hvalid 0 (by omega)
    rw [scan, if_pos hstart]
    cases hat : attempt start with
    | some y => exact ⟨y, rfl⟩
    | none =>
      have hshift (j : ℕ) : start + step * ((j + 1 : ℕ) : ℤ) = start + step + step * j := by
        push_cast
        ring
      cases i with
      | zero => simp [hat] at hhit
      | succ i =>
        rw [hshift] at hhit
        refine ih (i := i) (by omega) (fun j hj => ?_) hhit
        rw [← hshift]
        exact hvalid (j + 1) (by omega)

end

end Synora.Zones
