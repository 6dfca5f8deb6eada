import Mathlib.Logic.Function.Basic
import Mathlib.Tactic.Common

namespace Synora.Tally

variable {K : Type*} [DecidableEq K]

/-! # Counts by key -/

/-- The count under a key; a key without an entry counts zero. -/
def count (m : K → Option ℕ) (k : K) : ℕ := (m k).getD 0

def inc (m : K → Option ℕ) (k : K) : K → Option ℕ :=
  Function.update m k (some (count m k + 1))

/-- One less under a key that has an entry; an entry that comes down to zero is taken out. -/
def dec (m : K → Option ℕ) (k : K) : K → Option ℕ :=
  match m k with
  | none => m
  | some n => Function.update m k (if n - 1 = 0 then none else some (n - 1))

def drop {V : Type*} (m : K → Option V) (k : K) : K → Option V := Function.update m k none

/-- No entry holds zero, so none can fall below it. -/
def Positive (m : K → Option ℕ) : Prop := ∀ k, m k ≠ some 0

theorem Positive.inc {m : K → Option ℕ} (h : Positive m) (k : K) : Positive (inc m k) := by
  intro k'
  unfold Tally.inc
  by_cases hk : k' = k
  · subst hk
    simp
  · rw [Function.update_of_ne hk]
    exact h k'

theorem Positive.dec {m : K → Option ℕ} (h : Positive m) (k : K) : Positive (dec m k) := by
  intro k'
  cases hn : m k with
  | none =>
    simp only [Tally.dec, hn]
    exact h k'
  | some n =>
    simp only [Tally.dec, hn]
    by_cases hk : k' = k
    · subst hk
      rw [Function.update_self]
      split <;> simp_all
    · rw [Function.update_of_ne hk]
      exact h k'

theorem Positive.drop {m : K → Option ℕ} (h : Positive m) (k : K) : Positive (drop m k) := by
  intro k'
  by_cases hk : k' = k
  · subst hk
    simp [Tally.drop]
  · rw [Tally.drop, Function.update_of_ne hk]
    exact h k'

theorem count_inc (m : K → Option ℕ) (k k' : K) :
    count (inc m k) k' = count m k' + if k = k' then 1 else 0 := by
  by_cases hk : k = k'
  · subst hk
    simp [count, inc]
  · simp [count, inc, Function.update_of_ne (Ne.symm hk), hk]

theorem count_dec (m : K → Option ℕ) (k k' : K) :
    count (dec m k) k' = count m k' - if k = k' then 1 else 0 := by
  by_cases hk : k = k'
  · subst hk
    cases hn : m k with
    | none => simp [count, dec, hn]
    | some n =>
      simp only [count, dec, hn, Function.update_self, Option.getD_some, if_true]
      split <;> simp_all
  · cases hn : m k <;> simp [count, dec, hn, Function.update_of_ne (Ne.symm hk), hk]

theorem count_drop (m : K → Option ℕ) (k k' : K) :
    count (drop m k) k' = if k = k' then 0 else count m k' := by
  by_cases hk : k = k'
  · subst hk
    simp [count, drop]
  · simp [count, drop, Function.update_of_ne (Ne.symm hk), hk]

theorem drop_of_ne {V : Type*} (m : K → Option V) {k k' : K} (h : k ≠ k') :
    drop m k k' = m k' := Function.update_of_ne (Ne.symm h) _ _

@[simp] theorem drop_self {V : Type*} (m : K → Option V) (k : K) : drop m k k = none :=
  Function.update_self _ _ _

theorem of_drop {V : Type*} {m : K → Option V} {k k' : K} {v : V} (h : drop m k k' = some v) :
    m k' = some v := by
  by_cases hk : k = k'
  · subst hk
    simp at h
  · rwa [drop_of_ne m hk] at h

end Synora.Tally
