import Mathlib.Data.Finset.Card
import Mathlib.Data.List.DropRight
import Mathlib.Data.Prod.Lex
import Mathlib.Tactic.Common

namespace Synora.Periods

/-! Lists in the order of time whose elements fall into periods: the newest elements, and the
oldest elements of the newest periods. -/

variable {α K : Type}

/-- The last `n` elements of a list. -/
theorem mem_take_reverse {l : List α} {n : ℕ} {x : α} :
    x ∈ l.reverse.take n ↔ ∃ before after, l = before ++ x :: after ∧ after.length < n := by
  constructor
  · intro h
    obtain ⟨i, hi, rfl⟩ := List.mem_take_iff_getElem.mp h
    rw [lt_min_iff, List.length_reverse] at hi
    have hlt : l.length - 1 - i < l.length := by omega
    refine ⟨l.take (l.length - 1 - i), l.drop (l.length - 1 - i + 1), ?_, ?_⟩
    · rw [List.getElem_reverse, List.cons_getElem_drop_succ, List.take_append_drop]
    · rw [List.length_drop]
      omega
  · rintro ⟨before, after, rfl, hlen⟩
    rw [List.reverse_append, List.reverse_cons, List.append_assoc, List.take_append,
      List.take_of_length_le (by rw [List.length_reverse]; omega), List.length_reverse]
    obtain ⟨k, hk⟩ : ∃ k, n - after.length = k + 1 := ⟨n - after.length - 1, by omega⟩
    rw [hk]
    simp

section
variable {r : α → α → Prop} {l : List α}

/-- What comes later in a sorted list. -/
theorem filter_later [DecidableEq α] [DecidableRel r] (hanti : ∀ x y, r x y → r y x → x = y)
    (hnodup : l.Nodup) (hsorted : l.Pairwise r) {before after : List α} {x : α}
    (h : l = before ++ x :: after) : l.filter (fun y => decide (r x y ∧ y ≠ x)) = after := by
  subst h
  rw [List.pairwise_append, List.pairwise_cons] at hsorted
  obtain ⟨-, ⟨hafter, -⟩, hbefore⟩ := hsorted
  rw [List.nodup_append, List.nodup_cons] at hnodup
  obtain ⟨-, ⟨hx, -⟩, hdisjoint⟩ := hnodup
  have hfirst : before.filter (fun y => decide (r x y ∧ y ≠ x)) = [] := by
    rw [List.filter_eq_nil_iff]
    intro y hy hlater
    rw [decide_eq_true_eq] at hlater
    exact hlater.2 (hanti y x (hbefore y hy x List.mem_cons_self) hlater.1)
  have hlast : after.filter (fun y => decide (r x y ∧ y ≠ x)) = after := by
    rw [List.filter_eq_self]
    intro y hy
    rw [decide_eq_true_eq]
    refine ⟨hafter y hy, ?_⟩
    rintro rfl
    exact hx hy
  rw [List.filter_append, hfirst, List.nil_append, List.filter_cons_of_neg (by simp), hlast]

/-- The newest `n` elements are those with fewer than `n` newer ones. -/
theorem mem_newest [DecidableEq α] [DecidableRel r] (hanti : ∀ x y, r x y → r y x → x = y)
    (hnodup : l.Nodup) (hsorted : l.Pairwise r) {n : ℕ} {x : α} :
    x ∈ l.reverse.take n ↔
      x ∈ l ∧ (l.filter fun y => decide (r x y ∧ y ≠ x)).length < n := by
  rw [mem_take_reverse]
  constructor
  · rintro ⟨before, after, heq, hlen⟩
    rw [filter_later hanti hnodup hsorted heq]
    exact ⟨by simp [heq], hlen⟩
  · rintro ⟨hx, hlen⟩
    obtain ⟨before, after, heq⟩ := List.append_of_mem hx
    rw [filter_later hanti hnodup hsorted heq] at hlen
    exact ⟨before, after, heq, hlen⟩

end

/-! ## The first element of each period -/

section
variable [DecidableEq K] (key : α → Option K)

/-- The elements whose period was not seen before. -/
def firsts : List K → List α → List α
  | _, [] => []
  | seen, x :: rest =>
    match key x with
    | some k => if k ∈ seen then firsts seen rest else x :: firsts (k :: seen) rest
    | none => firsts seen rest

variable {key} {seen : List K} {l : List α}

/-- Every period that was not seen has its first element. -/
theorem exists_mem_firsts {y : α} {k : K} (hy : y ∈ l) (hk : key y = some k) (hnew : k ∉ seen) :
    ∃ x ∈ firsts key seen l, key x = some k := by
  induction l generalizing seen with
  | nil => cases hy
  | cons z l ih =>
    unfold firsts
    rcases List.mem_cons.mp hy with rfl | hy
    · rw [hk]
      simp only [hnew, ↓reduceIte]
      exact ⟨y, List.mem_cons_self, hk⟩
    · cases hz : key z with
      | none => exact ih hy hnew
      | some j =>
        simp only
        split
        · exact ih hy hnew
        · by_cases hj : k = j
          · exact ⟨z, List.mem_cons_self, by rw [hz, hj]⟩
          · have hnew' : k ∉ j :: seen := by simp [hj, hnew]
            obtain ⟨x, hx, hxk⟩ := ih hy hnew'
            exact ⟨x, List.mem_cons_of_mem _ hx, hxk⟩

theorem key_of_mem_firsts {x : α} (h : x ∈ firsts key seen l) :
    x ∈ l ∧ ∃ k, key x = some k ∧ k ∉ seen := by
  induction l generalizing seen with
  | nil => cases h
  | cons z l ih =>
    unfold firsts at h
    cases hz : key z with
    | none =>
      rw [hz] at h
      exact (ih h).imp_left (List.mem_cons_of_mem _)
    | some j =>
      rw [hz] at h
      simp only at h
      split at h
      · exact (ih h).imp_left (List.mem_cons_of_mem _)
      · rename_i hj
        rcases List.mem_cons.mp h with rfl | h
        · exact ⟨List.mem_cons_self, j, hz, hj⟩
        · obtain ⟨hx, k, hk, hnew⟩ := ih h
          exact ⟨List.mem_cons_of_mem _ hx, k, hk, fun hmem => hnew (List.mem_cons_of_mem _ hmem)⟩

/-- First elements come from different periods. -/
theorem firsts_pairwise : (firsts key seen l).Pairwise fun x y => key x ≠ key y := by
  induction l generalizing seen with
  | nil => exact List.Pairwise.nil
  | cons z l ih =>
    unfold firsts
    cases hz : key z with
    | none => exact ih
    | some j =>
      simp only
      split
      · exact ih
      · rw [List.pairwise_cons]
        refine ⟨fun y hy heq => ?_, ih⟩
        obtain ⟨-, k, hk, hnew⟩ := key_of_mem_firsts hy
        rw [hz, hk, Option.some.injEq] at heq
        exact hnew (heq ▸ List.mem_cons_self)

theorem firsts_sublist : (firsts key seen l).Sublist l := by
  induction l generalizing seen with
  | nil => exact List.Sublist.slnil
  | cons z l ih =>
    unfold firsts
    cases key z with
    | none => exact ih.cons z
    | some j =>
      simp only
      split
      · exact ih.cons z
      · exact ih.cons_cons z

/-- The first element of a period is its oldest. -/
theorem firsts_oldest {r : α → α → Prop} (hrefl : ∀ x, r x x) (hsorted : l.Pairwise r) {x y : α}
    (hx : x ∈ firsts key seen l) (hy : y ∈ l) (hkey : key y = key x) : r x y := by
  induction l generalizing seen with
  | nil => cases hy
  | cons z l ih =>
    rw [List.pairwise_cons] at hsorted
    unfold firsts at hx
    -- the new element is not the first of a period that has one behind it
    have hlater {seen' : List K} (hlast : x ∈ firsts key seen' l) (hz : key z = none ∨
        ∃ j, key z = some j ∧ j ∈ seen') : r x y := by
      rcases List.mem_cons.mp hy with rfl | hy
      · obtain ⟨-, k, hk, hnew⟩ := key_of_mem_firsts hlast
        rw [hkey, hk] at hz
        rcases hz with hz | ⟨j, hz, hj⟩
        · cases hz
        · cases hz
          exact absurd hj hnew
      · exact ih hsorted.2 hlast hy
    cases hz : key z with
    | none =>
      rw [hz] at hx
      exact hlater hx (Or.inl hz)
    | some j =>
      rw [hz] at hx
      simp only at hx
      split at hx
      · rename_i hj
        exact hlater hx (Or.inr ⟨j, hz, hj⟩)
      · rcases List.mem_cons.mp hx with rfl | hx
        · rcases List.mem_cons.mp hy with rfl | hy
          · exact hrefl y
          · exact hsorted.1 y hy
        · exact hlater hx (Or.inr ⟨j, hz, List.mem_cons_self⟩)

/-- Only which periods are the same matters. -/
theorem firsts_map {J : Type} [DecidableEq J] {f : K → J} (hf : Function.Injective f) :
    firsts (fun x => (key x).map f) (seen.map f) l = firsts key seen l := by
  induction l generalizing seen with
  | nil => rfl
  | cons z l ih =>
    unfold firsts
    cases hz : key z with
    | none => exact ih
    | some k =>
      have hmem : f k ∈ seen.map f ↔ k ∈ seen := List.mem_map_of_injective hf
      simp only [Option.map_some, hmem]
      split
      · exact ih
      · rw [← List.map_cons, ih]

end

/-! ## The newest periods -/

section
variable [LinearOrder K] {key : α → Option K} {r : α → α → Prop} {l : List α}

/-- The periods after `k` that have an element. -/
def later (key : α → Option K) (l : List α) (k : K) : Finset K :=
  (l.filterMap key).toFinset.filter (k < ·)

/-- Along a sorted list the periods of the first elements grow. -/
theorem firsts_increasing (hsorted : l.Pairwise r)
    (hmono : ∀ x ∈ l, ∀ y ∈ l, r x y → ∀ a ∈ key x, ∀ b ∈ key y, a ≤ b) :
    (firsts key [] l).Pairwise fun x y => ∀ a ∈ key x, ∀ b ∈ key y, a < b := by
  have hpairwise : (firsts key [] l).Pairwise fun x y => key x ≠ key y := firsts_pairwise
  have hboth := (hsorted.sublist firsts_sublist).and hpairwise
  refine hboth.imp_of_mem fun {x y} hx hy h a ha b hb => ?_
  have hle := hmono x (key_of_mem_firsts hx).1 y (key_of_mem_firsts hy).1 h.1 a ha b hb
  refine lt_of_le_of_ne hle fun heq => h.2 ?_
  rw [ha, hb, heq]

theorem card_later (hsorted : l.Pairwise r)
    (hmono : ∀ x ∈ l, ∀ y ∈ l, r x y → ∀ a ∈ key x, ∀ b ∈ key y, a ≤ b) {before after : List α}
    {x : α} {k : K} (h : firsts key [] l = before ++ x :: after) (hk : key x = some k) :
    (later key l k).card = after.length := by
  have hincreasing := firsts_increasing hsorted hmono
  rw [h, List.pairwise_append, List.pairwise_cons] at hincreasing
  obtain ⟨-, ⟨hafter, hlast⟩, hbefore⟩ := hincreasing
  have hsome (y : α) (hy : y ∈ after) : ∃ j, key y = some j := by
    have hmem : y ∈ firsts key [] l := by simp [h, hy]
    obtain ⟨-, j, hj, -⟩ := key_of_mem_firsts hmem
    exact ⟨j, hj⟩
  have hlen : (after.filterMap key).length = after.length := by
    rw [List.length_filterMap_eq_countP, List.countP_eq_length]
    intro y hy
    obtain ⟨j, hj⟩ := hsome y hy
    rw [hj]
    rfl
  have hnodup : (after.filterMap key).Nodup := by
    refine (hlast.filterMap key ?_).imp fun {a b} hlt => ne_of_lt hlt
    exact fun x y hxy a ha b hb => hxy a ha b hb
  have hset : later key l k = (after.filterMap key).toFinset := by
    ext j
    simp only [later, Finset.mem_filter, List.mem_toFinset, List.mem_filterMap]
    constructor
    · rintro ⟨⟨y, hy, hyj⟩, hlt⟩
      obtain ⟨z, hz, hzj⟩ := exists_mem_firsts hy hyj (List.not_mem_nil)
      rw [h, List.mem_append, List.mem_cons] at hz
      rcases hz with hz | rfl | hz
      · exact absurd (hbefore z hz x List.mem_cons_self j hzj k hk) (not_lt_of_gt hlt)
      · rw [hk, Option.some.injEq] at hzj
        exact absurd hlt (hzj ▸ lt_irrefl k)
      · exact ⟨z, hz, hzj⟩
    · rintro ⟨y, hy, hyj⟩
      refine ⟨⟨y, ?_, hyj⟩, hafter y hy k hk j hyj⟩
      have hmem : y ∈ firsts key [] l := by simp [h, hy]
      exact (key_of_mem_firsts hmem).1
  rw [hset, List.toFinset_card_of_nodup hnodup, hlen]

/-- The elements kept for the newest `n` periods: the oldest of a period with fewer than `n` later
ones. -/
theorem mem_newest_periods (hrefl : ∀ x, r x x) (hanti : ∀ x y, r x y → r y x → x = y)
    (hsorted : l.Pairwise r)
    (hmono : ∀ x ∈ l, ∀ y ∈ l, r x y → ∀ a ∈ key x, ∀ b ∈ key y, a ≤ b) {n : ℕ} {x : α} :
    x ∈ (firsts key [] l).reverse.take n ↔ x ∈ l ∧ ∃ k, key x = some k ∧
      (∀ y ∈ l, key y = some k → r x y) ∧ (later key l k).card < n := by
  rw [mem_take_reverse]
  constructor
  · rintro ⟨before, after, heq, hlen⟩
    have hx : x ∈ firsts key [] l := by simp [heq]
    obtain ⟨hmem, k, hk, -⟩ := key_of_mem_firsts hx
    refine ⟨hmem, k, hk, fun y hy hyk => ?_, ?_⟩
    · exact firsts_oldest hrefl hsorted hx hy (hyk.trans hk.symm)
    · rwa [card_later hsorted hmono heq hk]
  · rintro ⟨hmem, k, hk, holdest, hlen⟩
    obtain ⟨z, hz, hzk⟩ := exists_mem_firsts hmem hk (List.not_mem_nil)
    have hzx : r z x := firsts_oldest hrefl hsorted hz hmem (hk.trans hzk.symm)
    obtain rfl : z = x := hanti z x hzx (holdest z (key_of_mem_firsts hz).1 hzk)
    obtain ⟨before, after, heq⟩ := List.append_of_mem hz
    rw [card_later hsorted hmono heq hk] at hlen
    exact ⟨before, after, heq, hlen⟩

end

end Synora.Periods
