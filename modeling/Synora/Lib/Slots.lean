import Mathlib.Data.List.Nodup
import Mathlib.Data.List.Perm.Basic
import Mathlib.Tactic.Common

/-! Concurrent tasks in a list: one of them moves (`set`) or leaves (`eraseIdx`). -/

namespace Synora.Slots

variable {T K : Type*} {slots : List T} {i : ℕ} {x y z : T}

theorem forall_mem_set {P : T → Prop} (h : ∀ x ∈ slots, P x) (hy : P y) :
    ∀ x ∈ slots.set i y, P x := by
  intro x hx
  rcases List.mem_or_eq_of_mem_set hx with hx | rfl
  · exact h x hx
  · exact hy

/-- The others stay when a task moves. -/
theorem mem_set_of_ne (z : T) (hx : x ∈ slots) (hy : slots[i]? = some y) (hne : x ≠ y) :
    x ∈ slots.set i z := by
  obtain ⟨j, hj, rfl⟩ := List.getElem_of_mem hx
  have hij : i ≠ j := by
    rintro rfl
    rw [List.getElem?_eq_getElem hj] at hy
    exact hne (Option.some.inj hy)
  rw [List.mem_iff_getElem?]
  exact ⟨j, by rw [List.getElem?_set_ne hij, List.getElem?_eq_getElem hj]⟩

theorem mem_set_self (hy : slots[i]? = some y) (z : T) : z ∈ slots.set i z := by
  have hlt := (List.getElem?_eq_some_iff.mp hy).1
  exact List.mem_of_getElem? (List.getElem?_set_self hlt)

/-- The others stay when a task leaves. -/
theorem eq_or_mem_eraseIdx (hy : slots[i]? = some y) (hx : x ∈ slots) :
    x = y ∨ x ∈ slots.eraseIdx i := by
  obtain ⟨j, hj, rfl⟩ := List.getElem_of_mem hx
  by_cases hij : j = i
  · subst hij
    left
    rw [List.getElem?_eq_getElem hj] at hy
    exact Option.some.inj hy
  · right
    exact List.mem_eraseIdx_iff_getElem.mpr ⟨j, hj, hij, rfl⟩

/-- Counting over the tasks after one of them has moved. -/
theorem countP_set_add {p : T → Bool} (y : T) (h : slots[i]? = some x) :
    (slots.set i y).countP p + (if p x then 1 else 0) =
      slots.countP p + (if p y then 1 else 0) := by
  obtain ⟨hi, hx⟩ := List.getElem?_eq_some_iff.mp h
  rw [List.countP_set hi, hx]
  have hpos : (if p x then 1 else 0) ≤ slots.countP p := by
    split
    · rename_i hp
      exact List.countP_pos_iff.mpr ⟨x, List.mem_of_getElem? h, hp⟩
    · omega
  omega

/-- What stands on either side of a task that moves or leaves. -/
theorem exists_split (h : slots[i]? = some x) :
    ∃ pre post, slots = pre ++ x :: post ∧ (∀ y, slots.set i y = pre ++ y :: post) ∧
      slots.eraseIdx i = pre ++ post := by
  obtain ⟨hi, rfl⟩ := List.getElem?_eq_some_iff.mp h
  refine ⟨slots.take i, slots.drop (i + 1), ?_, fun y => ?_, ?_⟩
  · rw [← List.drop_eq_getElem_cons hi, List.take_append_drop]
  · exact List.set_eq_take_append_cons_drop.trans (if_pos hi)
  · exact List.eraseIdx_eq_take_drop_succ slots i

/-- Two tasks that meet a condition count twice. -/
theorem two_le_countP {p : T → Bool} (hx : slots[i]? = some x) (hpx : p x)
    (hy : y ∈ slots.eraseIdx i) (hpy : p y) : 2 ≤ slots.countP p := by
  obtain ⟨hi, rfl⟩ := List.getElem?_eq_some_iff.mp hx
  have hperm : (slots[i] :: slots.eraseIdx i).countP p = slots.countP p :=
    (List.getElem_cons_eraseIdx_perm hi).countP_eq p
  have hpos : 0 < (slots.eraseIdx i).countP p := List.countP_pos_iff.mpr ⟨y, hy, hpy⟩
  rw [List.countP_cons_of_pos hpx] at hperm
  omega

/-! ## Tasks with a key -/

variable {key : T → K}

theorem map_set_of_eq (hx : slots[i]? = some x) (hkey : key y = key x) :
    (slots.set i y).map key = slots.map key := by
  have hget : (slots.map key)[i]? = some (key x) := by simp [hx]
  obtain ⟨hlt, hget⟩ := List.getElem?_eq_some_iff.mp hget
  rw [List.map_set, hkey, ← hget]
  exact List.set_getElem_self hlt

/-- The task that leaves is the only one with its key. -/
theorem key_ne_of_mem_eraseIdx (hn : (slots.map key).Nodup) (hx : slots[i]? = some x)
    (hy : y ∈ slots.eraseIdx i) : key y ≠ key x := by
  intro heq
  obtain ⟨j, hne, hj⟩ := List.mem_eraseIdx_iff_getElem?.mp hy
  have hlt : j < (slots.map key).length := by
    rw [List.length_map]
    exact (List.getElem?_eq_some_iff.mp hj).1
  exact hne ((List.getElem?_inj hlt hn).mp (by simp [hx, hj, heq]))

end Synora.Slots
