import Mathlib.Data.List.Nodup
import Mathlib.Tactic.Common

namespace Synora.Table

variable {R K : Type*}

/-- `UPDATE … SET f WHERE p`. -/
def update (p : R → Bool) (f : R → R) (rows : List R) : List R :=
  rows.map fun r => if p r then f r else r

/-- The row count an `UPDATE` reports. -/
def matched (p : R → Bool) (rows : List R) : ℕ := rows.countP p

/-- The row with a given key. -/
def lookup [DecidableEq K] (key : R → K) (k : K) (rows : List R) : Option R :=
  rows.find? fun r => decide (key r = k)

/-- `INSERT … ON CONFLICT(key) DO UPDATE SET f`. -/
def upsert [DecidableEq K] (key : R → K) (r : R) (f : R → R) (rows : List R) : List R :=
  if (lookup key (key r) rows).isSome then update (fun x => decide (key x = key r)) f rows
  else rows ++ [r]

theorem mem_update {p : R → Bool} {f : R → R} {rows : List R} {r' : R} :
    r' ∈ update p f rows ↔ ∃ r ∈ rows, (if p r then f r else r) = r' := List.mem_map

theorem map_key_update {p : R → Bool} {f : R → R} {key : R → K} (rows : List R)
    (hf : ∀ r, key (f r) = key r) : (update p f rows).map key = rows.map key := by
  simp only [update, List.map_map]
  apply List.map_congr_left
  intro r _
  by_cases hp : p r <;> simp [hp, hf]

theorem matched_pos {p : R → Bool} {rows : List R} :
    0 < matched p rows ↔ ∃ r ∈ rows, p r := by
  simp [matched, List.countP_pos_iff]

theorem update_of_matched_eq_zero {p : R → Bool} (f : R → R) {rows : List R}
    (h : matched p rows = 0) : update p f rows = rows := by
  rw [matched, List.countP_eq_zero] at h
  rw [update]
  conv_rhs => rw [← List.map_id rows]
  apply List.map_congr_left
  intro r hr
  simp [h r hr]

theorem update_eq_self_iff {p : R → Bool} {f : R → R} {rows : List R} :
    update p f rows = rows ↔ ∀ x ∈ rows, p x → f x = x := by
  have hid : update p f rows = rows ↔ ∀ x ∈ rows, (if p x then f x else x) = x := by
    conv_lhs => rw [update, ← List.map_id rows, List.map_map]
    rw [List.map_inj_left]
    rfl
  rw [hid]
  refine forall₂_congr fun x _ => ?_
  by_cases hp : p x <;> simp [hp]

/-- A selection that an update stays out of does not see it. -/
theorem filter_update_of_disjoint {p q : R → Bool} {f : R → R} (rows : List R)
    (hq : ∀ r, p r → q r = false) (hf : ∀ r, p r → q (f r) = false) :
    (update p f rows).filter q = rows.filter q := by
  induction rows with
  | nil => rfl
  | cons r rows ih =>
    have hcons : update p f (r :: rows) = (if p r then f r else r) :: update p f rows := rfl
    rw [hcons, List.filter_cons, List.filter_cons, ih]
    by_cases hp : p r
    · simp [hp, hq r hp, hf r hp]
    · simp [hp]

/-- A selection that an update respects commutes with it. -/
theorem filter_update_of_invariant {p q : R → Bool} {f : R → R} (rows : List R)
    (hf : ∀ r, q (f r) = q r) : (update p f rows).filter q = update p f (rows.filter q) := by
  induction rows with
  | nil => rfl
  | cons r rows ih =>
    have hcons : update p f (r :: rows) = (if p r then f r else r) :: update p f rows := rfl
    have hr : q (if p r then f r else r) = q r := by split <;> simp [hf]
    rw [hcons, List.filter_cons, List.filter_cons, ih, hr]
    split <;> rfl

section Lookup

variable [DecidableEq K] {key : R → K} {k : K}

theorem lookup_eq_some_mem {rows : List R} {r : R} (h : lookup key k rows = some r) :
    r ∈ rows ∧ key r = k := by
  have hm := List.mem_of_find?_eq_some h
  have hk := List.find?_some h
  exact ⟨hm, by simpa using hk⟩

theorem lookup_of_mem {rows : List R} (hn : (rows.map key).Nodup) {r : R} (hr : r ∈ rows) :
    lookup key (key r) rows = some r := by
  obtain ⟨r', hr'⟩ : ∃ r', lookup key (key r) rows = some r' := by
    rw [← Option.isSome_iff_exists, lookup, List.find?_isSome]
    exact ⟨r, hr, by simp⟩
  obtain ⟨hm, hk⟩ := lookup_eq_some_mem hr'
  rw [hr', List.inj_on_of_nodup_map hn hm hr hk]

/-- An update that keeps the key acts on a looked-up row in place. -/
theorem lookup_update {p : R → Bool} {f : R → R} (rows : List R)
    (hf : ∀ r, key (f r) = key r) :
    lookup key k (update p f rows) =
      (lookup key k rows).map fun r => if p r then f r else r := by
  induction rows with
  | nil => rfl
  | cons r rows ih =>
    have hk : key (if p r then f r else r) = key r := by split <;> simp [hf]
    simp only [lookup, update, List.map_cons, List.find?_cons, hk] at ih ⊢
    by_cases h : key r = k
    · simp [h]
    · simpa [h] using ih

/-- The same for an update of one key. -/
theorem lookup_update_key {f : R → R} (rows : List R) (hf : ∀ r, key (f r) = key r) (k' : K) :
    lookup key k (update (fun x => decide (key x = k')) f rows) =
      if k = k' then (lookup key k rows).map f else lookup key k rows := by
  rw [lookup_update rows hf]
  cases h : lookup key k rows with
  | none => simp
  | some r =>
    have hk := (lookup_eq_some_mem h).2
    by_cases hkk : k = k' <;> simp [hk, hkk]

theorem lookup_append (rows rows' : List R) :
    lookup key k (rows ++ rows') = (lookup key k rows).or (lookup key k rows') := by
  simp [lookup, List.find?_append]

/-- An appended row is found only where no earlier row has its key. -/
theorem lookup_concat (key : R → K) (k : K) (rows : List R) (r : R) :
    lookup key k (rows ++ [r]) = lookup key k rows ∨
      (lookup key k rows = none ∧ key r = k ∧ lookup key k (rows ++ [r]) = some r) := by
  rw [lookup_append]
  cases h : lookup key k rows with
  | some r' => exact Or.inl rfl
  | none =>
    by_cases hk : key r = k
    · exact Or.inr ⟨rfl, hk, by simp [lookup, hk]⟩
    · exact Or.inl (by simp [lookup, hk])

theorem lookup_filter {p : R → Bool} (rows : List R) {r : R}
    (h : lookup key k rows = some r) (hp : p r) (hn : (rows.map key).Nodup) :
    lookup key k (rows.filter p) = some r := by
  obtain ⟨hm, rfl⟩ := lookup_eq_some_mem h
  exact lookup_of_mem (hn.sublist (List.filter_sublist.map key))
    (List.mem_filter.mpr ⟨hm, hp⟩)

theorem filter_delete_of_ne {k' : K} (hk : k ≠ k') (rows : List R) :
    (rows.filter fun x => decide (key x ≠ k')).filter (fun x => decide (key x = k)) =
      rows.filter fun x => decide (key x = k) := by
  rw [List.filter_filter]
  refine List.filter_congr fun x _ => ?_
  by_cases hx : key x = k
  · simp [hx, hk]
  · simp [hx]

theorem filter_delete_self (rows : List R) :
    (rows.filter fun x => decide (key x ≠ k)).filter (fun x => decide (key x = k)) = [] := by
  rw [List.filter_filter, List.filter_eq_nil_iff]
  intro x _
  simp

/-- What a deleted key leaves behind. -/
theorem lookup_delete (rows : List R) (k' : K) :
    lookup key k (rows.filter fun r => decide (key r ≠ k')) =
      if k = k' then none else lookup key k rows := by
  induction rows with
  | nil => simp [lookup]
  | cons r rows ih =>
    simp only [lookup, List.filter_cons, List.find?_cons] at ih ⊢
    by_cases hr : key r = k' <;> by_cases hk : key r = k <;> by_cases hkk : k = k' <;>
      simp_all

theorem lookup_upsert_self {r : R} {f : R → R} (rows : List R) (hf : ∀ x, key (f x) = key x) :
    lookup key (key r) (upsert key r f rows) =
      some (((lookup key (key r) rows).map f).getD r) := by
  rw [upsert]
  cases h : lookup key (key r) rows with
  | none =>
    have hr : lookup key (key r) [r] = some r := by simp [lookup]
    simp [lookup_append, h, hr]
  | some x =>
    simp [lookup_update_key rows hf, h]

theorem lookup_upsert_of_ne {r : R} {f : R → R} (rows : List R) (hf : ∀ x, key (f x) = key x)
    (hk : k ≠ key r) : lookup key k (upsert key r f rows) = lookup key k rows := by
  rw [upsert]
  split
  · rw [lookup_update_key rows hf, if_neg hk]
  · have hr : lookup key k [r] = none := by simp [lookup, Ne.symm hk]
    simp [lookup_append, hr]

end Lookup

/-- A unique index over the rows that satisfy `p`. -/
def UniqueWhere (p : R → Bool) (key : R → K) (rows : List R) : Prop :=
  ((rows.filter p).map key).Nodup

instance [DecidableEq K] (p : R → Bool) (key : R → K) (rows : List R) :
    Decidable (UniqueWhere p key rows) := inferInstanceAs (Decidable (List.Nodup _))

/-- Two indexed rows with one key are one row. -/
theorem UniqueWhere.eq {p : R → Bool} {key : R → K} {rows : List R}
    (h : UniqueWhere p key rows) {r r' : R} (hr : r ∈ rows) (hr' : r' ∈ rows)
    (hp : p r) (hp' : p r') (hk : key r = key r') : r = r' :=
  List.inj_on_of_nodup_map h (List.mem_filter.mpr ⟨hr, hp⟩) (List.mem_filter.mpr ⟨hr', hp'⟩) hk

/-- Rewritten rows that keep their keys, and enter the index only from inside it, cannot clash. -/
theorem UniqueWhere.update {p g : R → Bool} {f : R → R} {key : R → K} {rows : List R}
    (h : UniqueWhere p key rows) (hkey : ∀ r, key (f r) = key r) (hp : ∀ r, g r → p (f r) → p r) :
    UniqueWhere p key (update g f rows) := by
  refine h.sublist ?_
  clear h
  induction rows with
  | nil => exact List.Sublist.refl _
  | cons r rows ih =>
    have hcons : Table.update g f (r :: rows) = (if g r then f r else r) :: Table.update g f rows :=
      rfl
    have hk : key (if g r then f r else r) = key r := by split <;> simp [hkey]
    have hin : p (if g r then f r else r) → p r := by
      split
      · exact hp r ‹_›
      · exact fun h => h
    rw [hcons]
    by_cases hr : p (if g r then f r else r)
    · rw [List.filter_cons_of_pos hr, List.filter_cons_of_pos (hin hr), List.map_cons, hk]
      exact ih.cons_cons (key r)
    · rw [List.filter_cons_of_neg hr]
      exact ih.trans ((List.sublist_cons_self r rows).filter p |>.map key)

theorem UniqueWhere.length_le_one [DecidableEq K] {p : R → Bool} {key : R → K} {rows : List R}
    (h : UniqueWhere p key rows) (k : K) :
    (rows.filter fun r => decide (key r = k) && p r).length ≤ 1 := by
  have hc := List.nodup_iff_count_le_one.mp h k
  rw [List.count, List.countP_map, List.countP_filter, List.countP_eq_length_filter] at hc
  refine le_of_eq_of_le (congrArg List.length (List.filter_congr ?_)) hc
  intro r _
  simp [Bool.beq_eq_decide_eq]

end Synora.Table
