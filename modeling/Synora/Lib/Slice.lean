import Synora.Lib.Utf8

namespace Synora.Strings
open Utf8

/-! Slices of a string by byte offsets, as Rust takes them: `none` is the panic at an offset that
is out of bounds or inside a character. -/

/-- `str::len` -/
def byteLen (t : Text) : ℕ := (encode t).length

@[simp] theorem byteLen_nil : byteLen [] = 0 := rfl

@[simp] theorem byteLen_cons (c : Char) (t : Text) : byteLen (c :: t) = c.utf8Size + byteLen t := by
  rw [byteLen, encode_cons, List.length_append, String.length_utf8EncodeChar]
  rfl

@[simp] theorem byteLen_append (t u : Text) : byteLen (t ++ u) = byteLen t + byteLen u := by
  rw [byteLen, encode_append, List.length_append]
  rfl

/-- The string before and after a byte offset. -/
def splitAtByte : Text → ℕ → Option (Text × Text)
  | t, 0 => some ([], t)
  | [], _ + 1 => none
  | c :: cs, k + 1 =>
    if k + 1 < c.utf8Size then none
    else (splitAtByte cs (k + 1 - c.utf8Size)).map fun p => (c :: p.1, p.2)

/-- A cut succeeds exactly between two characters. -/
theorem splitAtByte_eq_some {t a b : Text} {k : ℕ} :
    splitAtByte t k = some (a, b) ↔ t = a ++ b ∧ byteLen a = k := by
  induction t, k using splitAtByte.induct generalizing a with
  | case1 t =>
    rw [splitAtByte]
    constructor
    · intro h
      cases h
      exact ⟨rfl, rfl⟩
    · rintro ⟨rfl, hlen⟩
      cases a with
      | nil => rfl
      | cons c a =>
        have := c.utf8Size_pos
        rw [byteLen_cons] at hlen
        omega
  | case2 k =>
    simp only [splitAtByte, reduceCtorEq, false_iff, not_and]
    intro h
    rw [List.nil_eq, List.append_eq_nil_iff] at h
    rw [h.1, byteLen_nil]
    omega
  | case3 c cs k hlt =>
    simp only [splitAtByte, hlt, ↓reduceIte, reduceCtorEq, false_iff, not_and]
    intro h hlen
    cases a with
    | nil => simp at hlen
    | cons d a =>
      rw [List.cons_append, List.cons.injEq] at h
      rw [byteLen_cons, ← h.1] at hlen
      omega
  | case4 c cs k hge ih =>
    simp only [splitAtByte, hge, ↓reduceIte, Option.map_eq_some_iff, Prod.mk.injEq, Prod.exists]
    constructor
    · rintro ⟨a', b', hsplit, rfl, rfl⟩
      obtain ⟨rfl, hlen⟩ := ih.mp hsplit
      exact ⟨rfl, by rw [byteLen_cons]; omega⟩
    · rintro ⟨h, hlen⟩
      cases a with
      | nil => simp at hlen
      | cons d a =>
        rw [List.cons_append, List.cons.injEq] at h
        obtain ⟨rfl, rfl⟩ := h
        rw [byteLen_cons] at hlen
        exact ⟨a, b, ih.mpr ⟨rfl, by omega⟩, rfl, rfl⟩

/-- `&t[k..]` -/
def sliceFrom (t : Text) (k : ℕ) : Option Text := (splitAtByte t k).map Prod.snd

/-- `&t[..k]` -/
def sliceTo (t : Text) (k : ℕ) : Option Text := (splitAtByte t k).map Prod.fst

/-- `&t[i..j]` -/
def slice (t : Text) (i j : ℕ) : Option Text :=
  if i ≤ j then (sliceTo t j).bind fun u => sliceFrom u i else none

/-- `str::find`: the byte offset of the first occurrence. -/
def find (pat t : Text) : Option ℕ := (splitOnce pat t).map fun p => byteLen p.1

theorem sliceTo_append (a b : Text) : sliceTo (a ++ b) (byteLen a) = some a := by
  rw [sliceTo, splitAtByte_eq_some.mpr ⟨rfl, rfl⟩]
  rfl

theorem sliceFrom_append (a b : Text) : sliceFrom (a ++ b) (byteLen a) = some b := by
  rw [sliceFrom, splitAtByte_eq_some.mpr ⟨rfl, rfl⟩]
  rfl

theorem slice_append (a b c : Text) :
    slice (a ++ (b ++ c)) (byteLen a) (byteLen a + byteLen b) = some b := by
  have hlen : byteLen a + byteLen b = byteLen (a ++ b) := (byteLen_append a b).symm
  rw [slice, if_pos (Nat.le_add_right _ _), ← List.append_assoc, hlen, sliceTo_append,
    Option.bind_some, sliceFrom_append]

theorem sliceTo_isSome_iff {t : Text} {k : ℕ} :
    (sliceTo t k).isSome = true ↔ ∃ a b, t = a ++ b ∧ byteLen a = k := by
  rw [sliceTo, Option.isSome_map, Option.isSome_iff_exists]
  simp only [Prod.exists, splitAtByte_eq_some]

/-- The slices that a search leads to. -/
theorem slices_of_splitOnce {pat t a b : Text} (h : splitOnce pat t = some (a, b)) :
    sliceTo t (byteLen a) = some a ∧ sliceFrom t (byteLen a + byteLen pat) = some b := by
  rw [splitOnce_eq_append h]
  refine ⟨sliceTo_append _ _, ?_⟩
  rw [← List.append_assoc, ← byteLen_append, sliceFrom_append]

/-! ## Bytes of characters -/

theorem utf8EncodeChar_high {c : Char} {b : UInt8} (hb : b ∈ String.utf8EncodeChar c)
    (h : b < 0x80) : String.utf8EncodeChar c = [b] := by
  have hhigh {n : ℕ} (hn : 0x80 ≤ n) (hlt : n < 256) : ¬UInt8.ofNat n < 0x80 := by
    rw [UInt8.lt_iff_toNat_lt, toNat_byte hlt]
    exact Nat.not_lt.mpr hn
  unfold String.utf8EncodeChar at hb ⊢
  simp only at hb ⊢
  split_ifs at hb ⊢ with h1 h2 h3
  · rw [List.mem_singleton.mp hb]
  · simp only [List.mem_cons, List.not_mem_nil, or_false] at hb
    rcases hb with rfl | rfl <;> exact absurd h (hhigh (by omega) (by omega))
  · simp only [List.mem_cons, List.not_mem_nil, or_false] at hb
    rcases hb with rfl | rfl | rfl <;> exact absurd h (hhigh (by omega) (by omega))
  · simp only [List.mem_cons, List.not_mem_nil, or_false] at hb
    rcases hb with rfl | rfl | rfl | rfl <;> exact absurd h (hhigh (by omega) (by omega))

/-- A byte below 0x80 is a character of its own. -/
theorem exists_char_of_ascii {t : Text} {k : ℕ} {b : UInt8} (h : (encode t)[k]? = some b)
    (hb : b < 0x80) : ∃ u c v, t = u ++ c :: v ∧ byteLen u = k ∧ String.utf8EncodeChar c = [b] := by
  induction t generalizing k with
  | nil => simp at h
  | cons c t ih =>
    rw [encode_cons] at h
    rcases lt_or_ge k (String.utf8EncodeChar c).length with hlt | hge
    · rw [List.getElem?_append_left hlt] at h
      have hc := utf8EncodeChar_high (List.mem_of_getElem? h) hb
      refine ⟨[], c, t, rfl, ?_, hc⟩
      rw [hc, List.length_singleton] at hlt
      rw [byteLen_nil]
      omega
    · rw [List.getElem?_append_right hge] at h
      obtain ⟨u, d, v, rfl, hlen, hd⟩ := ih h
      refine ⟨c :: u, d, v, rfl, ?_, hd⟩
      rw [String.length_utf8EncodeChar] at hge hlen
      rw [byteLen_cons]
      omega

end Synora.Strings
