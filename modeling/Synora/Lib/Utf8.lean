import Synora.Lib.Text

namespace Synora.Utf8
open Strings

abbrev Bytes := List UInt8

/-- U+FFFD, which stands for each maximal broken sequence. -/
def replacement : Char := Char.ofNat 0xfffd

def isContinuation (b : UInt8) : Bool := decide (0x80 ≤ b ∧ b ≤ 0xbf)

/-- The second bytes a three-byte sequence may have. -/
def second3 (b b₁ : UInt8) : Bool := decide
  ((b = 0xe0 ∧ 0xa0 ≤ b₁ ∧ b₁ ≤ 0xbf) ∨ (0xe1 ≤ b ∧ b ≤ 0xec ∧ 0x80 ≤ b₁ ∧ b₁ ≤ 0xbf) ∨
    (b = 0xed ∧ 0x80 ≤ b₁ ∧ b₁ ≤ 0x9f) ∨ (0xee ≤ b ∧ b ≤ 0xef ∧ 0x80 ≤ b₁ ∧ b₁ ≤ 0xbf))

/-- The second bytes a four-byte sequence may have. -/
def second4 (b b₁ : UInt8) : Bool := decide
  ((b = 0xf0 ∧ 0x90 ≤ b₁ ∧ b₁ ≤ 0xbf) ∨ (0xf1 ≤ b ∧ b ≤ 0xf3 ∧ 0x80 ≤ b₁ ∧ b₁ ≤ 0xbf) ∨
    (b = 0xf4 ∧ 0x80 ≤ b₁ ∧ b₁ ≤ 0x8f))

/-- The payload bits of a continuation byte. -/
def low6 (b : UInt8) : ℕ := b.toNat % 64

/-- `String::from_utf8_lossy` -/
def fromUtf8Lossy : Bytes → Text
  | [] => []
  | b :: rest =>
    if b < 0x80 then Char.ofNat b.toNat :: fromUtf8Lossy rest
    else if 0xc2 ≤ b ∧ b ≤ 0xdf then
      match rest with
      | [] => [replacement]
      | b₁ :: rest₁ =>
        if isContinuation b₁ then
          Char.ofNat (b.toNat % 32 * 64 + low6 b₁) :: fromUtf8Lossy rest₁
        else replacement :: fromUtf8Lossy (b₁ :: rest₁)
    else if 0xe0 ≤ b ∧ b ≤ 0xef then
      match rest with
      | [] => [replacement]
      | b₁ :: rest₁ =>
        if second3 b b₁ then
          match rest₁ with
          | [] => [replacement]
          | b₂ :: rest₂ =>
            if isContinuation b₂ then
              Char.ofNat (b.toNat % 16 * 4096 + low6 b₁ * 64 + low6 b₂) :: fromUtf8Lossy rest₂
            else replacement :: fromUtf8Lossy (b₂ :: rest₂)
        else replacement :: fromUtf8Lossy (b₁ :: rest₁)
    else if 0xf0 ≤ b ∧ b ≤ 0xf4 then
      match rest with
      | [] => [replacement]
      | b₁ :: rest₁ =>
        if second4 b b₁ then
          match rest₁ with
          | [] => [replacement]
          | b₂ :: rest₂ =>
            if isContinuation b₂ then
              match rest₂ with
              | [] => [replacement]
              | b₃ :: rest₃ =>
                if isContinuation b₃ then
                  Char.ofNat (b.toNat % 8 * 262144 + low6 b₁ * 4096 + low6 b₂ * 64 + low6 b₃) ::
                    fromUtf8Lossy rest₃
                else replacement :: fromUtf8Lossy (b₃ :: rest₃)
            else replacement :: fromUtf8Lossy (b₂ :: rest₂)
        else replacement :: fromUtf8Lossy (b₁ :: rest₁)
    else replacement :: fromUtf8Lossy rest

/-- `str::as_bytes` -/
def encode (t : Text) : Bytes := t.flatMap String.utf8EncodeChar

/-- `str::from_utf8`: the bytes are the encoding of what they decode to. -/
def fromUtf8 (bytes : Bytes) : Option Text :=
  if encode (fromUtf8Lossy bytes) = bytes then some (fromUtf8Lossy bytes) else none

@[simp] theorem encode_nil : encode [] = [] := rfl

theorem encode_cons (c : Char) (t : Text) :
    encode (c :: t) = String.utf8EncodeChar c ++ encode t := List.flatMap_cons

theorem encode_append (t u : Text) : encode (t ++ u) = encode t ++ encode u :=
  List.flatMap_append

theorem encode_ascii {t : Text} (h : ∀ c ∈ t, c.toNat < 0x80) :
    encode t = t.map fun c => UInt8.ofNat c.toNat := by
  induction t with
  | nil => rfl
  | cons c t ih =>
    obtain ⟨hc, ht⟩ := List.forall_mem_cons.mp h
    have hle : c.val.toNat ≤ 0x7f := by
      have hval : c.val.toNat = c.toNat := rfl
      omega
    rw [encode_cons, ih ht, List.map_cons, String.utf8EncodeChar]
    exact congrArg (· ++ _) (if_pos hle)

/-- The byte of a number below 256. -/
theorem toNat_byte {n : ℕ} (h : n < 256) : (UInt8.ofNat n).toNat = n := by
  exact UInt8.toNat_ofNat_of_lt' h

theorem isContinuation_byte {n : ℕ} (h : n < 64) :
    isContinuation (UInt8.ofNat (n + 0x80)) = true := by
  have hn := toNat_byte (n := n + 0x80) (by omega)
  simp only [isContinuation, decide_eq_true_eq, UInt8.le_iff_toNat_le, hn]
  exact ⟨by simp, by simp; omega⟩

theorem low6_byte {n : ℕ} (h : n < 64) : low6 (UInt8.ofNat (n + 0x80)) = n := by
  rw [low6, toNat_byte (by omega)]
  omega

/-- Decoding takes one encoded character off. -/
theorem fromUtf8Lossy_utf8EncodeChar (c : Char) (bytes : Bytes) :
    fromUtf8Lossy (String.utf8EncodeChar c ++ bytes) = c :: fromUtf8Lossy bytes := by
  have hvalid : c.val.toNat < 0xd800 ∨ (0xdfff < c.val.toNat ∧ c.val.toNat < 0x110000) := c.valid
  have hc : Char.ofNat c.val.toNat = c := Char.ofNat_toNat c
  unfold String.utf8EncodeChar
  generalize c.val.toNat = v at *
  simp only
  split_ifs with h1 h2 h3
  · have hb := toNat_byte (n := v) (by omega)
    generalize UInt8.ofNat v = b at *
    have hlt : b < 0x80 := by
      rw [UInt8.lt_iff_toNat_lt, hb]
      exact Nat.lt_succ_of_le h1
    rw [List.cons_append, List.nil_append, fromUtf8Lossy.eq_def]
    simp only [hlt, ↓reduceIte, hb, hc]
  · have hb := toNat_byte (n := v / 64 % 0x20 + 0xc0) (by omega)
    have hcont := isContinuation_byte (n := v % 0x40) (by omega)
    have hlow := low6_byte (n := v % 0x40) (by omega)
    generalize UInt8.ofNat (v / 64 % 0x20 + 0xc0) = b at *
    generalize UInt8.ofNat (v % 0x40 + 0x80) = b1 at *
    have hlead : ¬b < 0x80 ∧ 0xc2 ≤ b ∧ b ≤ 0xdf := by
      simp only [UInt8.lt_iff_toNat_lt, UInt8.le_iff_toNat_le, hb, UInt8.reduceToNat]
      omega
    have hv : b.toNat % 32 * 64 + low6 b1 = v := by
      rw [hb, hlow]
      omega
    rw [List.cons_append, List.cons_append, List.nil_append, fromUtf8Lossy.eq_def]
    simp only [hlead, ↓reduceIte, and_self, hcont, hv, hc]
  · have hb := toNat_byte (n := v / 4096 % 0x10 + 0xe0) (by omega)
    have hb1 := toNat_byte (n := v / 64 % 0x40 + 0x80) (by omega)
    have hlow1 := low6_byte (n := v / 64 % 0x40) (by omega)
    have hcont := isContinuation_byte (n := v % 0x40) (by omega)
    have hlow := low6_byte (n := v % 0x40) (by omega)
    generalize UInt8.ofNat (v / 4096 % 0x10 + 0xe0) = b at *
    generalize UInt8.ofNat (v / 64 % 0x40 + 0x80) = b1 at *
    generalize UInt8.ofNat (v % 0x40 + 0x80) = b2 at *
    have hlead : ¬b < 0x80 ∧ ¬(0xc2 ≤ b ∧ b ≤ 0xdf) ∧ 0xe0 ≤ b ∧ b ≤ 0xef := by
      simp only [UInt8.lt_iff_toNat_lt, UInt8.le_iff_toNat_le, hb, UInt8.reduceToNat]
      omega
    -- no surrogate, and not below the range of three bytes
    have hsecond : second3 b b1 = true := by
      simp only [second3, decide_eq_true_eq, ← UInt8.toNat_inj, UInt8.le_iff_toNat_le, hb, hb1,
        UInt8.reduceToNat]
      omega
    have hv : b.toNat % 16 * 4096 + low6 b1 * 64 + low6 b2 = v := by
      rw [hb, hlow1, hlow]
      omega
    rw [List.cons_append, List.cons_append, List.cons_append, List.nil_append,
      fromUtf8Lossy.eq_def]
    simp only [hlead, ↓reduceIte, and_self, hsecond, hcont, hv, hc]
  · have hb := toNat_byte (n := v / 262144 % 0x08 + 0xf0) (by omega)
    have hb1 := toNat_byte (n := v / 4096 % 0x40 + 0x80) (by omega)
    have hlow1 := low6_byte (n := v / 4096 % 0x40) (by omega)
    have hcont2 := isContinuation_byte (n := v / 64 % 0x40) (by omega)
    have hlow2 := low6_byte (n := v / 64 % 0x40) (by omega)
    have hcont := isContinuation_byte (n := v % 0x40) (by omega)
    have hlow := low6_byte (n := v % 0x40) (by omega)
    generalize UInt8.ofNat (v / 262144 % 0x08 + 0xf0) = b at *
    generalize UInt8.ofNat (v / 4096 % 0x40 + 0x80) = b1 at *
    generalize UInt8.ofNat (v / 64 % 0x40 + 0x80) = b2 at *
    generalize UInt8.ofNat (v % 0x40 + 0x80) = b3 at *
    have hlead : ¬b < 0x80 ∧ ¬(0xc2 ≤ b ∧ b ≤ 0xdf) ∧ ¬(0xe0 ≤ b ∧ b ≤ 0xef) ∧ 0xf0 ≤ b ∧
        b ≤ 0xf4 := by
      simp only [UInt8.lt_iff_toNat_lt, UInt8.le_iff_toNat_le, hb, UInt8.reduceToNat]
      omega
    have hsecond : second4 b b1 = true := by
      simp only [second4, decide_eq_true_eq, ← UInt8.toNat_inj, UInt8.le_iff_toNat_le, hb, hb1,
        UInt8.reduceToNat]
      omega
    have hv : b.toNat % 8 * 262144 + low6 b1 * 4096 + low6 b2 * 64 + low6 b3 = v := by
      rw [hb, hlow1, hlow2, hlow]
      omega
    rw [List.cons_append, List.cons_append, List.cons_append, List.cons_append, List.nil_append,
      fromUtf8Lossy.eq_def]
    simp only [hlead, ↓reduceIte, and_self, hsecond, hcont2, hcont, hv, hc]

theorem fromUtf8Lossy_encode (t : Text) : fromUtf8Lossy (encode t) = t := by
  induction t with
  | nil => rfl
  | cons c t ih => rw [encode_cons, fromUtf8Lossy_utf8EncodeChar, ih]

/-! ## Bytes that are no text -/

theorem toNat_char {v : ℕ} (h : v < 0xd800 ∨ 0xdfff < v ∧ v < 0x110000) :
    (Char.ofNat v).val.toNat = v := by
  have hchar : Char.ofNat v = Char.ofNatAux v h := dif_pos h
  rw [hchar]
  rfl

theorem ofNat_eq_byte {n : ℕ} {b : UInt8} (h : n = b.toNat) : UInt8.ofNat n = b := by
  rw [h, UInt8.ofNat_toNat]

theorem toNat_of_isContinuation {b : UInt8} (h : isContinuation b = true) :
    b.toNat = low6 b + 0x80 := by
  simp only [isContinuation, decide_eq_true_eq, UInt8.le_iff_toNat_le, UInt8.reduceToNat] at h
  unfold low6
  omega

theorem low6_lt (b : UInt8) : low6 b < 64 := Nat.mod_lt _ (by decide)

theorem utf8EncodeChar_two {b b₁ : UInt8} (hb : 0xc2 ≤ b ∧ b ≤ 0xdf)
    (h₁ : isContinuation b₁ = true) :
    String.utf8EncodeChar (Char.ofNat (b.toNat % 32 * 64 + low6 b₁)) = [b, b₁] := by
  have h6 := low6_lt b₁
  have hc := toNat_of_isContinuation h₁
  simp only [UInt8.le_iff_toNat_le, UInt8.reduceToNat] at hb
  unfold String.utf8EncodeChar
  rw [toNat_char (by omega)]
  generalize low6 b₁ = l at *
  dsimp only
  rw [if_neg (by omega), if_pos (by omega), ofNat_eq_byte (b := b) (by omega),
    ofNat_eq_byte (b := b₁) (by omega)]

theorem utf8EncodeChar_three {b b₁ b₂ : UInt8} (hb : 0xe0 ≤ b ∧ b ≤ 0xef)
    (h₁ : second3 b b₁ = true) (h₂ : isContinuation b₂ = true) :
    String.utf8EncodeChar (Char.ofNat (b.toNat % 16 * 4096 + low6 b₁ * 64 + low6 b₂)) =
      [b, b₁, b₂] := by
  have h6 := low6_lt b₂
  have hc := toNat_of_isContinuation h₂
  simp only [second3, decide_eq_true_eq, ← UInt8.toNat_inj, UInt8.le_iff_toNat_le,
    UInt8.reduceToNat] at hb h₁
  have hl : low6 b₁ = b₁.toNat - 0x80 := by unfold low6; omega
  unfold String.utf8EncodeChar
  rw [hl, toNat_char (by omega)]
  generalize low6 b₂ = l at *
  dsimp only
  rw [if_neg (by omega), if_neg (by omega), if_pos (by omega), ofNat_eq_byte (b := b) (by omega),
    ofNat_eq_byte (b := b₁) (by omega), ofNat_eq_byte (b := b₂) (by omega)]

theorem utf8EncodeChar_four {b b₁ b₂ b₃ : UInt8} (hb : 0xf0 ≤ b ∧ b ≤ 0xf4)
    (h₁ : second4 b b₁ = true) (h₂ : isContinuation b₂ = true) (h₃ : isContinuation b₃ = true) :
    String.utf8EncodeChar (Char.ofNat
      (b.toNat % 8 * 262144 + low6 b₁ * 4096 + low6 b₂ * 64 + low6 b₃)) = [b, b₁, b₂, b₃] := by
  have h6 := low6_lt b₂
  have h6' := low6_lt b₃
  have hc := toNat_of_isContinuation h₂
  have hc' := toNat_of_isContinuation h₃
  simp only [second4, decide_eq_true_eq, ← UInt8.toNat_inj, UInt8.le_iff_toNat_le,
    UInt8.reduceToNat] at hb h₁
  have hl : low6 b₁ = b₁.toNat - 0x80 := by unfold low6; omega
  unfold String.utf8EncodeChar
  rw [hl, toNat_char (by omega)]
  generalize low6 b₂ = l at *
  generalize low6 b₃ = l' at *
  dsimp only
  rw [if_neg (by omega), if_neg (by omega), if_neg (by omega), ofNat_eq_byte (b := b) (by omega),
    ofNat_eq_byte (b := b₁) (by omega), ofNat_eq_byte (b := b₂) (by omega),
    ofNat_eq_byte (b := b₃) (by omega)]

theorem utf8EncodeChar_one {b : UInt8} (hb : b < 0x80) :
    String.utf8EncodeChar (Char.ofNat b.toNat) = [b] := by
  simp only [UInt8.lt_iff_toNat_lt, UInt8.reduceToNat] at hb
  unfold String.utf8EncodeChar
  rw [toNat_char (by omega)]
  dsimp only
  rw [if_pos (by omega), ofNat_eq_byte rfl]

theorem le_of_second3 {b b₁ : UInt8} (h : second3 b b₁ = true) : 0x80 ≤ b₁ := by
  simp only [second3, decide_eq_true_eq, UInt8.le_iff_toNat_le, UInt8.reduceToNat] at h ⊢
  omega

theorem le_of_second4 {b b₁ : UInt8} (h : second4 b b₁ = true) : 0x80 ≤ b₁ := by
  simp only [second4, decide_eq_true_eq, UInt8.le_iff_toNat_le, UInt8.reduceToNat] at h ⊢
  omega

/-- What is read first: an encoded character, or bytes that begin none and become U+FFFD. -/
theorem fromUtf8Lossy_cases (b : UInt8) (rest : Bytes) :
    (∃ c u, b :: rest = String.utf8EncodeChar c ++ u ∧
      fromUtf8Lossy (b :: rest) = c :: fromUtf8Lossy u) ∨
    ∃ broken u, b :: rest = broken ++ u ∧ broken ≠ [] ∧ (∀ x ∈ broken, 0x80 ≤ x) ∧
      fromUtf8Lossy (b :: rest) = replacement :: fromUtf8Lossy u ∧
      ∀ c, ¬String.utf8EncodeChar c <+: b :: rest := by
  by_cases hchar : ∃ c u, b :: rest = String.utf8EncodeChar c ++ u
  · obtain ⟨c, u, hsplit⟩ := hchar
    exact Or.inl ⟨c, u, hsplit, by rw [hsplit, fromUtf8Lossy_utf8EncodeChar]⟩
  right
  have hnone : ∀ c, ¬String.utf8EncodeChar c <+: b :: rest := fun c ⟨u, hu⟩ =>
    hchar ⟨c, u, hu.symm⟩
  have hno : ∀ {c enc u}, String.utf8EncodeChar c = enc → b :: rest = enc ++ u → False := by
    intro c enc u henc h
    exact hchar ⟨c, u, henc ▸ h⟩
  have hb : ¬b < 0x80 := fun hlt => hno (utf8EncodeChar_one hlt) rfl
  have hle : 0x80 ≤ b := UInt8.not_lt.mp hb
  -- the lead byte alone is broken
  have hlead (h : fromUtf8Lossy (b :: rest) = replacement :: fromUtf8Lossy rest) :
      ∃ broken u, b :: rest = broken ++ u ∧ broken ≠ [] ∧ (∀ x ∈ broken, 0x80 ≤ x) ∧
        fromUtf8Lossy (b :: rest) = replacement :: fromUtf8Lossy u ∧
        ∀ c, ¬String.utf8EncodeChar c <+: b :: rest :=
    ⟨[b], rest, rfl, by simp, by simpa using hle, h, hnone⟩
  rw [fromUtf8Lossy.eq_def] at hlead ⊢
  dsimp only at hlead ⊢
  rw [if_neg hb] at hlead ⊢
  split_ifs at hlead ⊢ with h2 h3 h4
  · cases rest with
    | nil => exact hlead rfl
    | cons b₁ rest₁ =>
      dsimp only at hlead ⊢
      split_ifs at hlead ⊢ with h₁
      · exact absurd (hno (utf8EncodeChar_two h2 h₁) rfl) id
      · exact hlead rfl
  · cases rest with
    | nil => exact hlead rfl
    | cons b₁ rest₁ =>
      dsimp only at hlead ⊢
      split_ifs at hlead ⊢ with h₁
      · have hbroken : ∀ x ∈ [b, b₁], 0x80 ≤ x := by simpa using ⟨hle, le_of_second3 h₁⟩
        cases rest₁ with
        | nil => exact ⟨[b, b₁], [], rfl, by simp, hbroken, rfl, hnone⟩
        | cons b₂ rest₂ =>
          dsimp only
          split_ifs with h₂
          · exact absurd (hno (utf8EncodeChar_three h3 h₁ h₂) rfl) id
          · exact ⟨[b, b₁], b₂ :: rest₂, rfl, by simp, hbroken, rfl, hnone⟩
      · exact hlead rfl
  · cases rest with
    | nil => exact hlead rfl
    | cons b₁ rest₁ =>
      dsimp only at hlead ⊢
      split_ifs at hlead ⊢ with h₁
      · have hbroken : ∀ x ∈ [b, b₁], 0x80 ≤ x := by simpa using ⟨hle, le_of_second4 h₁⟩
        cases rest₁ with
        | nil => exact ⟨[b, b₁], [], rfl, by simp, hbroken, rfl, hnone⟩
        | cons b₂ rest₂ =>
          dsimp only
          split_ifs with h₂
          · have hle₂ : 0x80 ≤ b₂ := by
              simp only [isContinuation, decide_eq_true_eq] at h₂
              exact h₂.1
            have hbroken' : ∀ x ∈ [b, b₁, b₂], 0x80 ≤ x := by
              simpa using ⟨hle, le_of_second4 h₁, hle₂⟩
            cases rest₂ with
            | nil => exact ⟨[b, b₁, b₂], [], rfl, by simp, hbroken', rfl, hnone⟩
            | cons b₃ rest₃ =>
              dsimp only
              split_ifs with h₃
              · exact absurd (hno (utf8EncodeChar_four h4 h₁ h₂ h₃) rfl) id
              · exact ⟨[b, b₁, b₂], b₃ :: rest₃, rfl, by simp, hbroken', rfl, hnone⟩
          · exact ⟨[b, b₁], b₂ :: rest₂, rfl, by simp, hbroken, rfl, hnone⟩
      · exact hlead rfl
  · exact hlead rfl

/-- Bytes are taken apart as `from_utf8_lossy` reads them. -/
theorem fromUtf8Lossy_induction {P : Bytes → Prop} (nil : P [])
    (char : ∀ c u, P u → P (String.utf8EncodeChar c ++ u))
    (broken : ∀ broken u, broken ≠ [] → (∀ x ∈ broken, 0x80 ≤ x) →
      fromUtf8Lossy (broken ++ u) = replacement :: fromUtf8Lossy u →
      (∀ c, ¬String.utf8EncodeChar c <+: broken ++ u) → P u → P (broken ++ u)) :
    ∀ bytes, P bytes := by
  intro bytes
  induction hn : bytes.length using Nat.strong_induction_on generalizing bytes with
  | _ n ih =>
    subst hn
    cases bytes with
    | nil => exact nil
    | cons b rest =>
      obtain ⟨c, u, hsplit, -⟩ | ⟨bad, u, hsplit, hne, hhigh, hlossy, hnone⟩ :=
        fromUtf8Lossy_cases b rest
      · have hlen := congrArg List.length hsplit
        have hpos := List.length_pos_iff.mpr (String.utf8EncodeChar_ne_nil (c := c))
        rw [List.length_append] at hlen
        rw [hsplit]
        exact char c u (ih u.length (by omega) u rfl)
      · have hlen := congrArg List.length hsplit
        have hpos := List.length_pos_iff.mpr hne
        rw [List.length_append] at hlen
        rw [hsplit] at hlossy hnone ⊢
        exact broken bad u hne hhigh hlossy hnone (ih u.length (by omega) u rfl)

/-- Bytes that read as ASCII are ASCII. -/
theorem encode_fromUtf8Lossy_of_ascii {bytes : Bytes}
    (h : ∀ c ∈ fromUtf8Lossy bytes, c.toNat < 0x80) : encode (fromUtf8Lossy bytes) = bytes := by
  induction bytes using fromUtf8Lossy_induction with
  | nil => rfl
  | char c u ih =>
    rw [fromUtf8Lossy_utf8EncodeChar] at h ⊢
    rw [encode_cons, ih (List.forall_mem_cons.mp h).2]
  | broken bad u hne hhigh hlossy hnone ih =>
    rw [hlossy] at h
    exact absurd (List.forall_mem_cons.mp h).1 (by decide)

example : fromUtf8Lossy [0x61, 0xc3, 0xa9, 0xff, 0xe2, 0x82, 0x62] =
    ['a', 'é', replacement, replacement, 'b'] := by decide

/-! ## Separators -/

/-- An ASCII byte is read on its own, whatever stands before it. -/
theorem fromUtf8Lossy_ascii {x : UInt8} (hx : x < 0x80) (u v : Bytes) :
    fromUtf8Lossy (u ++ x :: v) = fromUtf8Lossy u ++ Char.ofNat x.toNat :: fromUtf8Lossy v := by
  have hcont : isContinuation x = false := by
    simp only [isContinuation, decide_eq_false_iff_not, UInt8.le_iff_toNat_le,
      UInt8.lt_iff_toNat_lt, UInt8.reduceToNat] at hx ⊢
    omega
  have h3 (b : UInt8) : second3 b x = false :=
    Bool.eq_false_iff.mpr fun h => absurd hx (UInt8.not_lt.mpr (le_of_second3 h))
  have h4 (b : UInt8) : second4 b x = false :=
    Bool.eq_false_iff.mpr fun h => absurd hx (UInt8.not_lt.mpr (le_of_second4 h))
  have hself : fromUtf8Lossy (x :: v) = Char.ofNat x.toNat :: fromUtf8Lossy v := by
    rw [fromUtf8Lossy.eq_def]
    simp only [hx, if_true]
  fun_induction fromUtf8Lossy u with
  | case1 => exact hself
  | _ =>
    rw [List.cons_append, fromUtf8Lossy.eq_def]
    simp_all only [List.cons_append, List.nil_append, if_true, if_false, and_self,
      Bool.false_eq_true]

/-- What is read and written again, as `to_string` of a lossy read. -/
def reencode (bytes : Bytes) : Bytes := encode (fromUtf8Lossy bytes)

theorem reencode_char (c : Char) (v : Bytes) :
    reencode (String.utf8EncodeChar c ++ v) = String.utf8EncodeChar c ++ reencode v := by
  unfold reencode
  rw [fromUtf8Lossy_utf8EncodeChar, encode_cons]

theorem reencode_ascii {x : UInt8} (hx : x < 0x80) (v : Bytes) :
    reencode (x :: v) = x :: reencode v := by
  have hchar := reencode_char (Char.ofNat x.toNat) v
  rwa [utf8EncodeChar_one hx] at hchar

/-- A byte that is not ASCII leaves none at its place. -/
theorem reencode_high {b : UInt8} (hb : ¬b < 0x80) (rest : Bytes) :
    ∃ x u, reencode (b :: rest) = x :: u ∧ ¬x < 0x80 := by
  unfold reencode
  obtain ⟨c, u, hsplit, hread⟩ | ⟨_, u, -, -, -, hread, -⟩ := fromUtf8Lossy_cases b rest
  · rw [hread, encode_cons]
    obtain ⟨x, enc, henc⟩ := List.exists_cons_of_ne_nil (String.utf8EncodeChar_ne_nil (c := c))
    rw [henc, List.cons_append] at hsplit
    rw [henc, List.cons_append]
    exact ⟨x, _, rfl, (List.cons.inj hsplit).1 ▸ hb⟩
  · rw [hread]
    exact ⟨0xef, 0xbf :: 0xbd :: encode (fromUtf8Lossy u), rfl, by decide⟩

/-- An ASCII byte that is written first was read first. -/
theorem of_reencode_eq_cons {x : UInt8} (hx : x < 0x80) {bytes w : Bytes}
    (h : reencode bytes = x :: w) : ∃ v, bytes = x :: v ∧ w = reencode v := by
  cases bytes with
  | nil => cases h
  | cons b rest =>
    by_cases hb : b < 0x80
    · rw [reencode_ascii hb] at h
      obtain ⟨rfl, rfl⟩ := List.cons.inj h
      exact ⟨rest, rfl, rfl⟩
    · obtain ⟨y, u, hread, hy⟩ := reencode_high hb rest
      rw [hread] at h
      exact absurd ((List.cons.inj h).1 ▸ hx) hy

theorem fromUtf8Lossy_eq_nil {bytes : Bytes} : fromUtf8Lossy bytes = [] ↔ bytes = [] := by
  refine ⟨fun h => ?_, fun h => by rw [h]; rfl⟩
  cases bytes with
  | nil => rfl
  | cons b rest =>
    obtain ⟨c, u, -, hread⟩ | ⟨_, u, -, -, -, hread, -⟩ := fromUtf8Lossy_cases b rest
    · rw [hread] at h
      cases h
    · rw [hread] at h
      cases h

/-- An ASCII character comes from its byte. -/
theorem mem_of_mem_fromUtf8Lossy {x : UInt8} (hx : x < 0x80) {bytes : Bytes}
    (h : Char.ofNat x.toNat ∈ fromUtf8Lossy bytes) : x ∈ bytes := by
  induction bytes using fromUtf8Lossy_induction with
  | nil => cases h
  | char c u ih =>
    rw [fromUtf8Lossy_utf8EncodeChar, List.mem_cons] at h
    rcases h with rfl | h
    · rw [utf8EncodeChar_one hx]
      exact List.mem_cons_self
    · exact List.mem_append_right _ (ih h)
  | broken bad u hne hhigh hlossy hnone ih =>
    rw [hlossy, List.mem_cons] at h
    rcases h with h | h
    · have hval := congrArg (fun c => c.val.toNat) h
      rw [UInt8.lt_iff_toNat_lt] at hx
      change x.toNat < 128 at hx
      rw [toNat_char (by omega)] at hval
      change x.toNat = 0xfffd at hval
      omega
    · exact List.mem_append_right _ (ih h)

theorem mem_fromUtf8Lossy {x : UInt8} (hx : x < 0x80) {bytes : Bytes} :
    Char.ofNat x.toNat ∈ fromUtf8Lossy bytes ↔ x ∈ bytes := by
  refine ⟨mem_of_mem_fromUtf8Lossy hx, fun h => ?_⟩
  obtain ⟨u, v, rfl⟩ := List.append_of_mem h
  rw [fromUtf8Lossy_ascii hx]
  exact List.mem_append_right _ List.mem_cons_self

/-- Splitting at an ASCII byte and at its character is the same. -/
theorem splitOn_fromUtf8Lossy {x : UInt8} (hx : x < 0x80) (bytes : Bytes) :
    (fromUtf8Lossy bytes).splitOn (Char.ofNat x.toNat) = (bytes.splitOn x).map fromUtf8Lossy := by
  induction hn : bytes.length using Nat.strong_induction_on generalizing bytes with
  | _ n ih =>
    subst hn
    by_cases hmem : x ∈ bytes
    · obtain ⟨u, v, rfl, hu⟩ := List.eq_append_cons_of_mem hmem
      rw [fromUtf8Lossy_ascii hx, List.splitOn_append_cons_self_of_not_mem hu, List.map_cons,
        List.splitOn_append_cons_self_of_not_mem (fun h => hu (mem_of_mem_fromUtf8Lossy hx h)),
        ih v.length (by simp; omega) v rfl]
    · rw [List.splitOn_eq_singleton hmem,
        List.splitOn_eq_singleton (fun h => hmem (mem_of_mem_fromUtf8Lossy hx h))]
      rfl

/-- A text ends in an ASCII character when its bytes end in the byte of it. -/
theorem getLast?_fromUtf8Lossy {x : UInt8} (hx : x < 0x80) {bytes : Bytes}
    (h : (fromUtf8Lossy bytes).getLast? = some (Char.ofNat x.toNat)) :
    bytes.getLast? = some x := by
  have hmem := mem_of_mem_fromUtf8Lossy hx (List.mem_of_getLast? h)
  obtain ⟨u, v, rfl, hv⟩ : ∃ u v, bytes = u ++ x :: v ∧ x ∉ v := by
    obtain ⟨v, u, hrev, hv⟩ := List.eq_append_cons_of_mem (List.mem_reverse.mpr hmem)
    refine ⟨u.reverse, v.reverse, ?_, by simpa using hv⟩
    rw [← List.reverse_reverse bytes, hrev]
    simp
  rw [fromUtf8Lossy_ascii hx] at h
  rcases List.eq_nil_or_concat' v with rfl | ⟨w, y, rfl⟩
  · exact List.getLast?_concat
  · have hne : fromUtf8Lossy (w ++ [y]) ≠ [] := fun hnil => by
      simpa using fromUtf8Lossy_eq_nil.mp hnil
    rw [List.getLast?_append_of_ne_nil _ (by simp), List.getLast?_cons_of_ne_nil hne] at h
    exact absurd (mem_of_mem_fromUtf8Lossy hx (List.mem_of_getLast? h)) hv

/-- A carriage return at the end of a line of bytes. -/
def stripCr (line : Bytes) : Bytes := if line.getLast? = some 0x0d then line.dropLast else line

/-- `str::lines`, on bytes. -/
def byteLines (bytes : Bytes) : List Bytes :=
  (bytes.splitOn 0x0a).dropLast.map stripCr ++
    (bytes.splitOn 0x0a).getLast?.toList.filter fun line => !line.isEmpty

theorem fromUtf8Lossy_stripCr (line : Bytes) :
    fromUtf8Lossy (stripCr line) =
      if (fromUtf8Lossy line).getLast? = some '\r' then (fromUtf8Lossy line).dropLast
      else fromUtf8Lossy line := by
  unfold stripCr
  by_cases hcr : line.getLast? = some 0x0d
  · obtain ⟨u, rfl⟩ := List.getLast?_eq_some_iff.mp hcr
    have hread : fromUtf8Lossy (u ++ [0x0d]) = fromUtf8Lossy u ++ ['\r'] :=
      fromUtf8Lossy_ascii (by decide) u []
    rw [if_pos hcr, hread, if_pos List.getLast?_concat, List.dropLast_concat, List.dropLast_concat]
  · rw [if_neg hcr, if_neg]
    exact fun h => hcr (getLast?_fromUtf8Lossy (x := 0x0d) (by decide) h)

/-- The lines of a text are those of its bytes. -/
theorem lines_fromUtf8Lossy (bytes : Bytes) :
    lines (fromUtf8Lossy bytes) = (byteLines bytes).map fromUtf8Lossy := by
  have hsplit : (fromUtf8Lossy bytes).splitOn '\n' = (bytes.splitOn 0x0a).map fromUtf8Lossy :=
    splitOn_fromUtf8Lossy (x := 0x0a) (by decide) bytes
  unfold lines byteLines
  dsimp only
  rw [hsplit, List.map_append, ← List.map_dropLast, List.map_map, List.map_map, List.getLast?_map]
  congr 1
  · apply List.map_congr_left
    intro line _
    exact (fromUtf8Lossy_stripCr line).symm
  · cases (bytes.splitOn 0x0a).getLast? with
    | none => rfl
    | some line =>
      by_cases hne : line = []
      · subst hne
        rfl
      · simp [hne, fromUtf8Lossy_eq_nil]

end Synora.Utf8
