import Synora.Lib.Utf8

/-! # Bytes in digits

Base64 as it is read, in groups of four digits with zero bits where the padding stands, and the two
cases of a hexadecimal digit. -/

namespace Synora.Digits
open Strings Utf8

/-! ## Bits -/

theorem toNat_shiftRight (a i : UInt8) (h : i.toNat < 8) :
    (a >>> i).toNat = a.toNat / 2 ^ i.toNat := by
  rw [UInt8.toNat_shiftRight, Nat.mod_eq_of_lt h, Nat.shiftRight_eq_div_pow]

/-- Two fields side by side. -/
theorem toNat_join {hi lo i : UInt8} (hhi : hi.toNat < 2 ^ (8 - i.toNat)) (hi' : i.toNat < 8)
    (hlo : lo.toNat < 2 ^ i.toNat) :
    (hi <<< i ||| lo).toNat = hi.toNat * 2 ^ i.toNat + lo.toNat := by
  have hfit : hi.toNat * 2 ^ i.toNat < 2 ^ 8 := by
    calc hi.toNat * 2 ^ i.toNat < 2 ^ (8 - i.toNat) * 2 ^ i.toNat :=
          Nat.mul_lt_mul_of_pos_right hhi (Nat.two_pow_pos _)
      _ = 2 ^ 8 := by rw [← Nat.pow_add, Nat.sub_add_cancel hi'.le]
  rw [UInt8.toNat_or, UInt8.toNat_shiftLeft, Nat.mod_eq_of_lt hi', Nat.shiftLeft_eq,
    Nat.mod_eq_of_lt hfit, ← Nat.shiftLeft_eq, ← Nat.shiftLeft_add_eq_or_of_lt hlo]

/-! ## Base64 -/

def alphabet : Text := "ABCDEFGHIJKLMNOPQRSTUVWXYZabcdefghijklmnopqrstuvwxyz0123456789+/".toList

/-- The digit of a six-bit number. -/
def digit (n : ℕ) : Char := alphabet.getD n '/'

def value (c : Char) : Option ℕ := alphabet.idxOf? c

theorem value_digit {n : ℕ} (h : n < 64) : value (digit n) = some n := by
  have hall : ∀ m : Fin 64, value (digit m) = some m.val := by decide +kernel
  exact hall ⟨n, h⟩

theorem digit_mem {n : ℕ} (h : n < 64) : digit n ∈ alphabet := by
  have hlt : n < alphabet.length := h
  rw [digit, List.getD_eq_getElem?_getD, List.getElem?_eq_getElem hlt]
  exact List.getElem_mem hlt

theorem pad_not_mem : '=' ∉ alphabet := by decide

theorem digit_ne_pad {n : ℕ} (h : n < 64) : digit n ≠ '=' := fun he =>
  pad_not_mem (he ▸ digit_mem h)

/-- The bytes of a last group with one digit more than bytes. -/
def lastGroup (a b c : Char) : Option Bytes := do
  let x ← value a
  let y ← value b
  if c = '=' then
    if y % 16 = 0 then some [UInt8.ofNat (x * 4 + y / 16)] else none
  else do
    let z ← value c
    if z % 4 = 0 then some [UInt8.ofNat (x * 4 + y / 16), UInt8.ofNat (y % 16 * 16 + z / 4)]
    else none

def decodeBase64 : Text → Option Bytes
  | [] => some []
  | a :: b :: c :: d :: rest =>
    if d = '=' then if rest = [] then lastGroup a b c else none
    else do
      let x ← value a
      let y ← value b
      let z ← value c
      let w ← value d
      let bytes ← decodeBase64 rest
      some (UInt8.ofNat (x * 4 + y / 16) :: UInt8.ofNat (y % 16 * 16 + z / 4) ::
        UInt8.ofNat (z % 4 * 64 + w) :: bytes)
  | _ => none

section
variable {x y z w : ℕ}

theorem decode_group (hx : x < 64) (hy : y < 64) (hz : z < 64) (hw : w < 64) (rest : Text) :
    decodeBase64 (digit x :: digit y :: digit z :: digit w :: rest) =
      (decodeBase64 rest).map fun bytes =>
        UInt8.ofNat (x * 4 + y / 16) :: UInt8.ofNat (y % 16 * 16 + z / 4) ::
          UInt8.ofNat (z % 4 * 64 + w) :: bytes := by
  rw [decodeBase64, if_neg (digit_ne_pad hw), value_digit hx, value_digit hy, value_digit hz,
    value_digit hw]
  cases decodeBase64 rest <;> rfl

theorem decode_two (hx : x < 64) (hy : y < 64) (hz : z < 64) (hzero : z % 4 = 0) :
    decodeBase64 [digit x, digit y, digit z, '='] =
      some [UInt8.ofNat (x * 4 + y / 16), UInt8.ofNat (y % 16 * 16 + z / 4)] := by
  rw [decodeBase64, if_pos rfl, if_pos rfl, lastGroup, value_digit hx, value_digit hy,
    value_digit hz]
  simp [digit_ne_pad hz, hzero]

theorem decode_one (hx : x < 64) (hy : y < 64) (hzero : y % 16 = 0) :
    decodeBase64 [digit x, digit y, '=', '='] = some [UInt8.ofNat (x * 4 + y / 16)] := by
  rw [decodeBase64, if_pos rfl, if_pos rfl, lastGroup, value_digit hx, value_digit hy]
  simp [hzero]

end

/-! ## Hexadecimal digits -/

/-- The two ways to write a hexadecimal digit. -/
def hexDigits (n : ℕ) : Text :=
  ["0123456789abcdef".toList.getD n '0', "0123456789ABCDEF".toList.getD n '0']

def isHexDigit (c : Char) : Bool := "0123456789abcdefABCDEF".toList.contains c

theorem join_halves (b : UInt8) :
    UInt8.ofNat (b.toNat / 16) <<< 4 ||| UInt8.ofNat (b.toNat % 16) = b := by
  have hb := b.toNat_lt
  have hhi : (UInt8.ofNat (b.toNat / 16)).toNat = b.toNat / 16 := toNat_byte (by omega)
  have hlo : (UInt8.ofNat (b.toNat % 16)).toNat = b.toNat % 16 := toNat_byte (by omega)
  apply UInt8.toNat.inj
  rw [toNat_join, hhi, hlo]
  · change b.toNat / 16 * 16 + b.toNat % 16 = b.toNat
    omega
  · rw [hhi]
    change b.toNat / 16 < 16
    omega
  · decide
  · rw [hlo]
    exact Nat.mod_lt _ (by decide)

end Synora.Digits
