import Synora.Lib.Digits
import Synora.Mirror.Checked
import Synora.Mirror.Fetched

namespace Synora.Mirror
open Strings Utf8 Digits

/-! # Percent-encoded texts -/

/-- `text` is `name` with some of its bytes, and every `%`, written as `%XX`. -/
inductive PercentEncoded : Bytes → Bytes → Prop
  | nil : PercentEncoded [] []
  | literal {b : UInt8} {text name : Bytes} (hb : b ≠ 0x25) (h : PercentEncoded text name) :
    PercentEncoded (b :: text) (b :: name)
  | escape {b : UInt8} {hi lo : Char} {text name : Bytes} (hhi : hi ∈ hexDigits (b.toNat / 16))
    (hlo : lo ∈ hexDigits (b.toNat % 16)) (h : PercentEncoded text name) :
    PercentEncoded (encode ['%', hi, lo] ++ text) (b :: name)

/-- `percent_decode` as the source has it, from index to index; `none` is an index out of bounds or
an arithmetic overflow. -/
def percentDecodeLoop (t : Text) : Option Text :=
  (checkedPercentDecode (encode t) (encode t).length 0).map fromUtf8Lossy

theorem percentDecodeLoop_eq (t : Text) : percentDecodeLoop t = some (percentDecode t) := by
  rw [percentDecodeLoop, checkedPercentDecode_eq _ (by omega), List.drop_zero, Option.map_some,
    percentDecode]

theorem fromHex_hexDigits {n : ℕ} (hn : n < 16) : ∀ c ∈ hexDigits n,
    ∃ b, encode [c] = [b] ∧ fromHex b = some (.ofNat n) := by
  have hall : ∀ m : Fin 16, ∀ c ∈ hexDigits m,
      encode [c] = [.ofNat c.toNat] ∧ fromHex (.ofNat c.toNat) = some (.ofNat m) := by decide
  exact fun c hc => ⟨_, hall ⟨n, hn⟩ c hc⟩

theorem PercentEncoded.encodes {text name : Bytes} (h : PercentEncoded text name) :
    Encodes text name := by
  induction h with
  | nil => exact .nil
  | literal hb _ ih => exact .literal hb ih
  | @escape b hi lo text name hhi hlo _ ih =>
    have hb := b.toNat_lt
    obtain ⟨x, hx, hhigh⟩ := fromHex_hexDigits (by omega) hi hhi
    obtain ⟨y, hy, hlow⟩ := fromHex_hexDigits (by omega) lo hlo
    have hread := Encodes.escape hhigh hlow ih
    have hpercent : encode ['%', hi, lo] = [0x25, x, y] := by
      change encode (['%'] ++ ([hi] ++ [lo])) = _
      rw [encode_append, encode_append, hx, hy]
      rfl
    rw [join_halves] at hread
    rwa [hpercent]

theorem isHexDigit_of_fromHex {b h : UInt8} (hb : fromHex b = some h) :
    isHexDigit (Char.ofNat b.toNat) := by
  have hall : ∀ n < 128, fromHex (.ofNat n) ≠ none → isHexDigit (Char.ofNat n) := by decide
  apply hall b.toNat (UInt8.lt_iff_toNat_lt.mp (lt_of_fromHex hb))
  rw [UInt8.ofNat_toNat, hb]
  exact Option.some_ne_none h

/-- Two digits among the bytes are two digits of the text. -/
theorem StartsHex.of_encode {v : Text} (h : StartsHex (encode v)) :
    ∃ hi lo rest, v = hi :: lo :: rest ∧ isHexDigit hi ∧ isHexDigit lo := by
  obtain ⟨hi, lo, h, l, rest, hv, hhi, hlo⟩ := h
  have hread : v = Char.ofNat hi.toNat :: Char.ofNat lo.toNat :: fromUtf8Lossy rest := by
    calc v = fromUtf8Lossy ([] ++ hi :: ([] ++ lo :: rest)) := by
          rw [List.nil_append, List.nil_append, ← hv, fromUtf8Lossy_encode]
      _ = _ := by
          rw [fromUtf8Lossy_ascii (lt_of_fromHex hhi), fromUtf8Lossy_ascii (lt_of_fromHex hlo)]
          rfl
  exact ⟨_, _, _, hread, isHexDigit_of_fromHex hhi, isHexDigit_of_fromHex hlo⟩

theorem percentDecode_of_encoded {e s : Text} (h : PercentEncoded (encode e) (encode s)) :
    percentDecode e = s := by
  rw [percentDecode, percentDecodeBytes_of_encodes h.encodes, fromUtf8Lossy_encode]

/-- A `%` that begins no escape stays, and what is before and behind it is decoded on its own. -/
theorem percentDecode_percent (u : Text) {v : Text}
    (h : ¬∃ hi lo rest, v = hi :: lo :: rest ∧ isHexDigit hi ∧ isHexDigit lo) :
    percentDecode (u ++ '%' :: v) = percentDecode u ++ '%' :: percentDecode v := by
  have hbytes : encode (u ++ '%' :: v) = encode u ++ 0x25 :: encode v := encode_append u _
  rw [percentDecode, hbytes, percentDecodeBytes_split (by decide),
    percentDecodeBytes_percent fun hv => h hv.of_encode, fromUtf8Lossy_ascii (by decide)]
  rfl

/-- Decoding undoes every encoding, in either case of the digits, and copies every other `%`. -/
theorem percent_decode_inverts :
    (∀ e s : Text, PercentEncoded (encode e) (encode s) → percentDecodeLoop e = some s) ∧
      ∀ u v : Text, (¬∃ hi lo rest, v = hi :: lo :: rest ∧ isHexDigit hi ∧ isHexDigit lo) →
        ∃ before after, percentDecodeLoop u = some before ∧ percentDecodeLoop v = some after ∧
          percentDecodeLoop (u ++ '%' :: v) = some (before ++ '%' :: after) := by
  constructor
  · intro e s h
    rw [percentDecodeLoop_eq, percentDecode_of_encoded h]
  · intro u v h
    refine ⟨percentDecode u, percentDecode v, percentDecodeLoop_eq u, percentDecodeLoop_eq v, ?_⟩
    rw [percentDecodeLoop_eq, percentDecode_percent u h]

end Synora.Mirror
