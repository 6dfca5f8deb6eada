import Synora.Lib.Digits
import Synora.Net.Expose

namespace Synora.Net
open Strings Utf8

/-! # The credentials of the exposed proxy -/

/-- `bytes.chunks(3)` -/
def chunks : Bytes → List Bytes
  | [] => []
  | [a] => [[a]]
  | [a, b] => [[a, b]]
  | a :: b :: c :: rest => [a, b, c] :: chunks rest

/-- `TABLE[i as usize] as char` -/
def tableAt (i : UInt8) : Char := Digits.digit i.toNat

/-- One round of the loop of `base64_auth`. -/
def pushChunk (out : Text) (chunk : Bytes) : Text :=
  let b₀ := chunk.getD 0 0
  let b₁ := chunk.getD 1 0
  let b₂ := chunk.getD 2 0
  out ++ [tableAt (b₀ >>> 2), tableAt ((b₀ &&& 0x03) <<< 4 ||| b₁ >>> 4),
    if chunk.length > 1 then tableAt ((b₁ &&& 0x0f) <<< 2 ||| b₂ >>> 6) else '=',
    if chunk.length > 2 then tableAt (b₂ &&& 0x3f) else '=']

def base64AuthLoop (user pass : Text) : Text :=
  (chunks (encode (user ++ ":".toList ++ pass))).foldl pushChunk []

/-- What `serve_auth_proxy` expects. -/
def expectedAuth (user pass : Text) : Text :=
  if user.isEmpty ∧ pass.isEmpty then [] else "Basic ".toList ++ base64AuthLoop user pass

/-! ## The bits -/

section
variable (a b c : UInt8)

theorem toNat_low2 : (a &&& 0x03).toNat = a.toNat % 4 := Nat.and_two_pow_sub_one_eq_mod _ 2

theorem toNat_low4 : (a &&& 0x0f).toNat = a.toNat % 16 := Nat.and_two_pow_sub_one_eq_mod _ 4

theorem toNat_low6 : (a &&& 0x3f).toNat = a.toNat % 64 := Nat.and_two_pow_sub_one_eq_mod _ 6

theorem tableAt_first : tableAt (a >>> 2) = Digits.digit (a.toNat / 4) := by
  rw [tableAt, Digits.toNat_shiftRight a 2 (by decide)]
  rfl

theorem tableAt_second : tableAt ((a &&& 0x03) <<< 4 ||| b >>> 4) =
    Digits.digit (a.toNat % 4 * 16 + b.toNat / 16) := by
  have hshift : (b >>> 4).toNat = b.toNat / 16 := Digits.toNat_shiftRight b 4 (by decide)
  have hb := b.toNat_lt
  rw [tableAt, Digits.toNat_join, toNat_low2, hshift]
  · rfl
  · rw [toNat_low2]
    exact lt_trans (Nat.mod_lt _ (by decide)) (by decide)
  · decide
  · rw [hshift]
    change b.toNat / 16 < 16
    omega

theorem tableAt_third : tableAt ((b &&& 0x0f) <<< 2 ||| c >>> 6) =
    Digits.digit (b.toNat % 16 * 4 + c.toNat / 64) := by
  have hshift : (c >>> 6).toNat = c.toNat / 64 := Digits.toNat_shiftRight c 6 (by decide)
  have hc := c.toNat_lt
  rw [tableAt, Digits.toNat_join, toNat_low4, hshift]
  · rfl
  · rw [toNat_low4]
    exact lt_trans (Nat.mod_lt _ (by decide)) (by decide)
  · decide
  · rw [hshift]
    change c.toNat / 64 < 4
    omega

theorem tableAt_fourth : tableAt (c &&& 0x3f) = Digits.digit (c.toNat % 64) := by
  rw [tableAt, toNat_low6]

end

/-- The loop and the digits of a group, by how many bytes the group has. -/
theorem foldl_pushChunk (bytes : Bytes) (out : Text) :
    (chunks bytes).foldl pushChunk out = out ++ base64 bytes := by
  fun_induction chunks bytes generalizing out with
  | case1 => exact (List.append_nil out).symm
  | case2 a =>
    have hsecond : tableAt ((a &&& 0x03) <<< 4 ||| (0 : UInt8) >>> 4) = _ := tableAt_second a 0
    change out ++ [tableAt (a >>> 2), tableAt ((a &&& 0x03) <<< 4 ||| (0 : UInt8) >>> 4),
      '=', '='] = _
    rw [tableAt_first, hsecond]
    rfl
  | case3 a b =>
    have hthird : tableAt ((b &&& 0x0f) <<< 2 ||| (0 : UInt8) >>> 6) = _ := tableAt_third b 0
    change out ++ [tableAt (a >>> 2), tableAt ((a &&& 0x03) <<< 4 ||| b >>> 4),
      tableAt ((b &&& 0x0f) <<< 2 ||| (0 : UInt8) >>> 6), '='] = _
    rw [tableAt_first, tableAt_second, hthird]
    rfl
  | case4 a b c rest ih =>
    have hround : pushChunk out [a, b, c] = out ++ [base64.digit (a.toNat / 4),
        base64.digit (a.toNat % 4 * 16 + b.toNat / 16),
        base64.digit (b.toNat % 16 * 4 + c.toNat / 64), base64.digit (c.toNat % 64)] := by
      change out ++ [tableAt (a >>> 2), tableAt ((a &&& 0x03) <<< 4 ||| b >>> 4),
        tableAt ((b &&& 0x0f) <<< 2 ||| c >>> 6), tableAt (c &&& 0x3f)] = _
      rw [tableAt_first, tableAt_second, tableAt_third, tableAt_fourth]
      rfl
    rw [List.foldl_cons, ih, hround, base64, List.append_assoc]

theorem base64AuthLoop_eq (user pass : Text) : base64AuthLoop user pass = base64Auth user pass :=
  foldl_pushChunk _ []

/-! ## Reading it back -/

theorem decode_base64 (bytes : Bytes) : Digits.decodeBase64 (base64 bytes) = some bytes := by
  induction bytes using base64.induct with
  | case1 => rfl
  | case2 a =>
    have ha := a.toNat_lt
    change Digits.decodeBase64
      [Digits.digit (a.toNat / 4), Digits.digit (a.toNat % 4 * 16), '=', '='] = _
    rw [Digits.decode_one (by omega) (by omega) (by omega)]
    have hfirst : a.toNat / 4 * 4 + a.toNat % 4 * 16 / 16 = a.toNat := by omega
    rw [hfirst, UInt8.ofNat_toNat]
  | case3 a b =>
    have ha := a.toNat_lt
    have hb := b.toNat_lt
    change Digits.decodeBase64 [Digits.digit (a.toNat / 4),
      Digits.digit (a.toNat % 4 * 16 + b.toNat / 16), Digits.digit (b.toNat % 16 * 4), '='] = _
    rw [Digits.decode_two (by omega) (by omega) (by omega) (by omega)]
    have hfirst : a.toNat / 4 * 4 + (a.toNat % 4 * 16 + b.toNat / 16) / 16 = a.toNat := by omega
    have hsecond : (a.toNat % 4 * 16 + b.toNat / 16) % 16 * 16 + b.toNat % 16 * 4 / 4 =
        b.toNat := by omega
    rw [hfirst, hsecond, UInt8.ofNat_toNat, UInt8.ofNat_toNat]
  | case4 a b c rest ih =>
    have ha := a.toNat_lt
    have hb := b.toNat_lt
    have hc := c.toNat_lt
    change Digits.decodeBase64 (Digits.digit (a.toNat / 4) ::
      Digits.digit (a.toNat % 4 * 16 + b.toNat / 16) ::
      Digits.digit (b.toNat % 16 * 4 + c.toNat / 64) :: Digits.digit (c.toNat % 64) ::
      base64 rest) = _
    rw [Digits.decode_group (by omega) (by omega) (by omega) (by omega), ih, Option.map_some]
    have hfirst : a.toNat / 4 * 4 + (a.toNat % 4 * 16 + b.toNat / 16) / 16 = a.toNat := by omega
    have hsecond : (a.toNat % 4 * 16 + b.toNat / 16) % 16 * 16 +
        (b.toNat % 16 * 4 + c.toNat / 64) / 4 = b.toNat := by omega
    have hthird : (b.toNat % 16 * 4 + c.toNat / 64) % 4 * 64 + c.toNat % 64 = c.toNat := by omega
    rw [hfirst, hsecond, hthird, UInt8.ofNat_toNat, UInt8.ofNat_toNat, UInt8.ofNat_toNat]

theorem mem_base64 (bytes : Bytes) : ∀ c ∈ base64 bytes, c ∈ Digits.alphabet ∨ c = '=' := by
  have hdigit {n : ℕ} (h : n < 64) : base64.digit n ∈ Digits.alphabet := Digits.digit_mem h
  induction bytes using base64.induct with
  | case1 => simp [base64]
  | case2 a =>
    have ha := a.toNat_lt
    intro c hc
    simp only [base64, List.mem_cons, List.not_mem_nil, or_false] at hc
    obtain rfl | rfl | rfl | rfl := hc
    · exact .inl (hdigit (by omega))
    · exact .inl (hdigit (by omega))
    · exact .inr rfl
    · exact .inr rfl
  | case3 a b =>
    have ha := a.toNat_lt
    have hb := b.toNat_lt
    intro c hc
    simp only [base64, List.mem_cons, List.not_mem_nil, or_false] at hc
    obtain rfl | rfl | rfl | rfl := hc
    · exact .inl (hdigit (by omega))
    · exact .inl (hdigit (by omega))
    · exact .inl (hdigit (by omega))
    · exact .inr rfl
  | case4 a b c rest ih =>
    have ha := a.toNat_lt
    have hb := b.toNat_lt
    have hc := c.toNat_lt
    intro d hd
    rw [base64, List.mem_append] at hd
    obtain hd | hd := hd
    · simp only [List.mem_cons, List.not_mem_nil, or_false] at hd
      obtain rfl | rfl | rfl | rfl := hd <;> exact .inl (hdigit (by omega))
    · exact ih d hd

theorem base64_injective {u v : Bytes} (h : base64 u = base64 v) : u = v := by
  have hu := decode_base64 u
  rw [h, decode_base64] at hu
  exact (Option.some.inj hu).symm

theorem encode_injective {t u : Text} (h : encode t = encode u) : t = u := by
  rw [← fromUtf8Lossy_encode t, h, fromUtf8Lossy_encode]

/-- Only the empty pair is expected to send nothing. -/
theorem expectedAuth_eq_nil {user pass : Text} :
    expectedAuth user pass = [] ↔ user = [] ∧ pass = [] := by
  unfold expectedAuth
  simp only [List.isEmpty_iff]
  split_ifs with h
  · exact ⟨fun _ => h, fun _ => rfl⟩
  · exact ⟨fun hnil => absurd (List.append_eq_nil_iff.mp hnil).1 (by decide),
      fun hpair => absurd hpair h⟩

theorem expectedAuth_injective {user pass user' pass' : Text}
    (h : expectedAuth user pass = expectedAuth user' pass') :
    user ++ ":".toList ++ pass = user' ++ ":".toList ++ pass' := by
  by_cases hnil : expectedAuth user pass = []
  · obtain ⟨rfl, rfl⟩ := expectedAuth_eq_nil.mp hnil
    obtain ⟨rfl, rfl⟩ := expectedAuth_eq_nil.mp (h ▸ hnil)
    rfl
  · have hnil' : expectedAuth user' pass' ≠ [] := h ▸ hnil
    simp only [ne_eq, expectedAuth_eq_nil] at hnil hnil'
    simp only [expectedAuth, List.isEmpty_iff, if_neg hnil, if_neg hnil', base64AuthLoop_eq] at h
    exact encode_injective (base64_injective (List.append_cancel_left h))

/-- The loop writes base64 as it is read back: padded, canonical, over the standard alphabet; so the
expected header tells different `user:pass` strings apart. -/
theorem base64_auth_reads_back (user pass : Text) :
    Digits.decodeBase64 (base64AuthLoop user pass) = some (encode (user ++ ":".toList ++ pass)) ∧
      (∀ c ∈ base64AuthLoop user pass, c ∈ Digits.alphabet ∨ c = '=') ∧
      ∀ user' pass', expectedAuth user pass = expectedAuth user' pass' →
        user ++ ":".toList ++ pass = user' ++ ":".toList ++ pass' := by
  rw [base64AuthLoop_eq]
  exact ⟨decode_base64 _, mem_base64 _, fun _ _ => expectedAuth_injective⟩

end Synora.Net
