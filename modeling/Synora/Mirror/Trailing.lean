import Mathlib.Data.List.GetD
import Synora.Lib.Escape
import Synora.Lib.Slice
import Synora.Mirror.Dates

namespace Synora.Mirror
open Strings Utf8

/-! ## What is scanned behind an anchor -/

/-- The text that `scan_trailing` searches. -/
def rowText (trailing : Text) : Text :=
  replace "\n".toList " ".toList (stripHtml (trailing.take 400))

/-- The text of a row that is followed by more text. -/
def ownText (own : Text) : Text :=
  replace "\n".toList " ".toList (decodeEntities (trimStart isWhitespace (stripTags false own)))

theorem decodeEntities_split {c : Char} (hc : isWhitespace c = true) (u v : Text) :
    decodeEntities (u ++ c :: v) = decodeEntities u ++ c :: decodeEntities v := by
  have hno {pat : Text} (hpat : ∀ d ∈ pat, isWhitespace d = false) : c ∉ pat := fun hmem => by
    rw [hpat c hmem] at hc
    cases hc
  unfold decodeEntities
  dsimp only
  rw [replace_split (by decide) (hno (by decide)), replace_split (by decide) (hno (by decide)),
    replace_split (by decide) (hno (by decide)), replace_split (by decide) (hno (by decide)),
    replace_split (by decide) (hno (by decide))]

theorem decodeEntities_blank {ws : Text} (h : Blank ws) (u : Text) :
    decodeEntities (u ++ ws) = decodeEntities u ++ ws := by
  induction ws generalizing u with
  | nil => rw [List.append_nil, List.append_nil]
  | cons c ws ih =>
    obtain ⟨hc, hws⟩ := List.forall_mem_cons.mp h
    have hself := ih hws []
    rw [decodeEntities_split hc]
    rw [List.nil_append] at hself
    rw [hself]
    rfl

theorem length_decodeEntities_le (t : Text) : (decodeEntities t).length ≤ t.length := by
  have hstep {pat new : Text} (hne : pat ≠ []) (hlt : new.length ≤ pat.length) (u : Text)
      (hu : u.length ≤ t.length) : (replace pat new u).length ≤ t.length :=
    (length_replace_le hne hlt u).trans hu
  unfold decodeEntities
  dsimp only
  apply hstep (by decide) (by decide)
  apply hstep (by decide) (by decide)
  apply hstep (by decide) (by decide)
  apply hstep (by decide) (by decide)
  exact hstep (by decide) (by decide) t le_rfl

/-- Line ends become blanks one by one. -/
theorem replace_newline_append (u v : Text) : replace "\n".toList " ".toList (u ++ v) =
    replace "\n".toList " ".toList u ++ replace "\n".toList " ".toList v := by
  induction u with
  | nil => rfl
  | cons c u ih =>
    by_cases hc : c = '\n'
    · subst hc
      have hhit (w : Text) : replace "\n".toList " ".toList ('\n' :: w) =
          ' ' :: replace "\n".toList " ".toList w := replace_hit (by decide) w
      rw [List.cons_append, hhit, hhit, ih, List.cons_append]
    · have hmiss (w : Text) : replace "\n".toList " ".toList (c :: w) =
          c :: replace "\n".toList " ".toList w := by
        refine replace_miss fun hpre => ?_
        exact hc (List.cons_prefix_cons.mp hpre).1.symm
      rw [List.cons_append, hmiss, hmiss, ih, List.cons_append]

theorem replace_newline_blank {ws : Text} (h : Blank ws) :
    Blank (replace "\n".toList " ".toList ws) := by
  induction ws with
  | nil => exact h
  | cons c ws ih =>
    obtain ⟨hc, hws⟩ := List.forall_mem_cons.mp h
    have hsplit := replace_newline_append [c] ws
    rw [List.singleton_append] at hsplit
    rw [hsplit]
    refine List.forall_mem_append.mpr ⟨?_, ih hws⟩
    by_cases hn : c = '\n'
    · subst hn
      decide
    · have hself : replace "\n".toList " ".toList [c] = [c] :=
        replace_miss fun hpre => hn (List.cons_prefix_cons.mp hpre).1.symm
      rw [hself]
      exact List.forall_mem_singleton.mpr hc

/-! ## The next anchor -/

theorem stripTags_append (inTag : Bool) (u v : Text) :
    stripTags inTag (u ++ '<' :: v) = stripTags inTag u ++ stripTags true v := by
  induction u generalizing inTag with
  | nil => rfl
  | cons c u ih =>
    rw [List.cons_append, stripTags, stripTags]
    split_ifs
    · exact ih true
    · rw [ih false, List.cons_append]
    · exact ih inTag
    · rw [ih inTag, List.cons_append]

theorem length_stripTags_le (inTag : Bool) (t : Text) :
    (stripTags inTag t).length ≤ t.length := by
  induction t generalizing inTag with
  | nil => exact le_rfl
  | cons c t ih =>
    rw [stripTags, List.length_cons]
    split_ifs
    · exact (ih true).trans (Nat.le_succ _)
    · rw [List.length_cons]
      exact Nat.succ_le_succ (ih false)
    · exact (ih inTag).trans (Nat.le_succ _)
    · rw [List.length_cons]
      exact Nat.succ_le_succ (ih inTag)

/-- A tag that is open shows nothing, or ends with a blank. -/
theorem stripTags_open (t : Text) : stripTags true t = [] ∨
    ∃ z, stripTags true t = ' ' :: z ∧ z.length < t.length := by
  induction t with
  | nil => exact Or.inl rfl
  | cons c t ih =>
    have hrest : stripTags true t = [] ∨
        ∃ z, stripTags true t = ' ' :: z ∧ z.length < t.length + 1 :=
      ih.imp_right fun ⟨z, hz, hlt⟩ => ⟨z, hz, hlt.trans (Nat.lt_succ_self _)⟩
    rw [stripTags, List.length_cons]
    split_ifs
    · exact hrest
    · exact Or.inr ⟨_, rfl, Nat.lt_succ_of_le (length_stripTags_le false t)⟩
    · exact hrest
    · rename_i hclosed
      exact absurd rfl hclosed

/-- The text of a row that nothing visible follows. -/
def shownText (own : Text) : Text := replace "\n".toList " ".toList (stripHtml own)

section
variable {own : Text}

theorem rowText_near (hn : own.length < 397) (rest : Text) :
    rowText (own ++ ("<a ".toList ++ rest)) = replace "\n".toList " ".toList (decodeEntities
      (trim (stripTags false own ++ stripTags true (rest.take (397 - own.length))))) := by
  have htake : (own ++ ("<a ".toList ++ rest)).take 400 =
      own ++ '<' :: ('a' :: ' ' :: rest.take (397 - own.length)) := by
    rw [List.take_append, List.take_of_length_le (by omega)]
    have hroom : 400 - own.length = 397 - own.length + 3 := by omega
    rw [hroom]
    rfl
  unfold rowText stripHtml
  rw [htake, stripTags_append]
  rfl

theorem ownText_eq (own : Text) : ∃ ws, Blank ws ∧ ownText own = shownText own ++ ws := by
  obtain ⟨ws, hws, hsplit⟩ := exists_blank (trimStart isWhitespace (stripTags false own))
  refine ⟨replace "\n".toList " ".toList ws, replace_newline_blank hws, ?_⟩
  unfold ownText shownText stripHtml trim
  conv_lhs => rw [hsplit]
  rw [decodeEntities_blank hws, replace_newline_append]

theorem trim_row_blank {t : Text} (h : Blank t) (z : Text) : trim (t ++ ' ' :: z) = trim z := by
  have hblank : Blank (t ++ [' ']) :=
    List.forall_mem_append.mpr ⟨h, List.forall_mem_singleton.mpr (by decide)⟩
  rw [List.append_cons]
  unfold trim
  rw [trimStart_of_blank hblank]

theorem trim_row {t z : Text} (ht : ¬Blank t) (hz : ¬Blank z) :
    trim (t ++ ' ' :: z) = trimStart isWhitespace t ++ ' ' :: trimEnd isWhitespace z := by
  unfold trim
  rw [trimStart_append ht, List.append_cons, trimEnd_append hz, ← List.append_cons]

theorem length_visible_le (t : Text) :
    (replace "\n".toList " ".toList (decodeEntities t)).length ≤ t.length :=
  (length_replace_le (by decide) (by decide) _).trans (length_decodeEntities_le t)

/-- A row is followed by nothing that shows, or by a blank and some of the window's room. -/
theorem rowText_cases (hn : own.length < 397) (rest : Text) :
    rowText (own ++ ("<a ".toList ++ rest)) = shownText own ∨
    own.length < 396 ∧ ∃ z, z.length + own.length < 397 ∧
      (rowText (own ++ ("<a ".toList ++ rest)) = ownText own ++ ' ' :: z ∨
        ownText own = [] ∧ rowText (own ++ ("<a ".toList ++ rest)) = z) := by
  rw [rowText_near hn]
  obtain hnone | ⟨z, hz, hlt⟩ := stripTags_open (rest.take (397 - own.length))
  · left
    rw [hnone, List.append_nil]
    rfl
  rw [hz]
  have hroom : z.length + own.length < 397 := by
    rw [List.length_take] at hlt
    omega
  by_cases hblank : Blank z
  · left
    rw [trim_of_blank (List.forall_mem_cons.mpr ⟨by decide, hblank⟩)]
    rfl
  right
  have hne : z ≠ [] := fun hnil => hblank (by rw [hnil]; exact List.forall_mem_nil _)
  have hpos := List.length_pos_iff.mpr hne
  refine ⟨by omega, ?_⟩
  by_cases hown : Blank (stripTags false own)
  · rw [trim_row_blank hown]
    refine ⟨_, ?_, Or.inr ⟨?_, rfl⟩⟩
    · have hvisible := length_visible_le (trim z)
      have htrim := (infix_trim z).length_le
      omega
    · unfold ownText
      rw [trimStart_eq_nil.mpr hown]
      rfl
  · rw [trim_row hown hblank, decodeEntities_split (by decide), replace_newline_append]
    refine ⟨replace "\n".toList " ".toList (decodeEntities (trimEnd isWhitespace z)), ?_, Or.inl ?_⟩
    · have hvisible := length_visible_le (trimEnd isWhitespace z)
      have htrim := (List.rdropWhile_prefix isWhitespace z).length_le
      unfold trimEnd at hvisible ⊢
      omega
    · exact congrArg (ownText own ++ ·)
        (replace_newline_append [' '] (decodeEntities (trimEnd isWhitespace z)))

/-- Behind the window's end nothing is read. -/
theorem rowText_far (hn : 396 ≤ own.length) (rest rest' : Text) :
    rowText (own ++ ("<a ".toList ++ rest)) = rowText (own ++ ("<a ".toList ++ rest')) := by
  rcases hn.lt_or_eq with hlt | heq
  · have hlen : 400 ≤ (own ++ "<a ".toList).length := by
      rw [List.length_append]
      have hopen : "<a ".toList.length = 3 := rfl
      omega
    unfold rowText
    rw [← List.append_assoc, ← List.append_assoc, List.take_append_of_le_length hlen,
      List.take_append_of_le_length hlen]
  · have hshown (rest : Text) : rowText (own ++ ("<a ".toList ++ rest)) = shownText own :=
      (rowText_cases (by omega) rest).resolve_right fun h => by omega
    rw [hshown, hshown]

/-- Text that is scanned as it is. -/
structure Verbatim (z : Text) : Prop where
  tags : stripTags false z = z
  entities : decodeEntities z = z
  newlines : replace "\n".toList " ".toList z = z
  start : trimStart isWhitespace z = z
  finish : trimEnd isWhitespace z = z

theorem rowText_verbatim {z : Text} (hz : Verbatim z) (hne : z ≠ [])
    (hroom : z.length + own.length < 397) :
    rowText (own ++ ("<a ".toList ++ '>' :: z)) = ownText own ++ ' ' :: z ∨
      ownText own = [] ∧ rowText (own ++ ("<a ".toList ++ '>' :: z)) = z := by
  rw [rowText_near (by omega), List.take_of_length_le (by rw [List.length_cons]; omega)]
  have hopen : stripTags true ('>' :: z) = ' ' :: z := by
    rw [stripTags, hz.tags]
    rfl
  rw [hopen]
  have hblank : ¬Blank z := fun h => hne (hz.start.symm.trans (trimStart_eq_nil.mpr h))
  by_cases hown : Blank (stripTags false own)
  · right
    constructor
    · unfold ownText
      rw [trimStart_eq_nil.mpr hown]
      rfl
    · rw [trim_row_blank hown, trim, hz.start, hz.finish, hz.entities, hz.newlines]
  · left
    rw [trim_row hown hblank, hz.finish, decodeEntities_split (by decide), replace_newline_append,
      hz.entities]
    have hspace := replace_newline_append [' '] z
    rw [hz.newlines] at hspace
    exact congrArg (ownText own ++ ·) hspace

end

/-! ## The size -/

/-- A token at which the scan for a size ends. -/
def Settles (ext : Externals) (tok : Text) : Prop :=
  tok = "-".toList ∨ tok = "—".toList ∨ parseSizeToken ext tok ≠ none

/-- The scan for a size ends in the text. -/
def SizeSettled (ext : Externals) (t : Text) : Prop :=
  ∃ tok ∈ splitWhitespace t, Settles ext tok

section
variable {ext : Externals} {own : Text} {toks : List Text}

theorem findSizeIn_settled (h : ∃ tok ∈ toks, Settles ext tok) (toks' : List Text) :
    findSizeIn ext (toks ++ toks') = findSizeIn ext toks := by
  induction toks with
  | nil =>
    obtain ⟨tok, hmem, -⟩ := h
    cases hmem
  | cons tok toks ih =>
    rw [List.cons_append, findSizeIn, findSizeIn]
    split
    · rfl
    · rename_i hdash
      cases hsize : parseSizeToken ext tok with
      | some size => rfl
      | none =>
        apply congrArg (Option.or none)
        apply ih
        obtain ⟨other, hmem, hsettles⟩ := h
        rcases List.mem_cons.mp hmem with rfl | hmem
        · rcases hsettles with hd | hd | hd
          · exact absurd (Or.inl hd) hdash
          · exact absurd (Or.inr hd) hdash
          · exact absurd hsize hd
        · exact ⟨other, hmem, hsettles⟩

theorem findSizeIn_open (h : ∀ tok ∈ toks, ¬Settles ext tok) (toks' : List Text) :
    findSizeIn ext (toks ++ toks') = findSizeIn ext toks' := by
  induction toks with
  | nil => rfl
  | cons tok toks ih =>
    obtain ⟨htok, htoks⟩ := List.forall_mem_cons.mp h
    have hdash : ¬(tok = "-".toList ∨ tok = "—".toList) := fun hd =>
      htok (hd.imp_right Or.inl)
    have hsize : parseSizeToken ext tok = none := by
      by_contra hsome
      exact htok (Or.inr (Or.inr hsome))
    rw [List.cons_append, findSizeIn, if_neg hdash, hsize, ih htoks]
    rfl

theorem findSize_shown (own : Text) :
    findSize ext (shownText own) = findSize ext (ownText own) := by
  obtain ⟨ws, hws, hsplit⟩ := ownText_eq own
  unfold findSize
  rw [hsplit, splitWhitespace_of_blank hws]

/-- A row that settles its size keeps it. -/
theorem findSize_settled (hn : own.length < 397) (h : SizeSettled ext (ownText own))
    (rest : Text) :
    findSize ext (rowText (own ++ ("<a ".toList ++ rest))) = findSize ext (ownText own) := by
  obtain heq | ⟨-, z, -, heq | ⟨hnil, -⟩⟩ := rowText_cases hn rest
  · rw [heq, findSize_shown]
  · rw [heq, findSize, splitWhitespace_split (by decide), findSizeIn_settled h]
    rfl
  · rw [hnil] at h
    obtain ⟨tok, hmem, -⟩ := h
    cases hmem

theorem rowText_nil (hn : own.length < 397) :
    rowText (own ++ ("<a ".toList ++ [])) = shownText own := by
  rw [rowText_near hn, List.take_nil]
  show replace _ _ (decodeEntities (trim (stripTags false own ++ []))) = _
  rw [List.append_nil]
  rfl

/-- A row that leaves its size open takes that of the text behind it. -/
theorem findSize_open (hone : ext.scaleSize "1".toList 1 ≠ none) (hn : own.length < 396)
    (h : ¬SizeSettled ext (ownText own)) :
    findSize ext (rowText (own ++ ("<a ".toList ++ []))) ≠
      findSize ext (rowText (own ++ ("<a ".toList ++ ">1".toList))) := by
  have hopen : ∀ tok ∈ splitWhitespace (ownText own), ¬Settles ext tok := by
    intro tok hmem hsettles
    exact h ⟨tok, hmem, hsettles⟩
  have hleft : findSize ext (rowText (own ++ ("<a ".toList ++ []))) = none := by
    rw [rowText_nil (by omega), findSize_shown, findSize,
      ← List.append_nil (splitWhitespace (ownText own)), findSizeIn_open hopen]
    rfl
  have hnumber : findSize ext "1".toList = ext.scaleSize "1".toList 1 := by
    have htoks : splitWhitespace "1".toList = ["1".toList] := by decide
    rw [findSize, htoks, findSizeIn, if_neg (by decide)]
    show (ext.scaleSize "1".toList 1).or none = _
    exact Option.or_none
  have hverbatim : Verbatim "1".toList := by
    constructor <;> decide
  have hright : findSize ext (rowText (own ++ ("<a ".toList ++ ">1".toList))) =
      ext.scaleSize "1".toList 1 := by
    have hroom : "1".toList.length + own.length < 397 := by
      show 1 + own.length < 397
      omega
    rcases rowText_verbatim hverbatim (by decide) hroom with heq | ⟨-, heq⟩
    · refine (congrArg (findSize ext) heq).trans ?_
      rw [findSize, splitWhitespace_split (by decide), findSizeIn_open hopen, ← hnumber]
      rfl
    · exact (congrArg (findSize ext) heq).trans hnumber
  rw [hleft, hright]
  exact hone.symm

end

/-! ## Bytes of a stamp -/

/-- ASCII, and no space. -/
def Solid (bytes : Bytes) : Prop := ∀ b ∈ bytes, b < 0x80 ∧ b ≠ 0x20

/-- The day of a stamp, up to the space. -/
def dayPart (d : DateTime) (mon : Text) : Bytes :=
  digits d.day ++ 0x2d :: encode mon ++ 0x2d :: digits (d.year / 100) ++ digits (d.year % 100)

theorem stamp_eq (d : DateTime) (mon : Text) (colon : UInt8) : stamp d mon colon =
    dayPart d mon ++ 0x20 :: (digits d.hour ++ colon :: digits d.minute) := by
  simp [stamp, dayPart]

theorem solid_digits {n : ℕ} (h : n < 100) : Solid (digits n) := by
  have hdigit {m : ℕ} (hm : m < 10) :
      UInt8.ofNat (0x30 + m) < 0x80 ∧ UInt8.ofNat (0x30 + m) ≠ 0x20 := by
    rw [UInt8.lt_iff_toNat_lt, ne_eq, ← UInt8.toNat_inj, toNat_byte (by omega)]
    simp only [UInt8.reduceToNat]
    omega
  unfold digits Solid
  rw [List.forall_mem_cons, List.forall_mem_singleton]
  exact ⟨hdigit (by omega), hdigit (by omega)⟩

theorem solid_month {mon : Text} (h : toAsciiLowercase mon ∈ months) : Solid (encode mon) := by
  obtain ⟨-, hascii⟩ := ascii_of_month h
  have hspace : ∀ name ∈ months, ' ' ∉ name := by decide
  intro b hb
  rw [encode_ascii hascii] at hb
  obtain ⟨c, hc, rfl⟩ := List.mem_map.mp hb
  have hlt := hascii c hc
  rw [UInt8.lt_iff_toNat_lt, ne_eq, ← UInt8.toNat_inj, toNat_byte (by omega)]
  refine ⟨hlt, fun heq => hspace _ h ?_⟩
  have hblank : c = ' ' := Char.ext (UInt32.toNat_inj.mp heq)
  subst hblank
  exact List.mem_map.mpr ⟨' ', hc, rfl⟩

/-- What a stamp is made of: only its colon is free. -/
structure StampParts (d : DateTime) (mon : Text) : Prop where
  length : (dayPart d mon).length = 11
  day : Solid (dayPart d mon)
  hour : Solid (digits d.hour)
  minute : Solid (digits d.minute)

theorem stampParts {d : DateTime} {mon : Text} (hd : d.Valid)
    (hm : months[d.month - 1]? = some (toAsciiLowercase mon)) : StampParts d mon := by
  obtain ⟨hyear, -, ⟨-, hday⟩, hhour, hminute, -⟩ := hd
  have hmem := List.mem_of_getElem? hm
  obtain ⟨hlen, hascii⟩ := ascii_of_month hmem
  have hdays := daysInMonth_le d.year d.month
  have hdash : (0x2d : UInt8) < 0x80 ∧ (0x2d : UInt8) ≠ 0x20 := by decide
  refine ⟨?_, ?_, solid_digits (by omega), solid_digits (by omega)⟩
  · simp [dayPart, digits, encode_ascii hascii, hlen]
  · unfold dayPart Solid
    simp only [List.forall_mem_append, List.forall_mem_cons]
    exact ⟨⟨⟨solid_digits (by omega), hdash, solid_month hmem⟩, hdash, solid_digits (by omega)⟩,
      solid_digits (by omega)⟩

/-- A space in a stamp stands behind the day or for the colon. -/
theorem space_of_stamp {d : DateTime} {mon : Text} {colon : UInt8} {k : ℕ}
    (h : StampParts d mon) (hk : (stamp d mon colon)[k]? = some 0x20) : k = 11 ∨ k = 14 := by
  have hnot {bytes : Bytes} (hs : Solid bytes) (i : ℕ) : bytes[i]? ≠ some 0x20 := fun hi =>
    (hs _ (List.mem_of_getElem? hi)).2 rfl
  rw [stamp_eq, List.getElem?_append] at hk
  split at hk
  · exact absurd hk (hnot h.day k)
  rw [h.length] at hk
  obtain ⟨m, rfl⟩ : ∃ m, k = 11 + m := ⟨k - 11, by have := h.length; omega⟩
  rw [Nat.add_sub_cancel_left] at hk
  match m with
  | 0 => exact Or.inl rfl
  | m + 1 =>
    rw [List.getElem?_cons_succ, List.getElem?_append] at hk
    split at hk
    · exact absurd hk (hnot h.hour m)
    · rename_i hge
      have hlen : (digits d.hour).length = 2 := rfl
      rw [hlen] at hge hk
      obtain ⟨n, rfl⟩ : ∃ n, m = 2 + n := ⟨m - 2, by omega⟩
      rw [Nat.add_sub_cancel_left] at hk
      match n with
      | 0 => exact Or.inr rfl
      | n + 1 => exact absurd hk (hnot h.minute n)

/-! ## Characters of a stamp -/

theorem encode_eq_ascii {z : Text} {h rest : Bytes} (hh : ∀ b ∈ h, b < 0x80)
    (he : encode z = h ++ rest) : ∃ z', h.length + z'.length = z.length ∧ encode z' = rest := by
  induction h generalizing z with
  | nil => exact ⟨z, Nat.zero_add _, he⟩
  | cons b h ih =>
    obtain ⟨hb, hrest⟩ := List.forall_mem_cons.mp hh
    cases z with
    | nil => cases he
    | cons c z =>
      obtain ⟨x, enc, henc⟩ := List.exists_cons_of_ne_nil (String.utf8EncodeChar_ne_nil (c := c))
      rw [encode_cons] at he
      have hx : x = b := by
        rw [henc] at he
        exact (List.cons.inj he).1
      subst hx
      have hone := utf8EncodeChar_high (c := c) (by rw [henc]; exact List.mem_cons_self) hb
      rw [hone] at he
      obtain ⟨z', hlen, hz'⟩ := ih hrest (List.cons.inj he).2
      refine ⟨z', ?_, hz'⟩
      rw [List.length_cons, List.length_cons]
      omega

/-- A byte that is not ASCII is not alone. -/
theorem ascii_before_ascii {z : Text} {x b : UInt8} {rest : Bytes} (hb : b < 0x80)
    (he : encode z = x :: b :: rest) : x < 0x80 := by
  cases z with
  | nil => cases he
  | cons c z =>
    by_contra hx
    rw [encode_cons] at he
    have hhigh : ∀ y ∈ String.utf8EncodeChar c, ¬y < 0x80 := by
      intro y hy hlt
      have hone := utf8EncodeChar_high hy hlt
      rw [hone] at he
      exact hx ((List.cons.inj he).1 ▸ hlt)
    have hlong : ∃ u v w, String.utf8EncodeChar c = u :: v :: w := by
      clear he
      unfold String.utf8EncodeChar at hhigh ⊢
      dsimp only at hhigh ⊢
      split_ifs at hhigh ⊢ with hone
      · refine absurd ?_ (hhigh _ (List.mem_singleton_self _))
        rw [UInt8.lt_iff_toNat_lt, toNat_byte (by omega)]
        exact Nat.lt_succ_of_le hone
      · exact ⟨_, _, _, rfl⟩
      · exact ⟨_, _, _, rfl⟩
      · exact ⟨_, _, _, rfl⟩
    obtain ⟨u, v, w, henc⟩ := hlong
    rw [henc] at he hhigh
    have hv : v = b := (List.cons.inj (List.cons.inj he).2).1
    exact hhigh v (by simp) (hv ▸ hb)

/-- The time of day and what follows it take a character for each byte. -/
theorem length_of_time {z : Text} {hour minute rest : Bytes} {colon : UInt8}
    (hh : ∀ b ∈ hour, b < 0x80) (hm : ∀ b ∈ minute, b < 0x80) (hne : minute ≠ [])
    (hrest : rest ≠ []) (he : encode z = hour ++ colon :: (minute ++ rest)) :
    hour.length + minute.length + 2 ≤ z.length := by
  obtain ⟨u, hu, heu⟩ := encode_eq_ascii hh he
  obtain ⟨b, minute, rfl⟩ := List.exists_cons_of_ne_nil hne
  have hcolon : colon < 0x80 := ascii_before_ascii (hm b List.mem_cons_self) heu
  have hall : ∀ y ∈ colon :: b :: minute, y < 0x80 := List.forall_mem_cons.mpr ⟨hcolon, hm⟩
  obtain ⟨v, hv, hev⟩ := encode_eq_ascii hall heu
  have hpos : v ≠ [] := by
    rintro rfl
    exact hrest hev.symm
  have hlen := List.length_pos_iff.mpr hpos
  simp only [List.length_cons] at hv ⊢
  omega

theorem length_of_minute {z : Text} {minute rest : Bytes} (hm : ∀ b ∈ minute, b < 0x80)
    (hrest : rest ≠ []) (he : encode z = minute ++ rest) : minute.length + 1 ≤ z.length := by
  obtain ⟨v, hv, hev⟩ := encode_eq_ascii hm he
  have hpos : v ≠ [] := by
    rintro rfl
    exact hrest hev.symm
  have hlen := List.length_pos_iff.mpr hpos
  omega

/-- A stamp with text behind it is 18 characters at least. -/
theorem length_of_stamp {z : Text} {d : DateTime} {mon : Text} {colon : UInt8} {p q : Bytes}
    (h : StampParts d mon) (hq : q ≠ []) (he : encode z = p ++ (stamp d mon colon ++ q)) :
    18 ≤ z.length := by
  obtain ⟨b, day, hday⟩ : ∃ b day, dayPart d mon = b :: day :=
    List.exists_cons_of_length_pos (by rw [h.length]; omega)
  have hget : (encode z)[p.length]? = some b := by
    rw [he, List.getElem?_append_right le_rfl, Nat.sub_self, stamp_eq, hday]
    rfl
  have hb := h.day b (by rw [hday]; exact List.mem_cons_self)
  obtain ⟨u, c, v, rfl, hu, -⟩ := exists_char_of_ascii hget hb.1
  rw [encode_append] at he
  obtain ⟨-, htail⟩ := List.append_inj he hu
  have hascii : ∀ y ∈ dayPart d mon ++ 0x20 :: digits d.hour, y < 0x80 := by
    intro y hy
    rw [List.mem_append, List.mem_cons] at hy
    rcases hy with hy | rfl | hy
    · exact (h.day y hy).1
    · decide
    · exact (h.hour y hy).1
  have hsplit : encode (c :: v) = (dayPart d mon ++ 0x20 :: digits d.hour) ++
      colon :: (digits d.minute ++ q) := by
    rw [htail, stamp_eq]
    simp
  have hlong := length_of_time hascii (fun y hy => (h.minute y hy).1) (List.cons_ne_nil _ _) hq
    hsplit
  have hhour : (digits d.hour).length = 2 := rfl
  have hminute : (digits d.minute).length = 2 := rfl
  rw [List.length_append, h.length, List.length_cons, hhour, hminute] at hlong
  rw [List.length_append]
  omega

/-! ## Dates that begin in a row -/

/-- The first look-alike is a stamp. -/
def ShowsDate (bytes : Bytes) : Prop :=
  ∃ i colon d, IsStamp colon (window bytes i) d ∧ ∀ j < i, ¬Looks (window bytes j)

/-- What a row may lack of a date: nothing, the minute, the time of day or all of it. -/
def endings : List Text :=
  [" ".toList, " 00".toList, " 00:00".toList, " 01-Jan-2000 00:00".toList]

/-- The scan for a date ends before the end of the row; or the row, with an ending of a date that
the window has room for, shows none. -/
def DateSettled (own : Text) : Prop :=
  (∃ i, Stops (encode (shownText own)) i) ∨
    ∀ s ∈ endings, s.length + own.length < 397 → ¬ShowsDate (encode (ownText own) ++ encode s)

section
variable {bytes rest : Bytes} {i j : ℕ}

theorem looks_iff : Looks (window bytes i) ↔ bytes.getD (i + 2) 0 = 0x2d ∧
    bytes.getD (i + 6) 0 = 0x2d ∧ bytes.getD (i + 11) 0 = 0x20 := by
  unfold window
  rw [looks_take]
  simp [Looks, List.getD_eq_getElem?_getD, List.getElem?_drop]

/-- What looks like a stamp depends on twelve bytes. -/
theorem looks_congr {rest' : Bytes} (h : i + 12 ≤ bytes.length) :
    Looks (window (bytes ++ rest) i) ↔ Looks (window (bytes ++ rest') i) := by
  have hget {k : ℕ} (hk : k < bytes.length) (t : Bytes) : (bytes ++ t).getD k 0 = bytes.getD k 0 :=
    List.getD_append bytes t 0 k hk
  rw [looks_iff, looks_iff, hget (by omega), hget (by omega), hget (by omega), hget (by omega),
    hget (by omega), hget (by omega)]

theorem window_append (h : i + 17 ≤ bytes.length) : window (bytes ++ rest) i = window bytes i := by
  unfold window
  rw [List.drop_append_of_le_length (by omega), List.take_append_of_le_length]
  rw [List.length_drop]
  omega

theorem ShowsDate.append (h : ShowsDate bytes) (rest : Bytes) : ShowsDate (bytes ++ rest) := by
  obtain ⟨i, colon, d, hstamp, hfirst⟩ := h
  have hinside := inside_of_isStamp hstamp
  refine ⟨i, colon, d, by rwa [window_append hinside], fun j hj => ?_⟩
  rw [window_append (by omega)]
  exact hfirst j hj

/-- A look-alike that more text follows ends the scan. -/
theorem findDateFrom_of_shows (h : ShowsDate bytes) (hrest : rest ≠ []) :
    findDateFrom (bytes ++ rest) ≠ none := by
  obtain ⟨i, colon, d, hstamp, hfirst⟩ := h
  have hinside := inside_of_isStamp hstamp
  have hpos := List.length_pos_iff.mpr hrest
  have hwin : window (bytes ++ rest) i = window bytes i := window_append hinside
  have hstops : Stops (bytes ++ rest) i := by
    refine ⟨by rw [List.length_append]; omega, ?_⟩
    rw [hwin]
    exact (reads_of_isStamp hstamp).1
  have hread := findDateFrom_of_stops hstops fun j hj hstop => by
    have hlooks := hstop.2
    rw [window_append (by omega)] at hlooks
    exact hfirst j hj hlooks
  rw [hread, hwin, (reads_of_isStamp hstamp).2]
  exact Option.some_ne_none d

/-- Text behind the end of the scan is not read. -/
theorem findDateFrom_append (h : ∃ i, Stops bytes i) (rest : Bytes) :
    findDateFrom (bytes ++ rest) = findDateFrom bytes := by
  obtain ⟨i, hstop, hfirst⟩ := exists_first_stop h
  have hlen := hstop.1
  have hwin : window (bytes ++ rest) i = window bytes i := window_append (by omega)
  have hstop' : Stops (bytes ++ rest) i := by
    refine ⟨by rw [List.length_append]; omega, ?_⟩
    rw [hwin]
    exact hstop.2
  rw [findDateFrom_of_stops hstop hfirst, ← hwin]
  refine findDateFrom_of_stops hstop' fun j hj hother => hfirst j hj ⟨by omega, ?_⟩
  have hlooks := hother.2
  rwa [window_append (by omega)] at hlooks

/-- A date that is found is a stamp with text behind it. -/
theorem found_stamp {d : DateTime} (h : findDateFrom bytes = some d) :
    ∃ p q mon colon, bytes = p ++ (stamp d mon colon ++ q) ∧ q ≠ [] ∧ d.Valid ∧
      months[d.month - 1]? = some (toAsciiLowercase mon) ∧
      ∀ j < p.length, ¬Looks (window bytes j) := by
  have hstops : ∃ i, Stops bytes i := by
    by_contra hno
    rw [findDateFrom_of_no_stop fun i hi => hno ⟨i, hi⟩] at h
    cases h
  obtain ⟨i, hstop, hfirst⟩ := exists_first_stop hstops
  rw [findDateFrom_of_stops hstop hfirst] at h
  have hlen := hstop.1
  have hwin : (window bytes i).length = 17 := by
    unfold window
    rw [List.length_take, List.length_drop]
    omega
  obtain ⟨hvalid, mon, hmon, hstamp⟩ := (dateAt_iff hwin).mp ⟨hstop.2, h⟩
  refine ⟨bytes.take i, bytes.drop (i + 17), mon, (window bytes i).getD 14 0, ?_, ?_, hvalid, hmon,
    ?_⟩
  · rw [← hstamp, window, ← List.drop_drop, List.take_append_drop, List.take_append_drop]
  · intro hnil
    have hzero := congrArg List.length hnil
    rw [List.length_drop, List.length_nil] at hzero
    omega
  · intro j hj hlooks
    rw [List.length_take] at hj
    exact hfirst j (by omega) ⟨by omega, hlooks⟩

end

/-! ## Rows whose date is settled -/

theorem isStamp_minute {d : DateTime} {mon : Text} (hd : d.Valid)
    (hm : months[d.month - 1]? = some (toAsciiLowercase mon)) :
    IsStamp 0x20 (dayPart d mon ++ 0x20 :: digits d.hour ++ encode " 00".toList)
      { d with minute := 0 } := by
  obtain ⟨hyear, hmonth, hday, hhour, -, hsecond⟩ := hd
  refine ⟨⟨hyear, hmonth, hday, hhour, Nat.succ_pos 59, hsecond⟩, mon, hm, ?_⟩
  have hending : encode " 00".toList = 0x20 :: digits 0 := by decide +kernel
  rw [stamp_eq, hending, List.append_assoc, List.cons_append]
  rfl

theorem isStamp_time {d : DateTime} {mon : Text} (hd : d.Valid)
    (hm : months[d.month - 1]? = some (toAsciiLowercase mon)) :
    IsStamp 0x3a (dayPart d mon ++ encode " 00:00".toList) { d with hour := 0, minute := 0 } := by
  obtain ⟨hyear, hmonth, hday, -, -, hsecond⟩ := hd
  refine ⟨⟨hyear, hmonth, hday, Nat.succ_pos 23, Nat.succ_pos 59, hsecond⟩, mon, hm, ?_⟩
  have hending : encode " 00:00".toList = 0x20 :: (digits 0 ++ 0x3a :: digits 0) := by
    decide +kernel
  rw [stamp_eq, hending]
  rfl

theorem isStamp_date :
    IsStamp 0x3a (encode "01-Jan-2000 00:00".toList) ⟨2000, 1, 1, 0, 0, 0⟩ := by
  have hvalid : DateTime.Valid ⟨2000, 1, 1, 0, 0, 0⟩ := by
    unfold DateTime.Valid
    decide
  exact ⟨hvalid, "Jan".toList, by decide +kernel, by decide +kernel⟩

section
variable {bytes : Bytes}

theorem shows_of_stamp {p w : Bytes} {colon : UInt8} {d : DateTime} (h : IsStamp colon w d)
    (hfirst : ∀ j < p.length, ¬Looks (window (p ++ w) j)) : ShowsDate (p ++ w) := by
  refine ⟨p.length, colon, d, ?_, hfirst⟩
  unfold window
  rwa [List.drop_left, List.take_of_length_le (length_of_isStamp h).le]

/-- No stamp begins with a space. -/
theorem shows_of_space (h : ShowsDate (0x20 :: bytes)) : ShowsDate bytes := by
  obtain ⟨i, colon, d, hstamp, hfirst⟩ := h
  cases i with
  | zero =>
    obtain ⟨hd, mon, hm, hw⟩ := hstamp
    have hspace : (stamp d mon colon)[0]? = some 0x20 := by
      rw [← hw]
      rfl
    rcases space_of_stamp (stampParts hd hm) hspace with h | h
    · cases h
    · cases h
  | succ i => exact ⟨i, colon, d, hstamp, fun j hj => hfirst (j + 1) (Nat.succ_lt_succ hj)⟩

/-- A whole date fits behind a row that has no look-alike of its own. -/
theorem shows_date (h : ∀ j, j + 11 ≤ bytes.length → ¬Looks (window (bytes ++ [0x20]) j)) :
    ShowsDate (bytes ++ encode " 01-Jan-2000 00:00".toList) := by
  have hending : encode " 01-Jan-2000 00:00".toList =
      0x20 :: encode "01-Jan-2000 00:00".toList := by decide +kernel
  rw [hending, List.append_cons]
  refine shows_of_stamp isStamp_date fun j hj hlooks => ?_
  rw [List.length_append, List.length_singleton] at hj
  rcases Nat.lt_or_ge bytes.length (j + 11) with hlt | hle
  · have hthird := (looks_iff.mp hlooks).2.2
    obtain ⟨m, hm⟩ : ∃ m, j + 11 = bytes.length + m := ⟨j + 11 - bytes.length, by omega⟩
    rw [hm, ← List.append_cons, List.getD_append_right _ _ _ _ (Nat.le_add_right _ _),
      Nat.add_sub_cancel_left, ← hending] at hthird
    have hnone : ∀ m < 12, m ≠ 0 → (encode " 01-Jan-2000 00:00".toList).getD m 0 ≠ 0x20 := by
      decide +kernel
    exact hnone m (by omega) (by omega) hthird
  · have hlen : j + 12 ≤ (bytes ++ [0x20]).length := by
      rw [List.length_append, List.length_singleton]
      omega
    apply h j hle
    rw [← List.append_nil (bytes ++ [0x20])]
    exact (looks_congr hlen).mp hlooks

end

section
variable {bytes p q : Bytes} {d : DateTime} {mon : Text} {colon : UInt8} {z : Text}

/-- Whatever stands behind the row, it has the same look-alikes. -/
theorem looks_before {rest : Bytes} (hp : p.length + 11 ≤ bytes.length)
    (hfirst : ∀ j < p.length, ¬Looks (window (bytes ++ rest) j)) (t : Bytes) :
    ∀ j < p.length, ¬Looks (window (bytes ++ t) j) := by
  intro j hj hlooks
  exact hfirst j hj ((looks_congr (by omega)).mp hlooks)

/-- A date that begins behind the row is as long as a whole one. -/
theorem completed_behind (hd : StampParts d mon) (hq : q ≠ []) (hlt : bytes.length < p.length)
    (hsplit : bytes ++ 0x20 :: encode z = p ++ (stamp d mon colon ++ q))
    (hfirst : ∀ j < p.length, ¬Looks (window (bytes ++ 0x20 :: encode z) j)) :
    18 ≤ z.length ∧ ShowsDate (bytes ++ encode " 01-Jan-2000 00:00".toList) := by
  obtain ⟨p', rfl⟩ : ∃ p', p = bytes ++ 0x20 :: p' := by
    have hblank : bytes ++ [0x20] <+: p ++ (stamp d mon colon ++ q) :=
      hsplit ▸ ⟨encode z, (List.append_cons bytes 0x20 (encode z)).symm⟩
    have hshort : (bytes ++ [0x20]).length ≤ p.length := by
      rw [List.length_append, List.length_singleton]
      omega
    obtain ⟨p', hp⟩ := List.prefix_of_prefix_length_le hblank (List.prefix_append _ _) hshort
    exact ⟨p', by rw [← hp, ← List.append_cons]⟩
  rw [List.append_assoc, List.cons_append, List.append_cancel_left_eq, List.cons.injEq] at hsplit
  refine ⟨length_of_stamp hd hq hsplit.2, shows_date ?_⟩
  intro j hj hlooks
  have hblank : j + 12 ≤ (bytes ++ [0x20]).length := by
    rw [List.length_append, List.length_singleton]
    omega
  refine hfirst j (by omega) ?_
  rw [List.append_cons]
  rw [← List.append_nil (bytes ++ [0x20])] at hlooks
  exact (looks_congr hblank).mp hlooks

/-- A row that ends with the day lacks the time of day. -/
theorem completed_day (hd : d.Valid) (hm : months[d.month - 1]? = some (toAsciiLowercase mon))
    (hq : q ≠ []) (hk : bytes.length = p.length + 11)
    (hsplit : bytes ++ 0x20 :: encode z = p ++ (stamp d mon colon ++ q))
    (hfirst : ∀ j < p.length, ¬Looks (window (bytes ++ 0x20 :: encode z) j)) :
    6 ≤ z.length ∧ ShowsDate (bytes ++ encode " 00:00".toList) := by
  have hparts := stampParts hd hm
  obtain ⟨rfl, htail⟩ : bytes = p ++ dayPart d mon ∧
      0x20 :: encode z = 0x20 :: (digits d.hour ++ colon :: (digits d.minute ++ q)) := by
    apply List.append_inj
    · rw [hsplit, stamp_eq]
      simp
    · rw [hk, List.length_append, hparts.length]
  have hbefore := looks_before hk.ge hfirst (encode " 00:00".toList)
  rw [List.append_assoc] at hbefore ⊢
  exact ⟨length_of_time (fun b hb => (hparts.hour b hb).1) (fun b hb => (hparts.minute b hb).1)
    (List.cons_ne_nil _ _) hq (List.cons.inj htail).2, shows_of_stamp (isStamp_time hd hm) hbefore⟩

/-- A row that ends with the hour lacks the minute. -/
theorem completed_hour (hd : d.Valid) (hm : months[d.month - 1]? = some (toAsciiLowercase mon))
    (hq : q ≠ []) (hk : bytes.length = p.length + 14)
    (hsplit : bytes ++ 0x20 :: encode z = p ++ (stamp d mon colon ++ q))
    (hfirst : ∀ j < p.length, ¬Looks (window (bytes ++ 0x20 :: encode z) j)) :
    3 ≤ z.length ∧ ShowsDate (bytes ++ encode " 00".toList) := by
  have hparts := stampParts hd hm
  obtain ⟨rfl, htail⟩ : bytes = p ++ (dayPart d mon ++ 0x20 :: digits d.hour) ∧
      0x20 :: encode z = colon :: (digits d.minute ++ q) := by
    apply List.append_inj
    · rw [hsplit, stamp_eq]
      simp
    · rw [hk, List.length_append, List.length_append, hparts.length]
      rfl
  have hbefore := looks_before (by omega) hfirst (encode " 00".toList)
  rw [List.append_assoc] at hbefore ⊢
  exact ⟨length_of_minute (fun b hb => (hparts.minute b hb).1) hq (List.cons.inj htail).2,
    shows_of_stamp (isStamp_minute hd hm) hbefore⟩

/-- A row that holds a date lacks nothing of it. -/
theorem completed_whole (hstamp : IsStamp colon (stamp d mon colon) d)
    (hk : p.length + 17 ≤ bytes.length)
    (hsplit : bytes ++ 0x20 :: encode z = p ++ (stamp d mon colon ++ q))
    (hfirst : ∀ j < p.length, ¬Looks (window (bytes ++ 0x20 :: encode z) j)) :
    ShowsDate (bytes ++ encode " ".toList) := by
  have hlen := length_of_isStamp hstamp
  have hwhole : p ++ stamp d mon colon <+: bytes ++ 0x20 :: encode z := by
    rw [hsplit, ← List.append_assoc]
    exact List.prefix_append _ _
  have hshort : (p ++ stamp d mon colon).length ≤ bytes.length := by
    rw [List.length_append]
    omega
  have hbefore := looks_before (by omega) hfirst []
  obtain ⟨w, rfl⟩ := List.prefix_of_prefix_length_le hwhole (List.prefix_append _ _) hshort
  rw [List.append_assoc]
  refine (shows_of_stamp hstamp fun j hj hlooks => hbefore j hj ?_).append _
  rw [List.append_assoc]
  exact (looks_congr (by rw [List.length_append]; omega)).mp
    (by rwa [← List.append_nil (p ++ stamp d mon colon)] at hlooks)

/-- A date that is found in a row and the text behind it was begun in the row, or the text is long
enough for one. -/
theorem completed {room : ℕ} (hroom : 1 ≤ room) (hz : z.length ≤ room)
    (h : findDateFrom (bytes ++ 0x20 :: encode z) = some d) :
    ∃ s ∈ endings, s.length ≤ room ∧ ShowsDate (bytes ++ encode s) := by
  obtain ⟨p, q, mon, colon, hsplit, hq, hd, hm, hfirst⟩ := found_stamp h
  have hparts := stampParts hd hm
  have hstamp : IsStamp colon (stamp d mon colon) d := ⟨hd, mon, hm, rfl⟩
  have hlen := length_of_isStamp hstamp
  rcases Nat.lt_or_ge bytes.length p.length with hlt | hle
  · obtain ⟨hlong, hshows⟩ := completed_behind hparts hq hlt hsplit hfirst
    exact ⟨" 01-Jan-2000 00:00".toList, by simp [endings], hlong.trans hz, hshows⟩
  obtain ⟨k, hk⟩ := Nat.exists_eq_add_of_le hle
  rcases Nat.lt_or_ge k 17 with hlt | hge
  · -- the blank behind the row is one of the two spaces of the stamp
    have hspace : (stamp d mon colon)[k]? = some 0x20 := by
      have hget : (bytes ++ 0x20 :: encode z)[bytes.length]? = some 0x20 := by
        rw [List.getElem?_append_right le_rfl, Nat.sub_self]
        rfl
      rw [hsplit, hk, List.getElem?_append_right (Nat.le_add_right _ _), Nat.add_sub_cancel_left,
        List.getElem?_append_left (by omega)] at hget
      exact hget
    obtain rfl | rfl := space_of_stamp hparts hspace
    · obtain ⟨hlong, hshows⟩ := completed_day hd hm hq hk hsplit hfirst
      exact ⟨" 00:00".toList, by simp [endings], hlong.trans hz, hshows⟩
    · obtain ⟨hlong, hshows⟩ := completed_hour hd hm hq hk hsplit hfirst
      exact ⟨" 00".toList, by simp [endings], hlong.trans hz, hshows⟩
  · exact ⟨" ".toList, by simp [endings], hroom,
      completed_whole hstamp (by omega) hsplit hfirst⟩

end

section
variable {ext : Externals} {own : Text}

theorem findDate_of_no_stop {t : Text} (h : ¬∃ i, Stops (encode t) i) : findDate t = none :=
  findDateFrom_of_no_stop fun i hi => h ⟨i, hi⟩

/-- A row that settles its date keeps it. -/
theorem findDate_settled (hn : own.length < 397) (h : DateSettled own) (rest : Text) :
    findDate (rowText (own ++ ("<a ".toList ++ rest))) = findDate (shownText own) := by
  obtain ⟨ws, -, hown⟩ := ownText_eq own
  obtain heq | ⟨hroom, z, hz, hcase⟩ := rowText_cases hn rest
  · rw [heq]
  by_cases hstop : ∃ i, Stops (encode (shownText own)) i
  · rcases hcase with heq | ⟨hnil, -⟩
    · rw [heq, hown, List.append_assoc, findDate, encode_append, findDateFrom_append hstop]
      rfl
    · rw [hown, List.append_eq_nil_iff] at hnil
      rw [hnil.1] at hstop
      obtain ⟨i, hi, -⟩ := hstop
      exact absurd hi (Nat.not_lt_zero _)
  have hnone := h.resolve_left hstop
  rw [findDate_of_no_stop hstop]
  by_contra hsome
  obtain ⟨d, hd⟩ := Option.ne_none_iff_exists'.mp hsome
  have hends : ∃ s ∈ endings, s.length ≤ 396 - own.length ∧
      ShowsDate (encode (ownText own) ++ encode s) := by
    rcases hcase with heq | ⟨hnil, heq⟩
    · rw [heq, findDate, encode_append] at hd
      exact completed (by omega) (by omega) hd
    · rw [heq] at hd
      obtain ⟨p, q, mon, colon, hsplit, hq, hvalid, hm, -⟩ := found_stamp hd
      have hlong := length_of_stamp (stampParts hvalid hm) hq hsplit
      refine ⟨" 01-Jan-2000 00:00".toList, by simp [endings], ?_, ?_⟩
      · show 18 ≤ 396 - own.length
        omega
      · rw [hnil]
        exact shows_date fun j hj => absurd hj (by simp)
  obtain ⟨s, hs, hlen, hshows⟩ := hends
  exact hnone s hs (by omega) hshows

/-- The text that completes the ending of a date and goes on. -/
theorem verbatim_endings : ∀ s ∈ endings, ∃ z, s = ' ' :: z ∧ Verbatim (z ++ "x".toList) := by
  have hverbatim (z : Text) (h : stripTags false z = z ∧ decodeEntities z = z ∧
      replace "\n".toList " ".toList z = z ∧ trimStart isWhitespace z = z ∧
      trimEnd isWhitespace z = z) : Verbatim z := ⟨h.1, h.2.1, h.2.2.1, h.2.2.2.1, h.2.2.2.2⟩
  unfold endings
  simp only [List.forall_mem_cons]
  exact ⟨⟨[], rfl, hverbatim _ (by decide +kernel)⟩,
    ⟨"00".toList, rfl, hverbatim _ (by decide +kernel)⟩,
    ⟨"00:00".toList, rfl, hverbatim _ (by decide +kernel)⟩,
    ⟨"01-Jan-2000 00:00".toList, rfl, hverbatim _ (by decide +kernel)⟩, List.forall_mem_nil _⟩

/-- A row that leaves its date open takes one from the text behind it. -/
theorem findDate_open (hn : own.length < 396) (h : ¬DateSettled own) :
    ∃ rest, findDate (rowText (own ++ ("<a ".toList ++ []))) ≠
      findDate (rowText (own ++ ("<a ".toList ++ rest))) := by
  unfold DateSettled at h
  rw [not_or] at h
  obtain ⟨hstop, hends⟩ := h
  push Not at hends
  obtain ⟨s, hs, hlen, hshows⟩ := hends
  obtain ⟨z, rfl, hz⟩ := verbatim_endings s hs
  refine ⟨'>' :: (z ++ "x".toList), ?_⟩
  rw [rowText_nil (by omega), findDate_of_no_stop hstop]
  have hroom : (z ++ "x".toList).length + own.length < 397 := by
    rw [List.length_append]
    exact hlen
  apply Ne.symm
  rcases rowText_verbatim hz (by simp) hroom with heq | ⟨hnil, heq⟩
  · have hsplit : ownText own ++ ' ' :: (z ++ "x".toList) =
        ownText own ++ ' ' :: z ++ "x".toList := by simp
    rw [heq, hsplit, findDate, encode_append, encode_append]
    exact findDateFrom_of_shows hshows (by decide)
  · rw [hnil] at hshows
    rw [heq, findDate, encode_append]
    exact findDateFrom_of_shows (shows_of_space hshows) (by decide)

/-- The size and the date of a row are its own exactly when both are settled in it. -/
theorem scanTrailing_own_iff (hone : ext.scaleSize "1".toList 1 ≠ none) (rest : Text) :
    (∀ rest', scanTrailing ext (own ++ ("<a ".toList ++ rest')) =
      scanTrailing ext (own ++ ("<a ".toList ++ rest))) ↔
      396 ≤ own.length ∨ SizeSettled ext (ownText own) ∧ DateSettled own := by
  have hscan (rest : Text) : scanTrailing ext (own ++ ("<a ".toList ++ rest)) =
      (findSize ext (rowText (own ++ ("<a ".toList ++ rest))),
        findDate (rowText (own ++ ("<a ".toList ++ rest)))) := rfl
  simp only [hscan, Prod.mk.injEq]
  constructor
  · intro hall
    by_contra hnot
    rw [not_or, not_and_or] at hnot
    obtain ⟨hn, hopen⟩ := hnot
    have hn' : own.length < 396 := Nat.not_le.mp hn
    rcases hopen with hsize | hdate
    · exact findSize_open hone hn' hsize ((hall _).1.trans (hall _).1.symm)
    · obtain ⟨rest', hne⟩ := findDate_open hn' hdate
      exact hne ((hall _).2.trans (hall _).2.symm)
  · rintro (hfar | ⟨hsize, hdate⟩) rest'
    · rw [rowText_far hfar rest' rest]
      exact ⟨rfl, rfl⟩
    · rcases Nat.lt_or_ge own.length 397 with hn | hfar
      · rw [findSize_settled hn hsize, findSize_settled hn hsize, findDate_settled hn hdate,
          findDate_settled hn hdate]
        exact ⟨rfl, rfl⟩
      · rw [rowText_far (by omega) rest' rest]
        exact ⟨rfl, rfl⟩

end

end Synora.Mirror
