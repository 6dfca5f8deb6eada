import Synora.Lib.Slice
import Synora.Lib.Url
import Synora.Mirror.Taken

namespace Synora.Mirror
open Strings Utf8

/-! ## Percent-encoding -/

/-- `text` is `name` with some of its bytes, and every `%`, written as an escape. -/
inductive Encodes : Bytes → Bytes → Prop
  | nil : Encodes [] []
  | literal {b : UInt8} {text name : Bytes} (hb : b ≠ 0x25) (h : Encodes text name) :
    Encodes (b :: text) (b :: name)
  | escape {hi lo h l : UInt8} {text name : Bytes} (hhi : fromHex hi = some h)
    (hlo : fromHex lo = some l) (ih : Encodes text name) :
    Encodes (0x25 :: hi :: lo :: text) ((h <<< 4 ||| l) :: name)

/-- Two hexadecimal digits. -/
def StartsHex (text : Bytes) : Prop :=
  ∃ hi lo h l rest, text = hi :: lo :: rest ∧ fromHex hi = some h ∧ fromHex lo = some l

/-- No `%` has two hexadecimal digits behind it. -/
def EscapeFree (name : Bytes) : Prop := ∀ u v, name = u ++ 0x25 :: v → ¬StartsHex v

theorem percentDecodeBytes_literal {b : UInt8} (hb : b ≠ 0x25) (rest : Bytes) :
    percentDecodeBytes (b :: rest) = b :: percentDecodeBytes rest := by
  match rest with
  | [] => rfl
  | [_] => rfl
  | hi :: lo :: rest => rw [percentDecodeBytes, if_neg hb]

theorem percentDecodeBytes_escape {hi lo h l : UInt8} (hhi : fromHex hi = some h)
    (hlo : fromHex lo = some l) (rest : Bytes) :
    percentDecodeBytes (0x25 :: hi :: lo :: rest) =
      (h <<< 4 ||| l) :: percentDecodeBytes rest := by
  rw [percentDecodeBytes, if_pos rfl, hhi, hlo]

/-- A `%` that begins no escape stands for itself. -/
theorem percentDecodeBytes_percent {rest : Bytes} (h : ¬StartsHex rest) :
    percentDecodeBytes (0x25 :: rest) = 0x25 :: percentDecodeBytes rest := by
  match rest with
  | [] => rfl
  | [_] => rfl
  | hi :: lo :: rest =>
    rw [percentDecodeBytes, if_pos rfl]
    cases hhi : fromHex hi with
    | none => rfl
    | some a =>
      cases hlo : fromHex lo with
      | none => rfl
      | some b => exact absurd ⟨hi, lo, a, b, rest, rfl, hhi, hlo⟩ h

theorem percentDecodeBytes_append {text : Bytes} (h : 0x25 ∉ text) (rest : Bytes) :
    percentDecodeBytes (text ++ rest) = text ++ percentDecodeBytes rest := by
  induction text with
  | nil => rfl
  | cons b text ih =>
    rw [List.mem_cons, not_or] at h
    obtain ⟨hb, htext⟩ := h
    rw [List.cons_append, percentDecodeBytes_literal (Ne.symm hb), ih htext, List.cons_append]

/-- Decoding undoes encoding. -/
theorem percentDecodeBytes_of_encodes {text name : Bytes} (h : Encodes text name) :
    percentDecodeBytes text = name := by
  induction h with
  | nil => rfl
  | literal hb _ ih => rw [percentDecodeBytes_literal hb, ih]
  | escape hhi hlo _ ih => rw [percentDecodeBytes_escape hhi hlo, ih]

/-- Bytes are taken apart as `percent_decode` reads them. -/
theorem percentDecodeBytes_induction {P : Bytes → Prop} (nil : P [])
    (literal : ∀ b rest, b ≠ 0x25 → P rest → P (b :: rest))
    (escape : ∀ hi lo h l rest, fromHex hi = some h → fromHex lo = some l → P rest →
      P (0x25 :: hi :: lo :: rest))
    (percent : ∀ rest, ¬StartsHex rest → P rest → P (0x25 :: rest)) : ∀ bytes, P bytes := by
  intro bytes
  induction hn : bytes.length using Nat.strong_induction_on generalizing bytes with
  | _ n ih =>
    subst hn
    cases bytes with
    | nil => exact nil
    | cons b rest =>
      by_cases hb : b = 0x25
      · subst hb
        by_cases hesc : StartsHex rest
        · obtain ⟨hi, lo, h, l, u, rfl, hhi, hlo⟩ := hesc
          exact escape hi lo h l u hhi hlo (ih u.length (by simp; omega) u rfl)
        · exact percent rest hesc (ih rest.length (by simp) rest rfl)
      · exact literal b rest hb (ih rest.length (by simp) rest rfl)

/-- No escape reaches over a byte that is no digit. -/
theorem percentDecodeBytes_split {x : UInt8} (hx : fromHex x = none) (u v : Bytes) :
    percentDecodeBytes (u ++ x :: v) = percentDecodeBytes u ++ percentDecodeBytes (x :: v) := by
  induction u using percentDecodeBytes_induction with
  | nil => rfl
  | literal b rest hb ih =>
    rw [List.cons_append, percentDecodeBytes_literal hb, percentDecodeBytes_literal hb, ih,
      List.cons_append]
  | escape hi lo h l rest hhi hlo ih =>
    rw [percentDecodeBytes_escape hhi hlo, List.cons_append, List.cons_append, List.cons_append,
      percentDecodeBytes_escape hhi hlo, ih, List.cons_append]
  | percent rest hesc ih =>
    rw [percentDecodeBytes_percent hesc, List.cons_append, percentDecodeBytes_percent, ih,
      List.cons_append]
    rintro ⟨hi, lo, h, l, w, hw, hhi, hlo⟩
    match rest with
    | [] =>
      obtain ⟨rfl, -⟩ := List.cons.inj hw
      cases hx.symm.trans hhi
    | [y] =>
      obtain ⟨rfl, -⟩ := List.cons.inj (List.cons.inj hw).2
      cases hx.symm.trans hlo
    | y :: z :: rest =>
      obtain ⟨rfl, htail⟩ := List.cons.inj hw
      obtain ⟨rfl, -⟩ := List.cons.inj htail
      exact hesc ⟨y, z, h, l, rest, rfl, hhi, hlo⟩

theorem percentDecodeBytes_slash (u v : Bytes) : percentDecodeBytes (u ++ 0x2f :: v) =
    percentDecodeBytes u ++ 0x2f :: percentDecodeBytes v := by
  rw [percentDecodeBytes_split (by decide), percentDecodeBytes_literal (by decide)]

/-! ## Names that come back -/

/-- A name as it is read from a URL that has it undone from its encoding. -/
def reread (name : Bytes) : Bytes := percentDecodeBytes (reencode name)

theorem lt_of_fromHex {b h : UInt8} (hb : fromHex b = some h) : b < 0x80 := by
  unfold fromHex at hb
  simp only [UInt8.le_iff_toNat_le, UInt8.lt_iff_toNat_lt, UInt8.reduceToNat] at hb ⊢
  split_ifs at hb
  · omega
  · omega
  · omega

/-- A byte that a `%` does not precede and that is ASCII comes back. -/
theorem reread_literal {b : UInt8} (hb : b ≠ 0x25) (hlt : b < 0x80) (rest : Bytes) :
    reread (b :: rest) = b :: reread rest := by
  unfold reread
  rw [reencode_ascii hlt, percentDecodeBytes_literal hb]

theorem reread_escape {hi lo h l : UInt8} (hhi : fromHex hi = some h) (hlo : fromHex lo = some l)
    (rest : Bytes) : reread (0x25 :: hi :: lo :: rest) = (h <<< 4 ||| l) :: reread rest := by
  unfold reread
  rw [reencode_ascii (by decide), reencode_ascii (lt_of_fromHex hhi),
    reencode_ascii (lt_of_fromHex hlo), percentDecodeBytes_escape hhi hlo]

theorem reread_percent {rest : Bytes} (hesc : ¬StartsHex rest) :
    reread (0x25 :: rest) = 0x25 :: reread rest := by
  unfold reread
  rw [reencode_ascii (by decide), percentDecodeBytes_percent]
  rintro ⟨hi, lo, h, l, w, hw, hhi, hlo⟩
  obtain ⟨u, rfl, hu⟩ := of_reencode_eq_cons (lt_of_fromHex hhi) hw
  obtain ⟨v, rfl, -⟩ := of_reencode_eq_cons (lt_of_fromHex hlo) hu.symm
  exact hesc ⟨hi, lo, h, l, v, rfl, hhi, hlo⟩

theorem reread_high {b : UInt8} (hb : ¬b < 0x80) (rest : Bytes) :
    ∃ x u, reread (b :: rest) = x :: u ∧ ¬x < 0x80 := by
  obtain ⟨x, u, hread, hx⟩ := reencode_high hb rest
  have hne : x ≠ 0x25 := by
    rintro rfl
    exact hx (by decide)
  unfold reread
  rw [hread, percentDecodeBytes_literal hne]
  exact ⟨x, _, rfl, hx⟩

/-- Once ASCII is missing, something is missing to the end: an escape gives one byte for three, and
only broken bytes, which are read as U+FFFD, give more than there are. -/
theorem reread_ne (name : Bytes) {s : Bytes} (hne : s ≠ []) (hs : ∀ x ∈ s, x < 0x80) :
    reread name ≠ s ++ name := by
  have step {b : UInt8} {rest s : Bytes} (text : Bytes) (htext : text ≠ [])
      (hascii : ∀ x ∈ text, x < 0x80)
      (ih : ∀ {s : Bytes}, s ≠ [] → (∀ x ∈ s, x < 0x80) → reread rest ≠ s ++ rest) (hne : s ≠ [])
      (hs : ∀ x ∈ s, x < 0x80) : b :: reread rest ≠ s ++ (text ++ rest) := by
    obtain ⟨x, s, rfl⟩ := List.exists_cons_of_ne_nil hne
    intro h
    rw [List.cons_append] at h
    have htail := (List.cons.inj h).2
    rw [← List.append_assoc] at htail
    refine ih (List.append_ne_nil_of_right_ne_nil s htext) ?_ htail
    intro y hy
    rcases List.mem_append.mp hy with hy | hy
    · exact hs y (List.mem_cons_of_mem x hy)
    · exact hascii y hy
  induction name using percentDecodeBytes_induction generalizing s with
  | nil =>
    rw [List.append_nil]
    exact hne.symm
  | literal b rest hb ih =>
    by_cases hlt : b < 0x80
    · rw [reread_literal hb hlt]
      exact step [b] (List.cons_ne_nil b []) (by simpa using hlt) ih hne hs
    · obtain ⟨y, u, hread, hy⟩ := reread_high hlt rest
      obtain ⟨x, s, rfl⟩ := List.exists_cons_of_ne_nil hne
      rw [hread, List.cons_append]
      intro h
      exact hy ((List.cons.inj h).1 ▸ hs x List.mem_cons_self)
  | escape hi lo h l rest hhi hlo ih =>
    have hascii : ∀ x ∈ [0x25, hi, lo], x < 0x80 := by
      simp [lt_of_fromHex hhi, lt_of_fromHex hlo]
    rw [reread_escape hhi hlo]
    exact step [0x25, hi, lo] (List.cons_ne_nil _ _) hascii ih hne hs
  | percent rest hesc ih =>
    rw [reread_percent hesc]
    exact step [0x25] (List.cons_ne_nil _ _) (by decide) ih hne hs

theorem escapeFree_cons {b : UInt8} {rest : Bytes} :
    EscapeFree (b :: rest) ↔ (b = 0x25 → ¬StartsHex rest) ∧ EscapeFree rest := by
  constructor
  · intro h
    constructor
    · rintro rfl
      exact h [] rest rfl
    · rintro u v rfl
      exact h (b :: u) v rfl
  · rintro ⟨hb, hrest⟩ u v hsplit
    cases u with
    | nil =>
      obtain ⟨rfl, rfl⟩ := List.cons.inj hsplit
      exact hb rfl
    | cons c u =>
      exact hrest u v (List.cons.inj hsplit).2

theorem escapeFree_append {text : Bytes} (h : 0x25 ∉ text) (rest : Bytes) :
    EscapeFree (text ++ rest) ↔ EscapeFree rest := by
  induction text with
  | nil => rfl
  | cons b text ih =>
    rw [List.mem_cons, not_or] at h
    rw [List.cons_append, escapeFree_cons, ih h.2, and_iff_right]
    intro hb
    exact absurd hb.symm h.1

theorem escapeFree_of_not_mem {name : Bytes} (h : 0x25 ∉ name) : EscapeFree name := by
  rintro u v rfl
  simp at h

theorem fromUtf8_ne_none {bytes : Bytes} : fromUtf8 bytes ≠ none ↔ reencode bytes = bytes := by
  unfold fromUtf8 reencode
  split
  · rename_i h
    simp [h]
  · rename_i h
    simp [h]

/-- A name comes back exactly when it is UTF-8 and looks like no escape. -/
theorem reread_eq_iff (name : Bytes) :
    reread name = name ↔ fromUtf8 name ≠ none ∧ EscapeFree name := by
  rw [fromUtf8_ne_none]
  induction name using fromUtf8Lossy_induction with
  | nil =>
    exact iff_of_true rfl ⟨rfl, escapeFree_of_not_mem List.not_mem_nil⟩
  | char c u ih =>
    rw [reencode_char, List.append_cancel_left_eq]
    by_cases hmem : 0x25 ∈ String.utf8EncodeChar c
    · rw [utf8EncodeChar_high hmem (by decide), List.singleton_append, escapeFree_cons]
      by_cases hesc : StartsHex u
      · refine iff_of_false ?_ fun h => h.2.1 rfl hesc
        obtain ⟨hi, lo, h, l, v, rfl, hhi, hlo⟩ := hesc
        rw [reread_escape hhi hlo]
        intro hback
        have hascii : ∀ x ∈ [hi, lo], x < 0x80 := by
          simp [lt_of_fromHex hhi, lt_of_fromHex hlo]
        exact reread_ne v (List.cons_ne_nil hi [lo]) hascii (List.cons.inj hback).2
      · rw [reread_percent hesc, List.cons.injEq, and_iff_right rfl, ih,
          and_iff_right fun _ => hesc]
    · have hback : reread (String.utf8EncodeChar c ++ u) = String.utf8EncodeChar c ++ reread u := by
        unfold reread
        rw [reencode_char, percentDecodeBytes_append hmem]
      rw [hback, List.append_cancel_left_eq, escapeFree_append hmem, ih]
  | broken bad u hne hhigh hlossy hnone ih =>
    have hread : reencode (bad ++ u) = String.utf8EncodeChar replacement ++ reencode u := by
      unfold reencode
      rw [hlossy, encode_cons]
    have hback : reread (bad ++ u) = String.utf8EncodeChar replacement ++ reread u := by
      unfold reread
      rw [hread, percentDecodeBytes_append (by decide)]
    refine iff_of_false (fun h => ?_) fun h => ?_
    · exact hnone replacement ⟨reread u, hback.symm.trans h⟩
    · exact hnone replacement ⟨reencode u, hread.symm.trans h.1⟩

/-! ## URLs of names -/

/-- The bytes that name the entries of one path, each behind a slash. -/
def pathBytes (names : List Bytes) : Bytes := names.flatMap (0x2f :: ·)

/-- The URL stands for the names below the base and for nothing else. -/
structure Denotes (base url : Text) (names : List Bytes) (dir : Bool) : Prop where
  path : percentDecodeBytes (encode (Url.split url).path) =
    percentDecodeBytes (encode (trimEnd isSlash (Url.split base).path)) ++ pathBytes names ++
      if dir then [0x2f] else []
  query : (Url.split url).query = none
  fragment : (Url.split url).fragment = none

/-- A name that a URL can be made of as it is. -/
structure UrlSafe (name : Bytes) : Prop where
  utf8 : fromUtf8 name ≠ none
  query : 0x3f ∉ name
  fragment : 0x23 ∉ name
  escapeFree : EscapeFree name

/-- A file name of one segment. -/
def IsName (name : Bytes) : Prop := name ≠ [] ∧ 0x2f ∉ name

instance (name : Bytes) : Decidable (IsName name) := inferInstanceAs (Decidable (_ ∧ _))

/-- The URL that the code makes of a base and names. -/
def urlOf (base : Text) (names : List Bytes) (dir : Bool) : Text :=
  trimEnd isSlash base ++ names.flatMap (fun name => '/' :: fromUtf8Lossy name) ++
    if dir then "/".toList else []

section
variable {base : Text} {names : List Bytes} {dir : Bool}

theorem slash_not_mem {name : Bytes} (h : IsName name) : '/' ∉ fromUtf8Lossy name :=
  fun hmem => h.2 (mem_of_mem_fromUtf8Lossy (x := 0x2f) (by decide) hmem)

theorem plain_urlOf : Url.Plain (urlOf base names dir) ↔
    Url.Plain base ∧ ∀ name ∈ names, 0x3f ∉ name ∧ 0x23 ∉ name := by
  have hbase : Url.Plain (trimEnd isSlash base) ↔ Url.Plain base := by
    obtain ⟨s, hsplit, hs⟩ := Url.exists_slashes base
    have hplain : Url.Plain s := ⟨fun h => absurd (hs _ h) (by decide),
      fun h => absurd (hs _ h) (by decide)⟩
    conv_rhs => rw [hsplit, Url.plain_append]
    exact (and_iff_left hplain).symm
  have hnames : Url.Plain (names.flatMap fun name => '/' :: fromUtf8Lossy name) ↔
      ∀ name ∈ names, 0x3f ∉ name ∧ 0x23 ∉ name := by
    rw [Url.plain_flatMap]
    refine forall₂_congr fun name _ => ?_
    rw [Url.plain_cons (by decide) (by decide)]
    exact and_congr (not_congr (mem_fromUtf8Lossy (x := 0x3f) (by decide)))
      (not_congr (mem_fromUtf8Lossy (x := 0x23) (by decide)))
  have hslash : Url.Plain (if dir then "/".toList else []) := by
    cases dir <;> decide
  rw [urlOf, Url.plain_append, Url.plain_append, and_iff_left hslash, hbase, hnames]

/-- Decoding goes through a URL name by name. -/
theorem percentDecodeBytes_urlOf (t : Text) (names : List Bytes) (dir : Bool) :
    percentDecodeBytes (encode (t ++ names.flatMap (fun name => '/' :: fromUtf8Lossy name) ++
        if dir then "/".toList else [])) =
      percentDecodeBytes (encode t) ++ names.flatMap (fun name => 0x2f :: reread name) ++
        if dir then [0x2f] else [] := by
  have hslash (u v : Text) : percentDecodeBytes (encode (u ++ '/' :: v)) =
      percentDecodeBytes (encode u) ++ 0x2f :: percentDecodeBytes (encode v) := by
    rw [encode_append, encode_cons]
    exact percentDecodeBytes_slash _ _
  induction names generalizing t with
  | nil =>
    rw [List.flatMap_nil, List.flatMap_nil, List.append_nil, List.append_nil]
    cases dir with
    | false => simp
    | true => exact hslash t []
  | cons name names ih =>
    have hstep := ih (t ++ '/' :: fromUtf8Lossy name)
    rw [hslash] at hstep
    simpa [reread, reencode] using hstep

theorem splitOn_flatMap (f : Bytes → Bytes) (names : List Bytes) :
    (names.flatMap fun name => 0x2f :: f name).splitOn 0x2f =
      [] :: names.flatMap fun name => (f name).splitOn 0x2f := by
  induction names using List.reverseRecOn with
  | nil => rfl
  | append_singleton names name ih =>
    rw [List.flatMap_append, List.flatMap_append, List.flatMap_singleton, List.flatMap_singleton,
      List.splitOn_append_cons_self, ih, List.cons_append]

theorem eq_of_flatMap_eq_self {α : Type} {g : α → List α} {l : List α} (hg : ∀ x ∈ l, g x ≠ [])
    (h : l.flatMap g = l) : ∀ x ∈ l, g x = [x] := by
  have hlen (l : List α) (hg : ∀ x ∈ l, g x ≠ []) : l.length ≤ (l.flatMap g).length := by
    induction l with
    | nil => exact Nat.zero_le _
    | cons x l ih =>
      obtain ⟨hx, hl⟩ := List.forall_mem_cons.mp hg
      have hpos := List.length_pos_iff.mpr hx
      have hle := ih hl
      rw [List.flatMap_cons, List.length_append, List.length_cons]
      omega
  induction l with
  | nil => simp
  | cons x l ih =>
    obtain ⟨hx, hl⟩ := List.forall_mem_cons.mp hg
    obtain ⟨y, rest, hy⟩ := List.exists_cons_of_ne_nil hx
    rw [List.flatMap_cons, hy, List.cons_append, List.cons.injEq] at h
    obtain ⟨rfl, htail⟩ := h
    have hle := hlen l hl
    have htotal := congrArg List.length htail
    rw [List.length_append] at htotal
    have hrest : rest = [] := List.length_eq_zero_iff.mp (by omega)
    rw [hrest, List.nil_append] at htail
    rw [List.forall_mem_cons]
    exact ⟨by rw [hy, hrest], ih hl htail⟩

/-- Names without slashes are read off a path. -/
theorem flatMap_eq_pathBytes_iff {f : Bytes → Bytes} (hnames : ∀ name ∈ names, IsName name) :
    (names.flatMap fun name => 0x2f :: f name) = pathBytes names ↔
      ∀ name ∈ names, f name = name := by
  constructor
  · intro h name hname
    have hsplit := congrArg (List.splitOn 0x2f) h
    have hright := splitOn_flatMap (fun name => name) names
    have hself : (names.flatMap fun name => name.splitOn 0x2f) = names := by
      have hone : ∀ name ∈ names, name.splitOn 0x2f = [name] := fun name hn =>
        List.splitOn_eq_singleton (hnames name hn).2
      rw [List.flatMap_congr hone]
      exact List.flatMap_singleton' names
    rw [hself] at hright
    rw [splitOn_flatMap, pathBytes, hright] at hsplit
    have hsingle := eq_of_flatMap_eq_self (fun _ _ => List.splitOn_ne_nil _ _)
      (List.cons.inj hsplit).2 name hname
    have hback : [0x2f].intercalate ((f name).splitOn 0x2f) = f name :=
      List.intercalate_splitOn 0x2f
    rw [← hback, hsingle]
    exact List.intercalate_singleton
  · intro h
    unfold pathBytes
    exact List.flatMap_congr fun name hname => by rw [h name hname]

/-- A URL made of names stands for them exactly when the base and the names can stand in it. -/
theorem denotes_urlOf_iff (hne : names ≠ []) (hnames : ∀ name ∈ names, IsName name) :
    Denotes base (urlOf base names dir) names dir ↔
      Url.Plain base ∧ ∀ name ∈ names, UrlSafe name := by
  have hpath (hplain : Url.Plain (urlOf base names dir)) (hbase : Url.Plain base) :
      percentDecodeBytes (encode (Url.split (urlOf base names dir)).path) =
        percentDecodeBytes (encode (trimEnd isSlash (Url.split base).path)) ++
          names.flatMap (fun name => 0x2f :: reread name) ++ if dir then [0x2f] else [] := by
    obtain ⟨name, rest, rfl⟩ := List.exists_cons_of_ne_nil hne
    rw [Url.split_of_plain hplain, Url.split_of_plain hbase, ← percentDecodeBytes_urlOf]
    congr 2
    have hfirst := hnames name List.mem_cons_self
    unfold urlOf
    rw [List.flatMap_cons, List.cons_append, List.append_assoc, List.append_assoc,
      List.cons_append, Url.pathOf_join]
    have hread : fromUtf8Lossy name ≠ [] := fun hnil => hfirst.1 (fromUtf8Lossy_eq_nil.mp hnil)
    rw [List.append_assoc, List.head?_append_of_ne_nil _ hread]
    exact fun hhead => slash_not_mem hfirst (List.mem_of_head? hhead)
  constructor
  · intro h
    obtain ⟨hbase, hquery⟩ := plain_urlOf.mp (Url.plain_iff.mpr ⟨h.query, h.fragment⟩)
    have hdec := hpath (Url.plain_iff.mpr ⟨h.query, h.fragment⟩) hbase
    rw [h.path, List.append_cancel_right_eq, List.append_cancel_left_eq] at hdec
    have hself := (flatMap_eq_pathBytes_iff hnames).mp hdec.symm
    refine ⟨hbase, fun name hname => ?_⟩
    obtain ⟨hutf8, hfree⟩ := (reread_eq_iff name).mp (hself name hname)
    exact ⟨hutf8, (hquery name hname).1, (hquery name hname).2, hfree⟩
  · rintro ⟨hbase, hsafe⟩
    have hplain : Url.Plain (urlOf base names dir) := plain_urlOf.mpr
      ⟨hbase, fun name hname => ⟨(hsafe name hname).query, (hsafe name hname).fragment⟩⟩
    obtain ⟨hquery, hfragment⟩ := Url.plain_iff.mp hplain
    refine ⟨?_, hquery, hfragment⟩
    rw [hpath hplain hbase, (flatMap_eq_pathBytes_iff hnames).mpr]
    exact fun name hname => (reread_eq_iff name).mpr
      ⟨(hsafe name hname).utf8, (hsafe name hname).escapeFree⟩

end

/-! ## The entries of a listing -/

/-- The href of an entry is its name, encoded; behind a directory's name stands a slash. -/
def NamedBy (ext : Externals) (e : Entry) (name : Bytes) : Prop :=
  IsName name ∧ ∃ a, anchorEntry ext a = some e ∧
    Encodes (encode a.href) (name ++ if e.kind = .dir then [0x2f] else [])

/-- The directories that are reached from the base, with the names on the way. -/
inductive Below (env : Env) (baseUrl : Text) : DirectoryWork → List Bytes → Prop
  | root (depth : ℕ) : Below env baseUrl ⟨baseUrl, [], depth, true⟩ []
  | child {w : DirectoryWork} {e : Entry} {names : List Bytes} {name : Bytes}
    (hw : Below env baseUrl w names) (he : Followed env w e) (hname : NamedBy env.ext e name) :
    Below env baseUrl (w.child e) (names ++ [name])

section
variable {env : Env} {baseUrl : Text} {w : DirectoryWork} {e : Entry} {names : List Bytes}
  {name : Bytes}

theorem path_of_named (h : NamedBy env.ext e name) :
    e.path = fromUtf8Lossy name ++ if e.kind = .dir then "/".toList else [] := by
  obtain ⟨-, a, hentry, henc⟩ := h
  have hpath : e.path = percentDecode a.href := by
    unfold anchorEntry at hentry
    split at hentry
    · cases hentry
      exact classify_path _ _
    · cases hentry
  rw [hpath, percentDecode, percentDecodeBytes_of_encodes henc]
  by_cases hkind : e.kind = .dir
  · rw [if_pos hkind, if_pos hkind]
    exact fromUtf8Lossy_ascii (by decide) name []
  · rw [if_neg hkind, if_neg hkind, List.append_nil, List.append_nil]

/-- A name is put behind a URL as it is read. -/
theorem join_of_named (url : Text) (h : NamedBy env.ext e name) : join url e.path =
    trimEnd isSlash url ++ '/' :: fromUtf8Lossy name ++
      if e.kind = .dir then "/".toList else [] := by
  have hread : fromUtf8Lossy name ≠ [] := fun hnil => h.1.1 (fromUtf8Lossy_eq_nil.mp hnil)
  obtain ⟨c, rest, hc⟩ := List.exists_cons_of_ne_nil hread
  have hslash : isSlash c = false := by
    have hmem := slash_not_mem h.1
    rw [hc, List.mem_cons, not_or] at hmem
    exact decide_eq_false (Ne.symm hmem.1)
  unfold join
  rw [path_of_named h, hc, List.cons_append, trimStart,
    List.dropWhile_cons_of_neg (by simp [hslash])]
  simp

theorem urlOf_concat (base : Text) (names : List Bytes) (name : Bytes) (dir : Bool) :
    urlOf base (names ++ [name]) dir = urlOf base names false ++ '/' :: fromUtf8Lossy name ++
      if dir then "/".toList else [] := by
  unfold urlOf
  rw [List.flatMap_append, List.flatMap_singleton]
  simp

/-- The URL of a directory is the base and the names of the directories above it. -/
theorem urlOf_of_below (h : Below env baseUrl w names) :
    trimEnd isSlash w.url = urlOf baseUrl names false ∧
    (names ≠ [] → w.url = urlOf baseUrl names true) ∧ ∀ name ∈ names, IsName name := by
  induction h with
  | root depth => simp [urlOf]
  | @child w e names name _ he hname ih =>
    obtain ⟨htrim, -, hnames⟩ := ih
    have hjoin := join_of_named w.url hname
    rw [htrim, if_pos he.1] at hjoin
    have hurl : (w.child e).url = urlOf baseUrl (names ++ [name]) true := by
      show joinSlash w.url e.path = _
      unfold joinSlash
      dsimp only
      rw [hjoin, urlOf_concat, if_pos rfl, if_pos]
      exact List.isSuffixOf_iff_suffix.mpr (List.suffix_append _ _)
    have hlast : trimEnd isSlash (urlOf baseUrl (names ++ [name]) false) =
        urlOf baseUrl (names ++ [name]) false := by
      rw [urlOf_concat, if_neg Bool.false_ne_true, List.append_nil, List.append_cons]
      exact Url.trimEnd_append_of_not_mem (fun hnil => hname.1.1 (fromUtf8Lossy_eq_nil.mp hnil))
        (slash_not_mem hname.1) _
    refine ⟨?_, fun _ => hurl, ?_⟩
    · rw [hurl, urlOf_concat, if_pos rfl, Url.trimEnd_append_slashes (by decide), ← hlast,
        urlOf_concat]
      simp
    · rw [List.forall_mem_append, List.forall_mem_singleton]
      exact ⟨hnames, hname.1⟩

end

/-- A listed name is fetched under its own URL, and a listed directory under its own, exactly when
the base URL has neither query nor fragment and every name on the way can stand in a URL as it
is. -/
theorem fetched_name_iff (env : Env) (baseUrl : Text) (depth : ℕ) (events : List Event) (c : Crawl)
    (plan : Plan) (h : planInner env baseUrl depth events = some (.ok (c, plan))) :
    (∀ w e names name, (w, e) ∈ takenUp env (c.items env) → Below env baseUrl w names →
      NamedBy env.ext e name → e.kind = .file → localMatches env (destOf env w e) e = false →
      (join w.url e.path, destOf env w e) ∈ plan.downloads ∧
      (Denotes baseUrl (join w.url e.path) (names ++ [name]) false ↔
        Url.Plain baseUrl ∧ ∀ n ∈ names ++ [name], UrlSafe n)) ∧
    ∀ w names, Below env baseUrl w names → names ≠ [] →
      (Denotes baseUrl w.url names true ↔ Url.Plain baseUrl ∧ ∀ n ∈ names, UrlSafe n) := by
  constructor
  · intro w e names name htaken hbelow hname hkind hlocal
    obtain ⟨htrim, -, hnames⟩ := urlOf_of_below hbelow
    constructor
    · rw [(finish_eq (planInner_run h).2).1, (planInner_reflects h).downloads]
      refine List.mem_filterMap.mpr ⟨(w, e), htaken, ?_⟩
      exact if_pos ⟨hkind, hlocal⟩
    · have hfile : e.kind ≠ .dir := fun hdir => by
        rw [hdir] at hkind
        cases hkind
      have hurl : join w.url e.path = urlOf baseUrl (names ++ [name]) false := by
        rw [join_of_named w.url hname, htrim, if_neg hfile, urlOf_concat]
        rfl
      rw [hurl]
      apply denotes_urlOf_iff
      · exact List.append_ne_nil_of_right_ne_nil names (List.cons_ne_nil name [])
      · rw [List.forall_mem_append, List.forall_mem_singleton]
        exact ⟨hnames, hname.1⟩
  · intro w names hbelow hne
    obtain ⟨-, hurl, hnames⟩ := urlOf_of_below hbelow
    rw [hurl hne]
    exact denotes_urlOf_iff hne hnames

/-- The base of one mirror, and the directory `d` in it. -/
def pubWork : DirectoryWork := ⟨"http://m/pub".toList, [], 3, true⟩

def dirEntry : Entry := ⟨"d/".toList, none, none, .dir, none⟩

def spacedEntry : Entry := ⟨"a b".toList, none, none, .file, none⟩

def dirPage : Bytes := encode "<a href=\"d/\">d/</a>".toList

def spacedPage : Bytes := encode "<a href=\"a%20b\">a b</a>".toList

theorem dirEntry_named : NamedBy (mirrorEnv .nginx .nil).ext dirEntry [0x64] := by
  refine ⟨by decide, ⟨"d/".toList, "d/".toList, []⟩, by decide, ?_⟩
  exact .literal (by decide) (.literal (by decide) .nil)

theorem spacedEntry_named :
    NamedBy (mirrorEnv .nginx .nil).ext spacedEntry [0x61, 0x20, 0x62] := by
  refine ⟨by decide, ⟨"a%20b".toList, "a b".toList, []⟩, by decide, ?_⟩
  exact .literal (by decide) (.escape (h := 2) (l := 0) rfl rfl (.literal (by decide) .nil))

theorem dir_below : Below (mirrorEnv .nginx .nil) pubWork.url (pubWork.child dirEntry) [[0x64]] :=
  .child (.root 3) ⟨rfl, by decide, by decide⟩ dirEntry_named

theorem fetched_name_iff_spaced :
    ∃ c plan, planInner (mirrorEnv .nginx .nil) pubWork.url 3
        [.joined 0 (.fetched dirPage), .joined 0 (.fetched spacedPage)] = some (.ok (c, plan)) ∧
      ("http://m/pub/d/a b".toList, Path.ofText "/srv/d/a b".toList) ∈ plan.downloads ∧
      Denotes pubWork.url "http://m/pub/d/a b".toList [[0x64], [0x61, 0x20, 0x62]] false := by
  have heval : (planned (mirrorEnv .nginx .nil) pubWork.url 3
      [.joined 0 (.fetched dirPage), .joined 0 (.fetched spacedPage)]).map
        (fun p => takenUp (mirrorEnv .nginx .nil) (p.1.items (mirrorEnv .nginx .nil))) =
      some [(pubWork, dirEntry), (pubWork.child dirEntry, spacedEntry)] := by
    decide +kernel
  obtain ⟨⟨c, plan⟩, hp, htaken⟩ := Option.map_eq_some_iff.mp heval
  have h := planInner_of_planned hp
  obtain ⟨hmem, hiff⟩ := (fetched_name_iff _ _ _ _ c plan h).1 (pubWork.child dirEntry) spacedEntry
    [[0x64]] [0x61, 0x20, 0x62] (htaken ▸ by simp) dir_below spacedEntry_named rfl rfl
  have hsafe : ∀ name ∈ [[0x64], [0x61, 0x20, 0x62]], UrlSafe name := by
    rw [List.forall_mem_cons, List.forall_mem_singleton]
    exact ⟨⟨by decide, by decide, by decide, escapeFree_of_not_mem (by decide)⟩,
      ⟨by decide, by decide, by decide, escapeFree_of_not_mem (by decide)⟩⟩
  exact ⟨c, plan, h, hmem, hiff.mpr ⟨by decide, hsafe⟩⟩

def hashPage : Bytes := encode "<a href=\"a%23b\">a#b</a>".toList

def hashEntry : Entry := ⟨"a#b".toList, none, none, .file, none⟩

theorem hashEntry_named : NamedBy (mirrorEnv .nginx .nil).ext hashEntry [0x61, 0x23, 0x62] := by
  refine ⟨by decide, ⟨"a%23b".toList, "a#b".toList, []⟩, by decide, ?_⟩
  exact .literal (by decide) (.escape (h := 2) (l := 3) rfl rfl (.literal (by decide) .nil))

/-- The file `a#b` is asked for as `a`. -/
theorem hash_becomes_fragment :
    ¬∀ (env : Env) (baseUrl : Text) (depth : ℕ) (events : List Event) (c : Crawl) (plan : Plan),
      planInner env baseUrl depth events = some (.ok (c, plan)) →
      (∀ w e names name, (w, e) ∈ takenUp env (c.items env) → Below env baseUrl w names →
        NamedBy env.ext e name → e.kind = .file → localMatches env (destOf env w e) e = false →
        (join w.url e.path, destOf env w e) ∈ plan.downloads ∧
        Denotes baseUrl (join w.url e.path) (names ++ [name]) false) ∧
      ∀ w names, Below env baseUrl w names → names ≠ [] → Denotes baseUrl w.url names true := by
  intro hall
  have heval : (planned (mirrorEnv .nginx .nil) pubWork.url 3
      [.joined 0 (.fetched hashPage)]).map
        (fun p => takenUp (mirrorEnv .nginx .nil) (p.1.items (mirrorEnv .nginx .nil))) =
      some [(pubWork, hashEntry)] := by
    decide +kernel
  obtain ⟨⟨c, plan⟩, hp, htaken⟩ := Option.map_eq_some_iff.mp heval
  have hfetched := (hall _ _ _ _ c plan (planInner_of_planned hp)).1 pubWork hashEntry [] _
    (htaken ▸ by simp) (.root 3) hashEntry_named rfl rfl
  exact absurd hfetched.2.fragment (by decide)

end Synora.Mirror
