import Synora.Lib.Slice
import Synora.Mirror.Listing

namespace Synora.Mirror
open Strings Utf8

/-! # The parsers with their slices

The listing parsers once more, with the byte offsets, indices and fixed-width sums of the code.
In this module `none` is a panic; what the code itself may miss is a `none` inside it. -/

/-- `u8` arithmetic that must not overflow. -/
def subU8 (a b : UInt8) : Option ℕ := if b ≤ a then some (a.toNat - b.toNat) else none

def fitU8 (n : ℕ) : Option ℕ := if n < 2 ^ 8 then some n else none

def isAsciiDigit (b : UInt8) : Bool := decide (0x30 ≤ b ∧ b ≤ 0x39)

def checkedTwoDigits (a b : UInt8) : Option (Option ℕ) :=
  if ¬isAsciiDigit a ∨ ¬isAsciiDigit b then some none
  else do
    let tens ← fitU8 ((← subU8 a 0x30) * 10)
    let n ← fitU8 (tens + (← subU8 b 0x30))
    pure (some n)

def checkedFromHex (b : UInt8) : Option (Option UInt8) :=
  if 0x30 ≤ b ∧ b ≤ 0x39 then (subU8 b 0x30).map fun n => some (.ofNat n)
  else if 0x61 ≤ b ∧ b ≤ 0x66 then do
    let n ← fitU8 ((← subU8 b 0x61) + 10)
    pure (some (.ofNat n))
  else if 0x41 ≤ b ∧ b ≤ 0x46 then do
    let n ← fitU8 ((← subU8 b 0x41) + 10)
    pure (some (.ofNat n))
  else some none

/-- The loop of `percent_decode` from index `i` on. -/
def checkedPercentDecode (bytes : Bytes) : ℕ → ℕ → Option Bytes
  | 0, _ => some []
  | fuel + 1, i =>
    if i < bytes.length then do
      let b ← bytes[i]?
      if b = 0x25 ∧ i + 2 < bytes.length then
        match ← checkedFromHex (← bytes[i + 1]?), ← checkedFromHex (← bytes[i + 2]?) with
        | some hi, some lo => (checkedPercentDecode bytes fuel (i + 3)).map ((hi <<< 4 ||| lo) :: ·)
        | _, _ => (checkedPercentDecode bytes fuel (i + 1)).map (b :: ·)
      else (checkedPercentDecode bytes fuel (i + 1)).map (b :: ·)
    else some []

def checkedExtractHref (tag : Text) : Option (Option Text) :=
  match find "href".toList (toAsciiLowercase tag) with
  | none => some none
  | some pos => do
    let rest := trimStart isWhitespace (← sliceFrom tag (pos + 4))
    match stripPrefix "=".toList rest with
    | none => pure none
    | some rest =>
      let rest := trimStart isWhitespace rest
      match rest.head? with
      | none => pure none
      | some first =>
        let split ←
          if first = '"' then (sliceFrom rest 1).map (splitOnce "\"".toList)
          else if first = '\'' then (sliceFrom rest 1).map (splitOnce "'".toList)
          else pure (splitOnceAny (fun c => decide (c = ' ' ∨ c = '>')) rest)
        pure (split.map fun p => decodeEntities p.1)

/-- A window of 17 bytes at `i`. -/
def checkedDateAt (text : Text) (w : Bytes) (i : ℕ) : Option (Option DateTime) := do
  match ← checkedTwoDigits (← w[0]?) (← w[1]?) with
  | none => pure none
  | some day =>
    let mon := toAsciiLowercase (← slice text (i + 3) (i + 6))
    match months.findIdx? fun name => decide (name = mon) with
    | none => pure none
    | some m =>
      match ← checkedTwoDigits (← w[7]?) (← w[8]?) with
      | none => pure none
      | some century =>
        match ← checkedTwoDigits (← w[9]?) (← w[10]?) with
        | none => pure none
        | some years =>
          match ← checkedTwoDigits (← w[12]?) (← w[13]?) with
          | none => pure none
          | some hour =>
            match ← checkedTwoDigits (← w[15]?) (← w[16]?) with
            | none => pure none
            | some minute =>
              let month ← fitU8 (m + 1)
              let year := century * 100 + years
              if 1 ≤ day ∧ day ≤ daysInMonth year month ∧ hour < 24 ∧ minute < 60 then
                pure (some ⟨year, month, day, hour, minute, 0⟩)
              else pure none

/-- The loop of `find_date` over `i..len - 17`. -/
def checkedFindDate (text : Text) (bytes : Bytes) : ℕ → ℕ → Option (Option DateTime)
  | 0, _ => some none
  | fuel + 1, i =>
    if i < bytes.length - 17 then do
      let w ← if i + 17 ≤ bytes.length then some ((bytes.drop i).take 17) else none
      if (← w[2]?) ≠ 0x2d ∨ (← w[6]?) ≠ 0x2d ∨ (← w[11]?) ≠ 0x20 then
        checkedFindDate text bytes fuel (i + 1)
      else checkedDateAt text w i
    else some none

/-- `&tok[..tok.len() - 1]` -/
def checkedInit (tok : Text) : Option Text :=
  if 1 ≤ byteLen tok then sliceTo tok (byteLen tok - 1) else none

def checkedSizeToken (ext : Externals) (tok : Text) : Option (Option ℕ) :=
  match tok.getLast? with
  | none => some none
  | some 'K' => (checkedInit tok).map fun num => ext.scaleSize num 1024
  | some 'M' => (checkedInit tok).map fun num => ext.scaleSize num (1024 ^ 2)
  | some 'G' => (checkedInit tok).map fun num => ext.scaleSize num (1024 ^ 3)
  | some 'T' => (checkedInit tok).map fun num => ext.scaleSize num (1024 ^ 4)
  | some _ => some (ext.scaleSize tok 1)

def checkedFindSize (ext : Externals) : List Text → Option (Option ℕ)
  | [] => some none
  | tok :: toks =>
    if tok = "-".toList ∨ tok = "—".toList then some none
    else do
      match ← checkedSizeToken ext tok with
      | some size => pure (some size)
      | none => checkedFindSize ext toks

/-- One round of the scanning loop. -/
def checkedNextAnchor (rest : Text) : Option Scan :=
  match find "<a ".toList rest with
  | none => some .finished
  | some pos => do
    let afterA ← sliceFrom rest (pos + 3)
    match find ">".toList afterA with
    | none => pure .gaveUp
    | some tagEnd =>
      let tag ← sliceTo afterA tagEnd
      match ← checkedExtractHref tag with
      | none => pure (.skipped (← sliceFrom afterA (tagEnd + 1)))
      | some href =>
        let afterTag ← sliceFrom afterA (tagEnd + 1)
        match find "</a>".toList afterTag with
        | none => pure .gaveUp
        | some linkEnd =>
          let inner ← sliceTo afterTag linkEnd
          pure (.found ⟨href, stripHtml inner, ← sliceFrom afterTag (linkEnd + 4)⟩)

def checkedScanAnchors : ℕ → Text → Option (List Anchor)
  | 0, _ => some []
  | fuel + 1, rest => do
    match ← checkedNextAnchor rest with
    | .finished => pure []
    | .gaveUp => pure []
    | .skipped rest => checkedScanAnchors fuel rest
    | .found a => pure (a :: (← checkedScanAnchors fuel a.trailing))

def checkedTakeBlock (tag rest : Text) : Option (Option (Text × Text)) :=
  match find (openTag tag) rest with
  | none => some none
  | some pos => do
    let start := pos + byteLen (openTag tag)
    match find (closeTag tag) (← sliceFrom rest start) with
    | none => pure none
    | some offset =>
      let stop := offset + start
      pure (some (← slice rest start stop, ← sliceFrom rest (stop + byteLen (closeTag tag))))

def checkedInnerTag (block tag : Text) : Option (Option Text) :=
  match find (openTag tag) block with
  | none => some none
  | some pos => do
    let start := pos + byteLen (openTag tag)
    match find (closeTag tag) (← sliceFrom block start) with
    | none => pure none
    | some offset => pure (some (decodeEntities (← slice block start (offset + start))))

/-- The parsers of the `time` crate that `parse_mod_time` tries. -/
structure TimeParsers where
  /-- `OffsetDateTime::parse(s, &Rfc3339)`, without the fraction of the second -/
  rfc3339 : Text → Option DateTime
  /-- `PrimitiveDateTime::parse` of `[year]-[month]-[day]T[hour]:[minute]:[second]` -/
  primitive : Text → Option DateTime

/-- The part of a time stamp before its zone or fraction. -/
def stampHead (s : Text) : Text :=
  ((replace " ".toList "T".toList (trim s)).splitOnP fun c =>
    decide (c = 'Z' ∨ c = '+' ∨ c = '.')).head?.getD []

def checkedModTime (tp : TimeParsers) (s : Text) : Option (Option DateTime) :=
  match tp.rfc3339 s with
  | some d => some (some d)
  | none =>
    let t := stampHead s
    (sliceTo t (min (byteLen t) 19)).map tp.primitive

/-- `None.and_then(..)` and `Some(s).and_then(parse_mod_time)` -/
def checkedModified (tp : TimeParsers) : Option Text → Option (Option DateTime)
  | none => some none
  | some s => checkedModTime tp s

section

variable (ext : Externals) (tp : TimeParsers)

def checkedAnchorEntry (a : Anchor) : Option (Option Entry) :=
  if isListable a.href then do
    let name := if a.label.isEmpty then a.href else a.label
    let text := replace "\n".toList " ".toList (stripHtml (a.trailing.take 400))
    let modified ← checkedFindDate text (encode text) (encode text).length 0
    let size ← checkedFindSize ext (splitWhitespace text)
    let bytes := encode a.href
    let path := fromUtf8Lossy (← checkedPercentDecode bytes bytes.length 0)
    pure (some ⟨path, size, modified, (classify (trim name) a.href).1, none⟩)
  else some none

/-- All entries that one side of a listing yields. -/
def entriesOf {α : Type} (entry : α → Option (Option Entry)) : List α → Option (List Entry)
  | [] => some []
  | x :: xs => do
    let e ← entry x
    pure (e.toList ++ (← entriesOf entry xs))

def checkedNginxParse (html : Bytes) : Option (List Entry) := do
  let text := fromUtf8Lossy html
  entriesOf (checkedAnchorEntry ext) (← checkedScanAnchors text.length text)

def listedItems (items : List CaddyItem) : List CaddyItem :=
  items.filter fun i => !i.name.isEmpty && !decide (i.name = ".".toList) &&
    !decide (i.name = "..".toList)

def checkedCaddyParse (body : Bytes) : Option (List Entry) :=
  match ext.caddyItems body with
  | none => some []
  | some items => entriesOf (fun i => do
      let modified ← checkedModified tp i.modTime
      pure (some ⟨i.name, i.size, modified, if i.isDir then .dir else .file, none⟩))
        (listedItems items)

def checkedTakeBlocks (tag : Text) : ℕ → Text → Option (List Text)
  | 0, _ => some []
  | fuel + 1, rest => do
    match ← checkedTakeBlock tag rest with
    | none => pure []
    | some (block, rest) => pure (block :: (← checkedTakeBlocks tag fuel rest))

def checkedContentsEntry (contents : Text) : Option (Option Entry) := do
  match ← checkedInnerTag contents "Key".toList with
  | none => pure none
  | some key =>
    if key.isEmpty then pure none
    else do
      let size ← checkedInnerTag contents "Size".toList
      let modified ← checkedModified tp (← checkedInnerTag contents "LastModified".toList)
      pure (some ⟨key, size.bind parseU64, modified,
        if "/".toList.isSuffixOf key then .dir else .file, none⟩)

def checkedPrefixEntry (prefixes : Text) : Option (Option Entry) := do
  match ← checkedInnerTag prefixes "Prefix".toList with
  | none => pure none
  | some pre => pure (if pre.isEmpty then none else some ⟨pre, none, none, .dir, none⟩)

def checkedS3Parse (body : Bytes) : Option (List Entry) := do
  let text := fromUtf8Lossy body
  let contents ← checkedTakeBlocks "Contents".toList text.length text
  let objects ← entriesOf (checkedContentsEntry tp) contents
  let prefixes ← checkedTakeBlocks "CommonPrefixes".toList text.length text
  pure (objects ++ (← entriesOf checkedPrefixEntry prefixes))

/-- The parsers, with every way to panic. -/
def IndexParser.checkedParse : IndexParser → Bytes → Option (List Entry)
  | .nginx | .apache | .directoryListing => checkedNginxParse ext
  | .caddy => checkedCaddyParse ext tp
  | .s3 => checkedS3Parse tp
  | .fallback => fun _ => some []

end

/-! ## Slices that are always in place -/

theorem find_eq {pat t : Text} : find pat t = (splitOnce pat t).map fun p => byteLen p.1 := rfl

theorem subU8_eq {a b : UInt8} (h : b ≤ a) : subU8 a b = some (a.toNat - b.toNat) := if_pos h

theorem checkedTwoDigits_eq (a b : UInt8) : checkedTwoDigits a b = some (twoDigits a b) := by
  by_cases h : (0x30 ≤ a ∧ a ≤ 0x39) ∧ (0x30 ≤ b ∧ b ≤ 0x39)
  · have hdigits : ¬(¬isAsciiDigit a = true ∨ ¬isAsciiDigit b = true) := by
      simpa [isAsciiDigit] using h
    have ha := UInt8.le_iff_toNat_le.mp h.1.2
    have hb := UInt8.le_iff_toNat_le.mp h.2.2
    simp only [UInt8.reduceToNat] at ha hb
    rw [checkedTwoDigits, if_neg hdigits, twoDigits, if_pos h, subU8_eq h.1.1, subU8_eq h.2.1]
    simp only [fitU8, UInt8.reduceToNat, Option.bind_eq_bind, Option.bind_some]
    rw [if_pos (by omega), Option.bind_some, if_pos (by omega)]
    rfl
  · have hdigits : ¬isAsciiDigit a = true ∨ ¬isAsciiDigit b = true := by
      by_contra hne
      push Not at hne
      exact h (by simpa [isAsciiDigit] using hne)
    rw [checkedTwoDigits, if_pos hdigits, twoDigits, if_neg h]

/-- A difference that is taken in range, as a byte. -/
theorem ofNat_sub {a b : UInt8} (h : b ≤ a) : UInt8.ofNat (a.toNat - b.toNat) = a - b := by
  rw [← UInt8.toNat_sub_of_le a b h, UInt8.ofNat_toNat]

theorem checkedFromHex_eq (b : UInt8) : checkedFromHex b = some (fromHex b) := by
  rw [checkedFromHex, fromHex]
  split_ifs with h1 h2 h3
  · rw [subU8_eq h1.1, Option.map_some, ofNat_sub h1.1]
  · have hb := UInt8.le_iff_toNat_le.mp h2.2
    simp only [UInt8.reduceToNat] at hb
    have hfit : b.toNat - (0x61 : UInt8).toNat + 10 < 2 ^ 8 := by
      simp only [UInt8.reduceToNat]
      omega
    rw [subU8_eq h2.1]
    simp only [Option.bind_eq_bind, Option.bind_some, fitU8, hfit, ↓reduceIte]
    rw [UInt8.ofNat_add, ofNat_sub h2.1]
    rfl
  · have hb := UInt8.le_iff_toNat_le.mp h3.2
    simp only [UInt8.reduceToNat] at hb
    have hfit : b.toNat - (0x41 : UInt8).toNat + 10 < 2 ^ 8 := by
      simp only [UInt8.reduceToNat]
      omega
    rw [subU8_eq h3.1]
    simp only [Option.bind_eq_bind, Option.bind_some, fitU8, hfit, ↓reduceIte]
    rw [UInt8.ofNat_add, ofNat_sub h3.1]
    rfl
  · rfl

theorem percentDecodeBytes_short {b : UInt8} {rest : Bytes} (h : rest.length < 2) :
    percentDecodeBytes (b :: rest) = b :: percentDecodeBytes rest := by
  match rest with
  | [] => rfl
  | [_] => rfl

theorem percentDecodeBytes_long {b hi lo : UInt8} {rest : Bytes} :
    percentDecodeBytes (b :: hi :: lo :: rest) =
      if b = 0x25 then
        match fromHex hi, fromHex lo with
        | some h, some l => (h <<< 4 ||| l) :: percentDecodeBytes rest
        | _, _ => b :: percentDecodeBytes (hi :: lo :: rest)
      else b :: percentDecodeBytes (hi :: lo :: rest) := rfl

theorem checkedPercentDecode_eq (bytes : Bytes) {fuel i : ℕ} (h : bytes.length ≤ i + fuel) :
    checkedPercentDecode bytes fuel i = some (percentDecodeBytes (bytes.drop i)) := by
  induction fuel using Nat.strong_induction_on generalizing i with
  | _ fuel ih =>
    cases fuel with
    | zero =>
      rw [List.drop_eq_nil_of_le (by omega)]
      rfl
    | succ fuel =>
      rw [checkedPercentDecode]
      by_cases hi : i < bytes.length
      · have hnext := ih fuel (by omega) (i := i + 1) (by omega)
        rw [if_pos hi, List.drop_eq_getElem_cons hi, List.getElem?_eq_getElem hi]
        simp only [Option.bind_eq_bind, Option.bind_some]
        by_cases hlen : i + 2 < bytes.length
        · have hdrop : bytes.drop (i + 1) =
              bytes[i + 1] :: bytes[i + 2] :: bytes.drop (i + 3) := by
            rw [List.drop_eq_getElem_cons (by omega), List.drop_eq_getElem_cons hlen]
          rw [List.getElem?_eq_getElem (by omega : i + 1 < bytes.length),
            List.getElem?_eq_getElem hlen, hdrop, percentDecodeBytes_long, ← hdrop]
          have hskip : checkedPercentDecode bytes fuel (i + 3) =
              some (percentDecodeBytes (bytes.drop (i + 3))) := ih fuel (by omega) (by omega)
          simp only [Option.bind_some, checkedFromHex_eq, hlen, and_true]
          by_cases hpercent : bytes[i] = 0x25
          · simp only [hpercent, ↓reduceIte]
            cases fromHex bytes[i + 1] with
            | none => rw [hnext]; rfl
            | some hi =>
              cases fromHex bytes[i + 2] with
              | none => rw [hnext]; rfl
              | some lo => rw [hskip]; rfl
          · simp only [hpercent, ↓reduceIte]
            rw [hnext]
            rfl
        · rw [if_neg (by omega), hnext, Option.map_some, percentDecodeBytes_short]
          rw [List.length_drop]
          omega
      · rw [if_neg hi, List.drop_eq_nil_of_le (by omega)]
        rfl

theorem utf8Size_lower (c : Char) :
    (if 'A' ≤ c ∧ c ≤ 'Z' then Char.ofNat (c.toNat + 32) else c).utf8Size = c.utf8Size := by
  split
  · rename_i h
    have hlo : 65 ≤ c.toNat := UInt32.le_iff_toNat_le.mp (Char.le_def.mp h.1)
    have hhi : c.toNat ≤ 90 := UInt32.le_iff_toNat_le.mp (Char.le_def.mp h.2)
    obtain ⟨n, hn, rfl⟩ : ∃ n < 26, c = Char.ofNat (65 + n) :=
      ⟨c.toNat - 65, by omega, by rw [Nat.add_sub_cancel' hlo, Char.ofNat_toNat]⟩
    have hall : ∀ n < 26, (Char.ofNat ((Char.ofNat (65 + n)).toNat + 32)).utf8Size =
        (Char.ofNat (65 + n)).utf8Size := by decide
    exact hall n hn
  · rfl

/-- Lowering ASCII letters moves no byte. -/
theorem byteLen_toAsciiLowercase (t : Text) : byteLen (toAsciiLowercase t) = byteLen t := by
  induction t with
  | nil => rfl
  | cons c t ih =>
    rw [toAsciiLowercase, List.map_cons, byteLen_cons, byteLen_cons, utf8Size_lower]
    exact congrArg (c.utf8Size + ·) ih

/-- The offset of a match in the lowered tag is one of the tag itself. -/
theorem sliceFrom_lowered {pat tag before rest : Text}
    (h : splitOnce pat (toAsciiLowercase tag) = some (before, rest)) :
    sliceFrom tag (byteLen before + byteLen pat) =
      some (tag.drop (before.length + pat.length)) := by
  have hsplit := splitOnce_eq_append h
  have hhead : toAsciiLowercase (tag.take (before.length + pat.length)) = before ++ pat := by
    rw [toAsciiLowercase, List.map_take]
    rw [toAsciiLowercase] at hsplit
    rw [hsplit, ← List.append_assoc, ← List.length_append, List.take_left]
  have hlen : byteLen (tag.take (before.length + pat.length)) = byteLen before + byteLen pat := by
    rw [← byteLen_toAsciiLowercase, hhead, byteLen_append]
  rw [← hlen]
  have hcut := sliceFrom_append (tag.take (before.length + pat.length))
    (tag.drop (before.length + pat.length))
  rwa [List.take_append_drop] at hcut

/-- The slice behind a first character of one byte. -/
theorem sliceFrom_one {t : Text} {c : Char} (h : t.head? = some c) (hc : c.utf8Size = 1) :
    sliceFrom t 1 = some (t.drop 1) := by
  obtain ⟨rest, rfl⟩ : ∃ rest, t = c :: rest := List.head?_eq_some_iff.mp h
  have hcut := sliceFrom_append [c] rest
  rwa [byteLen_cons, byteLen_nil, hc] at hcut

theorem checkedExtractHref_eq (tag : Text) : checkedExtractHref tag = some (extractHref tag) := by
  rw [checkedExtractHref, extractHref, find_eq]
  cases hsplit : splitOnce "href".toList (toAsciiLowercase tag) with
  | none => rfl
  | some p =>
    obtain ⟨before, rest⟩ := p
    have hcut : sliceFrom tag (byteLen before + 4) = some (tag.drop (before.length + 4)) :=
      sliceFrom_lowered hsplit
    simp only [Option.map_some, hcut, Option.bind_eq_bind, Option.bind_some]
    cases stripPrefix "=".toList (trimStart isWhitespace (tag.drop (before.length + 4))) with
    | none => rfl
    | some value =>
      simp only [Option.bind_some]
      generalize trimStart isWhitespace value = rest
      cases hfirst : rest.head? with
      | none => rfl
      | some first =>
        simp only [Option.bind_some]
        split_ifs with hdouble hsingle
        · rw [sliceFrom_one hfirst (by rw [hdouble]; rfl), Option.map_some]
          cases splitOnce "\"".toList (rest.drop 1) <;> rfl
        · rw [sliceFrom_one hfirst (by rw [hsingle]; rfl), Option.map_some]
          cases splitOnce "'".toList (rest.drop 1) <;> rfl
        · cases splitOnceAny (fun c => decide (c = ' ' ∨ c = '>')) rest <;> rfl

/-! ## The date -/

/-- The three bytes between two dashes are cut out as characters. -/
theorem slice_month {text : Text} {i : ℕ} (h2 : (encode text)[i + 2]? = some 0x2d)
    (h6 : (encode text)[i + 6]? = some 0x2d) :
    ∃ mon, slice text (i + 3) (i + 6) = some mon ∧
      encode mon = ((encode text).drop (i + 3)).take 3 := by
  obtain ⟨u, c, v, rfl, hu, hc⟩ := exists_char_of_ascii h2 (by decide)
  have huc : encode (u ++ [c]) = encode u ++ [0x2d] := by
    rw [encode_append, encode_cons, hc, encode_nil, List.append_nil]
  have hlen : byteLen (u ++ [c]) = i + 3 := by
    rw [byteLen, huc, List.length_append, List.length_singleton]
    exact congrArg (· + 1) hu
  have hsplit : u ++ c :: v = (u ++ [c]) ++ v := by simp
  rw [hsplit] at h6 ⊢
  rw [encode_append, List.getElem?_append_right (by rw [← byteLen, hlen]; omega), ← byteLen, hlen,
    show i + 6 - (i + 3) = 3 by omega] at h6
  obtain ⟨mon, d, rest, rfl, hmon, -⟩ := exists_char_of_ascii h6 (by decide)
  refine ⟨mon, ?_, ?_⟩
  · have hcut := slice_append (u ++ [c]) mon (d :: rest)
    rwa [hlen, hmon] at hcut
  · have hbytes : encode ((u ++ [c]) ++ (mon ++ d :: rest)) =
        encode (u ++ [c]) ++ (encode mon ++ encode (d :: rest)) := by
      rw [encode_append, encode_append mon]
    rw [hbytes, ← hlen, byteLen, List.drop_left, ← hmon, byteLen, List.take_left]

theorem checkedDateAt_eq {text : Text} {i : ℕ} (hlen : i + 17 ≤ (encode text).length)
    (h2 : (encode text)[i + 2]? = some 0x2d) (h6 : (encode text)[i + 6]? = some 0x2d) :
    checkedDateAt text (((encode text).drop i).take 17) i =
      some (dateAt (((encode text).drop i).take 17)) := by
  obtain ⟨mon, hslice, hencode⟩ := slice_month h2 h6
  generalize hw : ((encode text).drop i).take 17 = w
  have hwlen : w.length = 17 := by
    rw [← hw, List.length_take, List.length_drop]
    omega
  have hindex (k : ℕ) (hk : k < 17) : w[k]? = some (w.getD k 0) := by
    rw [List.getD_eq_getElem?_getD, List.getElem?_eq_getElem (by omega)]
    rfl
  have hmon : fromUtf8Lossy ((w.drop 3).take 3) = mon := by
    rw [← hw, List.drop_take, List.drop_drop, List.take_take, min_eq_left (by decide), ← hencode,
      fromUtf8Lossy_encode]
  simp only [checkedDateAt, dateAt, hindex, Nat.reduceLT, hslice, hmon, checkedTwoDigits_eq,
    Option.bind_eq_bind, Option.bind_some]
  cases twoDigits (w.getD 0 0) (w.getD 1 0) with
  | none => rfl
  | some day =>
    simp only [Option.bind_some]
    cases hm : months.findIdx? fun name => decide (name = toAsciiLowercase mon) with
    | none => rfl
    | some m =>
      have hm12 : fitU8 (m + 1) = some (m + 1) := by
        obtain ⟨hlt, -⟩ := List.findIdx?_eq_some_iff_getElem.mp hm
        have hmonths : months.length = 12 := rfl
        exact if_pos (by omega)
      simp only [Option.bind_some]
      cases twoDigits (w.getD 7 0) (w.getD 8 0) with
      | none => rfl
      | some century =>
        cases twoDigits (w.getD 9 0) (w.getD 10 0) with
        | none => rfl
        | some years =>
          cases twoDigits (w.getD 12 0) (w.getD 13 0) with
          | none => rfl
          | some hour =>
            cases twoDigits (w.getD 15 0) (w.getD 16 0) with
            | none => rfl
            | some minute =>
              simp only [hm12, Option.bind_some]
              split_ifs <;> rfl

theorem checkedFindDate_eq (text : Text) {fuel i : ℕ} (h : (encode text).length ≤ i + fuel) :
    checkedFindDate text (encode text) fuel i = some (findDateFrom ((encode text).drop i)) := by
  induction fuel generalizing i with
  | zero =>
    rw [List.drop_eq_nil_of_le (by omega)]
    rfl
  | succ fuel ih =>
    rw [checkedFindDate]
    by_cases hi : i < (encode text).length - 17
    · have hget (k : ℕ) (hk : k < 17) : (((encode text).drop i).take 17)[k]? =
          some (((encode text).drop i).getD k 0) := by
        rw [List.getElem?_take_of_lt hk, List.getD_eq_getElem?_getD, List.getElem?_drop,
          List.getElem?_eq_getElem (by omega)]
        rfl
      have hat (k : ℕ) (b : UInt8) (hk : k < 17) (hb : ((encode text).drop i).getD k 0 = b) :
          (encode text)[i + k]? = some b := by
        rw [← hb, ← hget k hk, List.getElem?_take_of_lt hk, List.getElem?_drop]
      have hlong : ¬((encode text).drop i).length ≤ 17 := by
        rw [List.length_drop]
        omega
      have hmodel : findDateFrom ((encode text).drop i) =
          if ((encode text).drop i).getD 2 0 = 0x2d ∧ ((encode text).drop i).getD 6 0 = 0x2d ∧
              ((encode text).drop i).getD 11 0 = 0x20 then
            dateAt (((encode text).drop i).take 17)
          else findDateFrom ((encode text).drop (i + 1)) := by
        rw [List.drop_eq_getElem_cons (by omega)] at hlong ⊢
        rw [findDateFrom, if_neg hlong]
      rw [if_pos hi, if_pos (by omega), hmodel]
      simp only [Option.bind_eq_bind, Option.bind_some, hget, Nat.reduceLT]
      by_cases hsep : ((encode text).drop i).getD 2 0 = 0x2d ∧
          ((encode text).drop i).getD 6 0 = 0x2d ∧ ((encode text).drop i).getD 11 0 = 0x20
      · rw [if_neg (by simp only [hsep, ne_eq, not_true, or_self, not_false_eq_true]),
          if_pos hsep]
        exact checkedDateAt_eq (by omega) (hat 2 _ (by decide) hsep.1)
          (hat 6 _ (by decide) hsep.2.1)
      · rw [if_pos (by simpa only [ne_eq, not_and_or] using hsep), if_neg hsep, ih (by omega)]
    · rw [if_neg hi]
      cases hdrop : (encode text).drop i with
      | nil => rfl
      | cons b rest =>
        have hlen : (b :: rest).length ≤ 17 := by
          rw [← hdrop, List.length_drop]
          omega
        rw [findDateFrom, if_pos hlen]

/-! ## Sizes, anchors and blocks -/

/-- The slice before a last character of one byte. -/
theorem checkedInit_eq {tok : Text} {c : Char} (h : tok.getLast? = some c) (hc : c.utf8Size = 1) :
    checkedInit tok = some tok.dropLast := by
  obtain ⟨num, rfl⟩ : ∃ num, tok = num ++ [c] := List.getLast?_eq_some_iff.mp h
  have hlen : byteLen (num ++ [c]) = byteLen num + 1 := by
    rw [byteLen_append, byteLen_cons, hc, byteLen_nil]
  rw [checkedInit, hlen, if_pos (Nat.le_add_left 1 _), Nat.add_sub_cancel, sliceTo_append,
    List.dropLast_concat]

theorem checkedSizeToken_eq (ext : Externals) (tok : Text) :
    checkedSizeToken ext tok = some (parseSizeToken ext tok) := by
  rw [checkedSizeToken, parseSizeToken]
  cases hlast : tok.getLast? with
  | none => rfl
  | some c =>
    split
    · rename_i h
      cases h
    · rename_i h
      cases h
      rw [checkedInit_eq hlast rfl]
      rfl
    · rename_i h
      cases h
      rw [checkedInit_eq hlast rfl]
      rfl
    · rename_i h
      cases h
      rw [checkedInit_eq hlast rfl]
      rfl
    · rename_i h
      cases h
      rw [checkedInit_eq hlast rfl]
      rfl
    · rename_i hK hM hG hT h
      cases h
      simp only

theorem checkedFindSize_eq (ext : Externals) (toks : List Text) :
    checkedFindSize ext toks = some (findSizeIn ext toks) := by
  induction toks with
  | nil => rfl
  | cons tok toks ih =>
    rw [checkedFindSize, findSizeIn]
    split
    · rfl
    · rw [checkedSizeToken_eq, Option.bind_eq_bind, Option.bind_some]
      cases parseSizeToken ext tok with
      | none => exact ih
      | some size => rfl

theorem checkedNextAnchor_eq (rest : Text) : checkedNextAnchor rest = some (nextAnchor rest) := by
  rw [checkedNextAnchor, nextAnchor, find_eq]
  cases hA : splitOnce "<a ".toList rest with
  | none => rfl
  | some p =>
    obtain ⟨before, afterA⟩ := p
    have hafterA : sliceFrom rest (byteLen before + 3) = some afterA := (slices_of_splitOnce hA).2
    simp only [Option.map_some, hafterA, Option.bind_eq_bind, Option.bind_some, find_eq]
    cases hTag : splitOnce ">".toList afterA with
    | none => rfl
    | some p =>
      obtain ⟨tag, afterTag⟩ := p
      have htag := (slices_of_splitOnce hTag).1
      have hafterTag : sliceFrom afterA (byteLen tag + 1) = some afterTag :=
        (slices_of_splitOnce hTag).2
      simp only [Option.map_some, htag, hafterTag, Option.bind_some, checkedExtractHref_eq]
      cases extractHref tag with
      | none => rfl
      | some href =>
        simp only
        cases hInner : splitOnce "</a>".toList afterTag with
        | none => rfl
        | some p =>
          obtain ⟨inner, trailing⟩ := p
          have hinner := (slices_of_splitOnce hInner).1
          have htrailing : sliceFrom afterTag (byteLen inner + 4) = some trailing :=
            (slices_of_splitOnce hInner).2
          simp only [Option.map_some, hinner, htrailing, Option.bind_some]
          rfl

theorem checkedScanAnchors_eq (fuel : ℕ) (rest : Text) :
    checkedScanAnchors fuel rest = some (scanAnchors fuel rest).1 := by
  induction fuel generalizing rest with
  | zero => rfl
  | succ fuel ih =>
    rw [checkedScanAnchors, scanAnchors, checkedNextAnchor_eq, Option.bind_eq_bind,
      Option.bind_some]
    cases nextAnchor rest with
    | finished => rfl
    | gaveUp => rfl
    | skipped rest => exact ih rest
    | found a =>
      simp only [ih]
      rfl

/-- The two slices of a block and the one behind it. -/
theorem block_slices {start stop rest before inside block after : Text}
    (hopen : splitOnce start rest = some (before, inside))
    (hclose : splitOnce stop inside = some (block, after)) :
    slice rest (byteLen before + byteLen start)
        (byteLen block + (byteLen before + byteLen start)) = some block ∧
      sliceFrom rest (byteLen block + (byteLen before + byteLen start) + byteLen stop) =
        some after := by
  have hwhole : rest = (before ++ start) ++ (block ++ (stop ++ after)) := by
    rw [splitOnce_eq_append hopen, splitOnce_eq_append hclose, List.append_assoc]
  constructor
  · rw [← byteLen_append, hwhole, Nat.add_comm (byteLen block), slice_append]
  · have hcut := sliceFrom_append ((before ++ start) ++ (block ++ stop)) after
    rw [List.append_assoc, List.append_assoc block, ← hwhole] at hcut
    rw [← hcut]
    congr 1
    simp only [byteLen_append]
    omega

theorem checkedTakeBlock_eq (tag rest : Text) :
    checkedTakeBlock tag rest = some (takeBlock tag rest) := by
  rw [checkedTakeBlock, takeBlock, find_eq]
  cases hopen : splitOnce (openTag tag) rest with
  | none => rfl
  | some p =>
    obtain ⟨before, inside⟩ := p
    have hinside := (slices_of_splitOnce hopen).2
    simp only [Option.map_some, hinside, Option.bind_eq_bind, Option.bind_some, find_eq]
    cases hclose : splitOnce (closeTag tag) inside with
    | none => rfl
    | some p =>
      obtain ⟨block, after⟩ := p
      obtain ⟨hblock, hafter⟩ := block_slices hopen hclose
      simp only [Option.map_some, hblock, hafter, Option.bind_some]
      rfl

theorem checkedInnerTag_eq (block tag : Text) :
    checkedInnerTag block tag = some (innerTag block tag) := by
  rw [checkedInnerTag, innerTag, takeBlock, find_eq]
  cases hopen : splitOnce (openTag tag) block with
  | none => rfl
  | some p =>
    obtain ⟨before, inside⟩ := p
    have hinside := (slices_of_splitOnce hopen).2
    simp only [Option.map_some, hinside, Option.bind_eq_bind, Option.bind_some, find_eq]
    cases hclose : splitOnce (closeTag tag) inside with
    | none => rfl
    | some p =>
      simp only [Option.map_some, (block_slices hopen hclose).1, Option.bind_some]
      rfl

theorem checkedTakeBlocks_eq (tag : Text) (fuel : ℕ) (rest : Text) :
    checkedTakeBlocks tag fuel rest = some (takeBlocks tag fuel rest) := by
  induction fuel generalizing rest with
  | zero => rfl
  | succ fuel ih =>
    rw [checkedTakeBlocks, takeBlocks, checkedTakeBlock_eq, Option.bind_eq_bind, Option.bind_some]
    cases takeBlock tag rest with
    | none => rfl
    | some p =>
      simp only [ih, Option.bind_eq_bind, Option.bind_some]
      rfl

/-! ## The parsers -/

theorem entriesOf_eq_some {α : Type} {entry : α → Option (Option Entry)} {xs : List α}
    {f : α → Option Entry} (h : ∀ x ∈ xs, entry x = some (f x)) :
    entriesOf entry xs = some (xs.filterMap f) := by
  induction xs with
  | nil => rfl
  | cons x xs ih =>
    rw [entriesOf, h x (by simp), ih fun y hy => h y (by simp [hy])]
    simp only [Option.bind_eq_bind, Option.bind_some, Option.pure_def]
    cases hx : f x with
    | none => rw [List.filterMap_cons_none hx]; rfl
    | some e => rw [List.filterMap_cons_some hx]; rfl

theorem entriesOf_isSome_iff {α : Type} {entry : α → Option (Option Entry)} {xs : List α} :
    (entriesOf entry xs).isSome ↔ ∀ x ∈ xs, (entry x).isSome := by
  induction xs with
  | nil => simp [entriesOf]
  | cons x xs ih =>
    rw [List.forall_mem_cons, ← ih, entriesOf]
    cases entry x with
    | none => simp
    | some e =>
      cases entriesOf entry xs with
      | none => simp
      | some es => simp

theorem checkedAnchorEntry_eq (ext : Externals) (a : Anchor) :
    checkedAnchorEntry ext a = some (anchorEntry ext a) := by
  rw [checkedAnchorEntry, anchorEntry, scanTrailing]
  split
  · generalize replace "\n".toList " ".toList (stripHtml (a.trailing.take 400)) = text
    have hdate := checkedFindDate_eq text (Nat.le_add_left (encode text).length 0)
    have hdecode := checkedPercentDecode_eq (encode a.href)
      (Nat.le_add_left (encode a.href).length 0)
    simp only [hdate, hdecode, checkedFindSize_eq, Option.bind_eq_bind, Option.bind_some,
      List.drop_zero]
    have hpath := classify_path (trim (if a.label.isEmpty then a.href else a.label)) a.href
    unfold percentDecode at hpath
    rw [← hpath]
    rfl
  · rfl

/-- No slice of the HTML parser fails. -/
theorem checkedNginxParse_eq (ext : Externals) (html : Bytes) :
    checkedNginxParse ext html = some (nginxParse ext html) := by
  rw [checkedNginxParse, nginxParse, scanPage, checkedScanAnchors_eq, Option.bind_eq_bind,
    Option.bind_some]
  exact entriesOf_eq_some fun a _ => checkedAnchorEntry_eq ext a

/-- The `LastModified` of a block that has a key. -/
def objectTime (contents : Text) : Option Text :=
  match innerTag contents "Key".toList with
  | none => none
  | some key => if key.isEmpty then none else innerTag contents "LastModified".toList

/-- The time stamps that `parse_mod_time` is given. -/
def modTimes (ext : Externals) : IndexParser → Bytes → List Text
  | .caddy, body => (listedItems ((ext.caddyItems body).getD [])).filterMap CaddyItem.modTime
  | .s3, body =>
    let text := fromUtf8Lossy body
    (takeBlocks "Contents".toList text.length text).filterMap objectTime
  | _, _ => []

/-- Byte 19 of the stamp, or its end, stands between two characters. -/
def CutsWhole (s : Text) : Prop :=
  ∃ a b, stampHead s = a ++ b ∧ byteLen a = min (byteLen (stampHead s)) 19

theorem checkedModTime_isSome_iff {tp : TimeParsers} {s : Text} :
    (checkedModTime tp s).isSome ↔ tp.rfc3339 s ≠ none ∨ CutsWhole s := by
  rw [checkedModTime]
  cases tp.rfc3339 s with
  | some d => simp
  | none => simp only [Option.isSome_map, sliceTo_isSome_iff, CutsWhole, ne_eq, not_true,
      false_or]

theorem checkedModified_isSome_iff {tp : TimeParsers} {o : Option Text} :
    (checkedModified tp o).isSome ↔ ∀ s, o = some s → (checkedModTime tp s).isSome := by
  cases o with
  | none => simp [checkedModified]
  | some s => simp [checkedModified]

theorem checkedContentsEntry_isSome_iff {tp : TimeParsers} {contents : Text} :
    (checkedContentsEntry tp contents).isSome ↔
      ∀ s, objectTime contents = some s → (checkedModTime tp s).isSome := by
  rw [checkedContentsEntry, objectTime]
  simp only [checkedInnerTag_eq, Option.bind_eq_bind, Option.bind_some]
  cases innerTag contents "Key".toList with
  | none => simp
  | some key =>
    simp only
    split
    · simp
    · rw [← checkedModified_isSome_iff]
      cases checkedModified tp (innerTag contents "LastModified".toList) with
      | none => simp
      | some modified => simp

theorem checkedPrefixEntry_eq (prefixes : Text) :
    checkedPrefixEntry prefixes = some (prefixEntry prefixes) := by
  rw [checkedPrefixEntry, prefixEntry, checkedInnerTag_eq]
  simp only [Option.bind_eq_bind, Option.bind_some]
  cases innerTag prefixes "Prefix".toList with
  | none => rfl
  | some pre => rfl

theorem checkedS3Parse_isSome_iff {tp : TimeParsers} {body : Bytes} :
    (checkedS3Parse tp body).isSome ↔
      ∀ contents ∈ takeBlocks "Contents".toList (fromUtf8Lossy body).length (fromUtf8Lossy body),
        (checkedContentsEntry tp contents).isSome := by
  rw [checkedS3Parse]
  simp only [checkedTakeBlocks_eq, Option.bind_eq_bind, Option.bind_some]
  rw [← entriesOf_isSome_iff, entriesOf_eq_some fun p _ => checkedPrefixEntry_eq p]
  cases entriesOf (checkedContentsEntry tp) _ with
  | none => exact Iff.rfl
  | some objects => exact iff_of_true rfl rfl

theorem checkedCaddyParse_isSome_iff {ext : Externals} {tp : TimeParsers} {body : Bytes} :
    (checkedCaddyParse ext tp body).isSome ↔
      ∀ i ∈ listedItems ((ext.caddyItems body).getD []),
        (checkedModified tp i.modTime).isSome := by
  rw [checkedCaddyParse]
  cases ext.caddyItems body with
  | none => simp [listedItems]
  | some items =>
    simp only [Option.getD_some, entriesOf_isSome_iff]
    refine forall₂_congr fun i _ => ?_
    cases checkedModified tp i.modTime with
    | none => simp
    | some modified => simp

theorem checkedModified_eq {ext : Externals} {tp : TimeParsers} {o : Option Text}
    (h : ∀ s, o = some s → checkedModTime tp s = some (ext.parseModTime s)) :
    checkedModified tp o = some (o.bind ext.parseModTime) := by
  cases o with
  | none => rfl
  | some s => exact h s rfl

theorem checkedContentsEntry_eq {ext : Externals} {tp : TimeParsers} {contents : Text}
    (h : ∀ s, objectTime contents = some s → checkedModTime tp s = some (ext.parseModTime s)) :
    checkedContentsEntry tp contents = some (contentsEntry ext contents) := by
  rw [objectTime] at h
  rw [checkedContentsEntry, contentsEntry]
  simp only [checkedInnerTag_eq, Option.bind_eq_bind, Option.bind_some]
  cases hkey : innerTag contents "Key".toList with
  | none => rfl
  | some key =>
    simp only [hkey] at h ⊢
    split
    · rfl
    · rename_i hne
      rw [if_neg hne] at h
      rw [checkedModified_eq h]
      rfl

/-- Where the time stamps are cut whole, the parsers are those of the listing. -/
theorem checkedParse_eq {ext : Externals} {tp : TimeParsers} {parser : IndexParser} {body : Bytes}
    (h : ∀ s ∈ modTimes ext parser body, checkedModTime tp s = some (ext.parseModTime s)) :
    parser.checkedParse ext tp body = some (parser.parse ext body) := by
  cases parser with
  | nginx => exact checkedNginxParse_eq ext body
  | apache => exact checkedNginxParse_eq ext body
  | directoryListing => exact checkedNginxParse_eq ext body
  | fallback => rfl
  | caddy =>
    simp only [modTimes, List.forall_mem_filterMap] at h
    simp only [IndexParser.checkedParse, IndexParser.parse, checkedCaddyParse, caddyParse]
    cases hitems : ext.caddyItems body with
    | none => rfl
    | some items =>
      rw [hitems, Option.getD_some] at h
      rw [← List.filterMap_eq_map]
      refine entriesOf_eq_some fun i hi => ?_
      rw [checkedModified_eq (h i hi)]
      rfl
  | s3 =>
    simp only [modTimes, List.forall_mem_filterMap] at h
    simp only [IndexParser.checkedParse, IndexParser.parse, checkedS3Parse, s3Parse,
      checkedTakeBlocks_eq, Option.bind_eq_bind, Option.bind_some]
    rw [entriesOf_eq_some fun c hc => checkedContentsEntry_eq (h c hc),
      entriesOf_eq_some fun p _ => checkedPrefixEntry_eq p]
    rfl

/-- A parser comes back from a body exactly when `parse_mod_time` cuts no character in two. -/
theorem parse_total_iff (ext : Externals) (tp : TimeParsers) (parser : IndexParser)
    (body : Bytes) :
    (parser.checkedParse ext tp body).isSome ↔
      ∀ s ∈ modTimes ext parser body, tp.rfc3339 s ≠ none ∨ CutsWhole s := by
  simp only [← checkedModTime_isSome_iff]
  cases parser with
  | nginx => simp [IndexParser.checkedParse, checkedNginxParse_eq, modTimes]
  | apache => simp [IndexParser.checkedParse, checkedNginxParse_eq, modTimes]
  | directoryListing => simp [IndexParser.checkedParse, checkedNginxParse_eq, modTimes]
  | fallback => simp [IndexParser.checkedParse, modTimes]
  | caddy =>
    simp only [IndexParser.checkedParse, checkedCaddyParse_isSome_iff, modTimes,
      List.forall_mem_filterMap, checkedModified_isSome_iff]
  | s3 =>
    simp only [IndexParser.checkedParse, checkedS3Parse_isSome_iff, modTimes,
      List.forall_mem_filterMap, checkedContentsEntry_isSome_iff]

/-- A body whose one time stamp has a two-byte character at byte 18. -/
theorem stamp_cut_in_two :
    IndexParser.s3.checkedParse ⟨fun _ => none, fun _ => none, fun _ => none, fun _ _ => none,
        fun _ => false, fun _ _ => false⟩ ⟨fun _ => none, fun _ => none⟩
      (encode ("<Contents><Key>a</Key><LastModified>2026-08-16T10:00:0é</LastModified>".toList ++
        "</Contents>".toList)) = none := by
  decide +kernel

end Synora.Mirror
