import Synora.Lib.Utf8

namespace Synora.Mirror
open Strings Utf8

inductive EntryKind
  | file | dir | symlink
deriving DecidableEq, Repr

/-- `PrimitiveDateTime` -/
structure DateTime where
  year : ℕ
  month : ℕ
  day : ℕ
  hour : ℕ
  minute : ℕ
  second : ℕ
deriving DecidableEq, Repr

/-- One entry of a directory listing. -/
structure Entry where
  path : Text
  size : Option ℕ
  modified : Option DateTime
  kind : EntryKind
  symlinkTarget : Option Text
deriving DecidableEq, Repr

structure CaddyItem where
  name : Text
  size : Option ℕ
  modTime : Option Text
  isDir : Bool
deriving DecidableEq, Repr

/-- A node of a parsed XML document. -/
inductive Xml
  | element (tag : Text) (attributes : List (Text × Text)) (children : List Xml)
  | text (content : Text)

/-- The third-party code of the planner. -/
structure Externals where
  /-- `serde_json::from_slice::<Vec<CaddyItem>>` -/
  caddyItems : Bytes → Option (List CaddyItem)
  /-- `roxmltree::Document::parse`, as the root element -/
  parseXml : Text → Option Xml
  /-- `parse_mod_time`, over the `time` crate's parsers -/
  parseModTime : Text → Option DateTime
  /-- `(num.parse::<f64>()? * mult).round() as u64` -/
  scaleSize : Text → ℕ → Option ℕ
  /-- `glob::Pattern::new(p)` succeeds -/
  globValid : Text → Bool
  /-- `pattern.matches_with(text, options)` -/
  globMatches : Text → Text → Bool

/-! ## HTML -/

def decodeEntities (t : Text) : Text :=
  let t := replace "&amp;".toList "&".toList t
  let t := replace "&lt;".toList "<".toList t
  let t := replace "&gt;".toList ">".toList t
  let t := replace "&quot;".toList "\"".toList t
  replace "&#39;".toList "'".toList t

/-- The text of `strip_html` before it is trimmed; a tag boundary becomes a blank. -/
def stripTags : Bool → Text → Text
  | _, [] => []
  | inTag, c :: cs =>
    if c = '<' then stripTags true cs
    else if c = '>' then ' ' :: stripTags false cs
    else if inTag then stripTags inTag cs
    else c :: stripTags inTag cs

def stripHtml (t : Text) : Text := decodeEntities (trim (stripTags false t))

def fromHex (b : UInt8) : Option UInt8 :=
  if 0x30 ≤ b ∧ b ≤ 0x39 then some (b - 0x30)
  else if 0x61 ≤ b ∧ b ≤ 0x66 then some (b - 0x61 + 10)
  else if 0x41 ≤ b ∧ b ≤ 0x46 then some (b - 0x41 + 10)
  else none

def percentDecodeBytes : Bytes → Bytes
  | [] => []
  | b :: rest =>
    match rest with
    | hi :: lo :: rest₂ =>
      if b = 0x25 then
        match fromHex hi, fromHex lo with
        | some h, some l => (h <<< 4 ||| l) :: percentDecodeBytes rest₂
        | _, _ => b :: percentDecodeBytes (hi :: lo :: rest₂)
      else b :: percentDecodeBytes (hi :: lo :: rest₂)
    | rest => b :: percentDecodeBytes rest

def percentDecode (t : Text) : Text := fromUtf8Lossy (percentDecodeBytes (encode t))

/-- The `href` attribute of an anchor tag. -/
def extractHref (tag : Text) : Option Text := do
  let (before, _) ← splitOnce "href".toList (toAsciiLowercase tag)
  let rest := trimStart isWhitespace (tag.drop (before.length + 4))
  let rest ← stripPrefix "=".toList rest
  let rest := trimStart isWhitespace rest
  let first ← rest.head?
  let (value, _) ←
    if first = '"' then splitOnce "\"".toList (rest.drop 1)
    else if first = '\'' then splitOnce "'".toList (rest.drop 1)
    else splitOnceAny (fun c => decide (c = ' ' ∨ c = '>')) rest
  pure (decodeEntities value)

def isListable (href : Text) : Bool :=
  if href = "../".toList ∨ href = "..".toList ∨ href = "/".toList ∨
      "http://".toList.isPrefixOf href ∨ "https://".toList.isPrefixOf href ∨
      "mailto:".toList.isPrefixOf href ∨ '?' ∈ href then false
  else if href.any fun c => isWhitespace c || decide (c = '<' ∨ c = '>') then false
  else if "..".toList ∈ segments href then false
  else
    let name := (segments (trimEnd isSlash href)).getLast?.getD []
    !name.isEmpty && !decide (name = ".".toList)

/-- Kind and path from the href and the displayed name. -/
def classify (display href : Text) : EntryKind × Text :=
  let path := percentDecode href
  if "/".toList.isSuffixOf href then (.dir, path)
  else if "@".toList.isSuffixOf (trimEnd isSlash display) then (.symlink, path)
  else (.file, path)

@[simp] theorem classify_path (display href : Text) :
    (classify display href).2 = percentDecode href := by
  unfold classify
  dsimp only
  split_ifs <;> rfl

def twoDigits (a b : UInt8) : Option ℕ :=
  if (0x30 ≤ a ∧ a ≤ 0x39) ∧ (0x30 ≤ b ∧ b ≤ 0x39) then
    some ((a.toNat - 0x30) * 10 + (b.toNat - 0x30))
  else none

def months : List Text :=
  ["jan", "feb", "mar", "apr", "may", "jun", "jul", "aug", "sep", "oct", "nov", "dec"].map
    String.toList

/-- `time::util::days_in_month` -/
def daysInMonth (year month : ℕ) : ℕ :=
  if month = 2 then if year % 4 = 0 ∧ (year % 100 ≠ 0 ∨ year % 400 = 0) then 29 else 28
  else if month ∈ [4, 6, 9, 11] then 30
  else 31

/-- `dd-Mon-yyyy hh:mm` in a window whose separators are in place. -/
def dateAt (w : Bytes) : Option DateTime := do
  let at_ (i : ℕ) : UInt8 := w.getD i 0
  let day ← twoDigits (at_ 0) (at_ 1)
  let mon := toAsciiLowercase (fromUtf8Lossy ((w.drop 3).take 3))
  let m ← months.findIdx? fun name => decide (name = mon)
  let century ← twoDigits (at_ 7) (at_ 8)
  let years ← twoDigits (at_ 9) (at_ 10)
  let hour ← twoDigits (at_ 12) (at_ 13)
  let minute ← twoDigits (at_ 15) (at_ 16)
  let year := century * 100 + years
  if 1 ≤ day ∧ day ≤ daysInMonth year (m + 1) ∧ hour < 24 ∧ minute < 60 then
    some ⟨year, m + 1, day, hour, minute, 0⟩
  else none

/-- The first window decides; the loop bound leaves out the last one. -/
def findDateFrom : Bytes → Option DateTime
  | [] => none
  | b :: rest =>
    if (b :: rest).length ≤ 17 then none
    else if (b :: rest).getD 2 0 = 0x2d ∧ (b :: rest).getD 6 0 = 0x2d ∧
        (b :: rest).getD 11 0 = 0x20 then dateAt ((b :: rest).take 17)
    else findDateFrom rest

def findDate (t : Text) : Option DateTime := findDateFrom (encode t)

section
variable (ext : Externals)

def parseSizeToken (tok : Text) : Option ℕ :=
  match tok.getLast? with
  | none => none
  | some 'K' => ext.scaleSize tok.dropLast 1024
  | some 'M' => ext.scaleSize tok.dropLast (1024 ^ 2)
  | some 'G' => ext.scaleSize tok.dropLast (1024 ^ 3)
  | some 'T' => ext.scaleSize tok.dropLast (1024 ^ 4)
  | some _ => ext.scaleSize tok 1

def findSizeIn : List Text → Option ℕ
  | [] => none
  | tok :: toks =>
    if tok = "-".toList ∨ tok = "—".toList then none
    else (parseSizeToken ext tok).or (findSizeIn toks)

def findSize (t : Text) : Option ℕ := findSizeIn ext (splitWhitespace t)

def scanTrailing (trailing : Text) : Option ℕ × Option DateTime :=
  let text := replace "\n".toList " ".toList (stripHtml (trailing.take 400))
  (findSize ext text, findDate text)

end

/-- An anchor as the scanner reads it. -/
structure Anchor where
  href : Text
  label : Text
  trailing : Text
deriving DecidableEq, Repr

inductive Scan
  | finished
  /-- `break` inside an anchor: its tag or its text has no end. -/
  | gaveUp
  | skipped (rest : Text)
  | found (a : Anchor)

/-- One round of the scanning loop. -/
def nextAnchor (rest : Text) : Scan :=
  match splitOnce "<a ".toList rest with
  | none => .finished
  | some (_, afterA) =>
    match splitOnce ">".toList afterA with
    | none => .gaveUp
    | some (tag, afterTag) =>
      match extractHref tag with
      | none => .skipped afterTag
      | some href =>
        match splitOnce "</a>".toList afterTag with
        | none => .gaveUp
        | some (inner, trailing) => .found ⟨href, stripHtml inner, trailing⟩

/-- The anchors of a page, and whether the loop gave up inside one. -/
def scanAnchors : ℕ → Text → List Anchor × Bool
  | 0, _ => ([], false)
  | fuel + 1, rest =>
    match nextAnchor rest with
    | .finished => ([], false)
    | .gaveUp => ([], true)
    | .skipped rest => scanAnchors fuel rest
    | .found a => (a :: (scanAnchors fuel a.trailing).1, (scanAnchors fuel a.trailing).2)

/-- The text the next round starts from. -/
def Scan.rest : Scan → Option Text
  | .finished | .gaveUp => none
  | .skipped rest => some rest
  | .found a => some a.trailing

/-- Each round consumes text. -/
theorem nextAnchor_length {rest rest' : Text} (h : (nextAnchor rest).rest = some rest') :
    rest'.length < rest.length := by
  unfold nextAnchor at h
  split at h
  · cases h
  rename_i before afterA hA
  have hlenA := splitOnce_length hA
  have hopen : "<a ".toList.length = 3 := rfl
  split at h
  · cases h
  rename_i tag afterTag hTag
  have hlenTag := splitOnce_length hTag
  split at h
  · cases h
    omega
  split at h
  · cases h
  · rename_i inner trailing hInner
    have hlenInner := splitOnce_length hInner
    cases h
    simp only
    omega

/-- The length of the page is enough fuel: the loop ends by itself. -/
theorem scanAnchors_succ (fuel : ℕ) (rest : Text) (h : rest.length ≤ fuel) :
    scanAnchors (fuel + 1) rest = scanAnchors fuel rest := by
  induction fuel generalizing rest with
  | zero =>
    obtain rfl : rest = [] := List.length_eq_zero_iff.mp (Nat.le_zero.mp h)
    rfl
  | succ fuel ih =>
    rw [scanAnchors, scanAnchors]
    split
    · rfl
    · rfl
    · rename_i rest' hn
      have hlen : rest'.length < rest.length := nextAnchor_length (by rw [hn]; rfl)
      exact ih rest' (by omega)
    · rename_i a hn
      have hlen : a.trailing.length < rest.length := nextAnchor_length (by rw [hn]; rfl)
      rw [ih a.trailing (by omega)]

def scanPage (html : Bytes) : List Anchor × Bool :=
  let text := fromUtf8Lossy html
  scanAnchors text.length text

def anchorEntry (ext : Externals) (a : Anchor) : Option Entry :=
  if isListable a.href then
    let name := if a.label.isEmpty then a.href else a.label
    let (size, modified) := scanTrailing ext a.trailing
    let (kind, path) := classify (trim name) a.href
    some ⟨path, size, modified, kind, none⟩
  else none

/-- `NginxParser::parse` -/
def nginxParse (ext : Externals) (html : Bytes) : List Entry :=
  (scanPage html).1.filterMap (anchorEntry ext)

/-! ## Caddy and S3 -/

def caddyParse (ext : Externals) (body : Bytes) : List Entry :=
  match ext.caddyItems body with
  | none => []
  | some items =>
    (items.filter fun i => !i.name.isEmpty &&
      !decide (i.name = ".".toList) && !decide (i.name = "..".toList)).map fun i =>
      ⟨i.name, i.size, i.modTime.bind ext.parseModTime, if i.isDir then .dir else .file, none⟩

def openTag (tag : Text) : Text := "<".toList ++ tag ++ ">".toList

def closeTag (tag : Text) : Text := "</".toList ++ tag ++ ">".toList

/-- The first block of a tag, and what follows it. -/
def takeBlock (tag rest : Text) : Option (Text × Text) := do
  let (_, inside) ← splitOnce (openTag tag) rest
  splitOnce (closeTag tag) inside

def innerTag (block tag : Text) : Option Text := (takeBlock tag block).map fun p =>
  decodeEntities p.1

/-- The blocks that the `while let Some(..) = take_block(..)` loop sees. -/
def takeBlocks (tag : Text) : ℕ → Text → List Text
  | 0, _ => []
  | fuel + 1, rest =>
    match takeBlock tag rest with
    | none => []
    | some (block, rest) => block :: takeBlocks tag fuel rest

theorem takeBlocks_succ (tag : Text) (fuel : ℕ) (rest : Text) (h : rest.length ≤ fuel) :
    takeBlocks tag (fuel + 1) rest = takeBlocks tag fuel rest := by
  induction fuel generalizing rest with
  | zero =>
    obtain rfl : rest = [] := List.length_eq_zero_iff.mp (Nat.le_zero.mp h)
    rfl
  | succ fuel ih =>
    rw [takeBlocks, takeBlocks]
    split
    · rfl
    · rename_i block rest' hb
      simp only [takeBlock, Option.bind_eq_bind, Option.bind_eq_some_iff] at hb
      obtain ⟨p, hp, hc⟩ := hb
      have hlen := splitOnce_length hp
      have hlen' := splitOnce_length hc
      have hopen : 0 < (openTag tag).length := by simp [openTag]
      rw [ih rest' (by omega)]

/-- `str::parse::<u64>` -/
def parseU64 (t : Text) : Option ℕ :=
  let digits := (stripPrefix "+".toList t).getD t
  if digits.isEmpty ∨ ¬digits.all Char.isDigit then none
  else
    let n := digits.foldl (fun n c => n * 10 + (c.toNat - '0'.toNat)) 0
    if n < 2 ^ 64 then some n else none

def contentsEntry (ext : Externals) (contents : Text) : Option Entry :=
  match innerTag contents "Key".toList with
  | none => none
  | some key =>
    if key.isEmpty then none
    else some ⟨key, (innerTag contents "Size".toList).bind parseU64,
      (innerTag contents "LastModified".toList).bind ext.parseModTime,
      if "/".toList.isSuffixOf key then .dir else .file, none⟩

def prefixEntry (prefixes : Text) : Option Entry :=
  match innerTag prefixes "Prefix".toList with
  | none => none
  | some pre => if pre.isEmpty then none else some ⟨pre, none, none, .dir, none⟩

def s3Parse (ext : Externals) (body : Bytes) : List Entry :=
  let text := fromUtf8Lossy body
  (takeBlocks "Contents".toList text.length text).filterMap (contentsEntry ext) ++
    (takeBlocks "CommonPrefixes".toList text.length text).filterMap prefixEntry

/-! ## The parsers by name -/

inductive IndexParser
  | nginx | apache | caddy | s3 | directoryListing | fallback
deriving DecidableEq, Repr

def parserFor (name : String) : Option IndexParser :=
  match name with
  | "nginx" => some .nginx
  | "apache" => some .apache
  | "caddy" => some .caddy
  | "s3" => some .s3
  | "directory-listing" => some .directoryListing
  | "fallback" => some .fallback
  | _ => none

def IndexParser.parse (ext : Externals) : IndexParser → Bytes → List Entry
  | .nginx | .apache | .directoryListing => nginxParse ext
  | .caddy => caddyParse ext
  | .s3 => s3Parse ext
  | .fallback => fun _ => []

end Synora.Mirror
