import Synora.Lib.Slice
import Synora.Storage.Names

namespace Synora.Storage
open Strings Utf8

/-! ## The characters of a name -/

/-- Digits of numbers and of identifiers, and the signs between and before them. -/
def isStampByte (b : UInt8) : Bool := isAsciiHexDigit b || decide (b = 0x2b ∨ b = 0x2d)

def isStampChar (c : Char) : Bool :=
  decide (('0' ≤ c ∧ c ≤ '9') ∨ ('A' ≤ c ∧ c ≤ 'F') ∨ ('a' ≤ c ∧ c ≤ 'f') ∨ c = '+' ∨ c = '-')

theorem isStampByte_lt {b : UInt8} (h : isStampByte b) : b < 0x80 := by
  unfold isStampByte isAsciiHexDigit at h
  simp only [Bool.or_eq_true, decide_eq_true_eq, UInt8.le_iff_toNat_le, ← UInt8.toNat_inj,
    UInt8.toNat_ofNat] at h
  have hbound : (0x80 : UInt8).toNat = 128 := rfl
  rw [UInt8.lt_iff_toNat_lt, hbound]
  omega

theorem isStampChar_of_bytes {t : Text} (h : (encode t).all isStampByte) :
    ∀ c ∈ t, isStampChar c := by
  intro c hc
  have hbyte : ∀ b ∈ String.utf8EncodeChar c, isStampByte b := by
    intro b hb
    exact List.all_eq_true.mp h b (List.mem_flatMap.mpr ⟨c, hc, hb⟩)
  have hne : String.utf8EncodeChar c ≠ [] := by
    rw [← List.length_pos_iff, String.length_utf8EncodeChar]
    exact c.utf8Size_pos
  obtain ⟨b, hb⟩ := List.exists_mem_of_ne_nil _ hne
  have hstamp := hbyte b hb
  have hone := utf8EncodeChar_high hb (isStampByte_lt hstamp)
  have hchar : c = Char.ofNat b.toNat := by
    have hdecode := fromUtf8Lossy_encode [c]
    have hencode : encode [c] = [b] := by
      rw [encode_cons, hone]
      rfl
    rw [hencode, fromUtf8Lossy, if_pos (isStampByte_lt hstamp)] at hdecode
    exact (List.cons.inj hdecode).1.symm
  have hall : ∀ n < 128, isStampByte (UInt8.ofNat n) → isStampChar (Char.ofNat n) := by decide
  have hlt : b.toNat < 128 := by
    have := isStampByte_lt hstamp
    rwa [UInt8.lt_iff_toNat_lt] at this
  rw [hchar]
  refine hall b.toNat hlt ?_
  rwa [UInt8.ofNat_toNat]

theorem parseDigits_stamp {b : Bytes} {n : ℕ} (h : parseDigits b = some n) : b.all isStampByte := by
  unfold parseDigits at h
  rw [Option.ite_none_left_eq_some, not_or, not_not] at h
  rw [List.all_eq_true]
  intro c hc
  have hdigit := List.all_eq_true.mp h.1.2 c hc
  unfold isStampByte isAsciiHexDigit
  rw [Bool.or_eq_true]
  exact Or.inl (decide_eq_true (Or.inl (of_decide_eq_true hdigit)))

theorem stamp_of_tail {b : Bytes} {c : UInt8} (hc : isStampByte c) (h : b.head? = some c)
    (htail : b.tail.all isStampByte) : b.all isStampByte := by
  cases b with
  | nil => rfl
  | cons d b =>
    cases h
    rw [List.all_cons, hc]
    exact htail

theorem unsigned_stamp {b : Bytes} (h : (unsigned b).all isStampByte) : b.all isStampByte := by
  unfold unsigned at h
  split at h
  · rename_i hplus
    exact stamp_of_tail (by decide) hplus h
  · exact h

theorem parseU8_stamp {b : Bytes} {n : ℕ} (h : parseU8 b = some n) : b.all isStampByte := by
  unfold parseU8 at h
  exact unsigned_stamp (parseDigits_stamp (Option.eq_some_of_filter_eq_some h))

theorem parseI32_stamp {b : Bytes} {n : ℤ} (h : parseI32 b = some n) : b.all isStampByte := by
  unfold parseI32 at h
  split at h
  · rename_i hminus
    obtain ⟨m, hm, -⟩ := Option.map_eq_some_iff.mp h
    obtain ⟨k, hk, -⟩ := Option.bind_eq_some_iff.mp hm
    exact stamp_of_tail (by decide) hminus (parseDigits_stamp (Option.eq_some_of_filter_eq_some hk))
  · obtain ⟨m, hm, -⟩ := Option.map_eq_some_iff.mp h
    exact unsigned_stamp (parseDigits_stamp (Option.eq_some_of_filter_eq_some hm))

theorem timePart_stamp {time part : Text} (h : timePart time = some part)
    (hpart : (encode part).all isStampByte) : (encode time).all isStampByte := by
  unfold timePart at h
  cases hsplit : splitOnce ['-'] time with
  | none =>
    rw [hsplit] at h
    cases h
    exact hpart
  | some p =>
    rw [hsplit] at h
    simp only at h
    rw [Option.ite_none_left_eq_some, not_or, not_not, not_not, Option.some.injEq] at h
    obtain ⟨⟨-, hsuffix⟩, rfl⟩ := h
    have hsuffix' : (encode p.2).all isStampByte := by
      rw [List.all_eq_true] at hsuffix ⊢
      intro b hb
      have hbyte := hsuffix b hb
      unfold isStampByte
      simp only [Bool.or_eq_true, decide_eq_true_eq] at hbyte ⊢
      exact hbyte.imp_right Or.inr
    have htime : time = p.1 ++ (['-'] ++ p.2) := splitOnce_eq_append hsplit
    rw [htime, encode_append, encode_append, List.all_append, List.all_append, hpart, hsuffix']
    rfl

theorem all_of_split {p : UInt8 → Bool} {b : Bytes} (m : ℕ) (h : (b.take m).all p)
    (h' : (b.drop m).all p) : b.all p := by
  rw [← List.take_append_drop m b, List.all_append, h, h']
  rfl

/-- An accepted name is the convention's first word and such characters. -/
theorem accepted_stamp {name : Text} (h : matchesSynora name) :
    ∃ rest, name = "synora-".toList ++ rest ∧ ∀ c ∈ rest, isStampChar c := by
  obtain ⟨t, ht⟩ := Option.isSome_iff_exists.mp h
  unfold parseSnapshotName at ht
  simp only [Option.bind_eq_bind, Option.bind_eq_some_iff] at ht
  obtain ⟨rest, hrest, ⟨date, time⟩, hsplit, part, hpart, ht⟩ := ht
  rw [Option.ite_none_left_eq_some, not_or, not_not, not_not] at ht
  obtain ⟨⟨hdate, htime⟩, ht⟩ := ht
  simp only [Option.bind_eq_some_iff] at ht
  obtain ⟨year, hyear, month, hmonth, day, hday, -, -, hour, hhour, minute, hminute, second,
    hsecond, -⟩ := ht
  have hname : name = "synora-".toList ++ rest := by
    unfold stripPrefix at hrest
    rw [Option.ite_none_right_eq_some, Option.some.injEq] at hrest
    rw [← hrest.2]
    exact List.prefix_iff_eq_append.mp (List.isPrefixOf_iff_prefix.mp hrest.1) |>.symm
  have hdate' : (encode date).all isStampByte := by
    refine all_of_split 4 (parseI32_stamp hyear) (all_of_split 2 (parseU8_stamp hmonth) ?_)
    rw [List.drop_drop]
    have hall := parseU8_stamp hday
    rwa [List.take_of_length_le] at hall
    rw [List.length_drop, hdate]
  have hpart' : (encode part).all isStampByte := by
    refine all_of_split 2 (parseU8_stamp hhour) (all_of_split 2 (parseU8_stamp hminute) ?_)
    rw [List.drop_drop]
    have hall := parseU8_stamp hsecond
    rwa [List.take_of_length_le] at hall
    rw [List.length_drop, htime]
  have hrest' : rest = date ++ (['-'] ++ time) := splitOnce_eq_append hsplit
  refine ⟨rest, hname, isStampChar_of_bytes ?_⟩
  rw [hrest', encode_append, encode_append, List.all_append, List.all_append, hdate',
    timePart_stamp hpart hpart']
  rfl

theorem accepted_not_mem {name : Text} (h : matchesSynora name) {c : Char}
    (hc : c ∉ "synora-".toList) (hstamp : isStampChar c = false) : c ∉ name := by
  obtain ⟨rest, rfl, hrest⟩ := accepted_stamp h
  rw [List.mem_append, not_or]
  refine ⟨hc, fun hmem => ?_⟩
  rw [hrest c hmem] at hstamp
  cases hstamp

theorem accepted_no_space {name : Text} (h : matchesSynora name) :
    ∀ c ∈ name, isWhitespace c = false := by
  obtain ⟨rest, rfl, hrest⟩ := accepted_stamp h
  intro c hc
  rcases List.mem_append.mp hc with hc | hc
  · have hword : ∀ c ∈ "synora-".toList, isWhitespace c = false := by decide
    exact hword c hc
  · have hstamp := hrest c hc
    unfold isStampChar at hstamp
    unfold isWhitespace
    simp only [decide_eq_true_eq, Char.le_def, UInt32.le_iff_toNat_le, Char.ext_iff,
      ← UInt32.toNat_inj] at hstamp
    rw [decide_eq_false_iff_not]
    change (48 ≤ c.toNat ∧ c.toNat ≤ 57) ∨ (65 ≤ c.toNat ∧ c.toNat ≤ 70) ∨
      (97 ≤ c.toNat ∧ c.toNat ≤ 102) ∨ c.toNat = 43 ∨ c.toNat = 45 at hstamp
    omega

/-! ## The name at the end of a path -/

theorem lastOccurrence_none {pat t : Text} (hne : pat ≠ []) (h : ¬pat <:+: t) :
    lastOccurrence pat t = none := by
  induction t with
  | nil => rw [lastOccurrence, if_neg (by simpa using hne)]
  | cons c t ih =>
    rw [List.infix_cons_iff, not_or] at h
    rw [lastOccurrence, ih h.2]
    simp only
    rw [if_neg]
    rw [List.isPrefixOf_iff_prefix]
    exact h.1

theorem lastOccurrence_append {pat name : Text} (hne : pat ≠ []) (hpre : pat <+: name)
    (honce : ¬pat <:+: name.tail) (x : Text) : lastOccurrence pat (x ++ name) = some name := by
  induction x with
  | nil =>
    cases name with
    | nil => exact absurd (List.prefix_nil.mp hpre) hne
    | cons c name =>
      have hnone : lastOccurrence pat name = none := lastOccurrence_none hne honce
      rw [List.nil_append, lastOccurrence, hnone]
      simp only
      rw [if_pos (List.isPrefixOf_iff_prefix.mpr hpre)]
  | cons d x ih => rw [List.cons_append, lastOccurrence, ih]

theorem exists_of_lastOccurrence {pat t found : Text} (h : lastOccurrence pat t = some found) :
    ∃ x, t = x ++ found := by
  induction t with
  | nil =>
    rw [lastOccurrence, Option.ite_none_right_eq_some, Option.some.injEq] at h
    exact ⟨[], by rw [← h.2]; rfl⟩
  | cons c t ih =>
    rw [lastOccurrence] at h
    cases hlast : lastOccurrence pat t with
    | some f =>
      rw [hlast] at h ih
      obtain ⟨x, hx⟩ := ih h
      exact ⟨c :: x, by rw [hx]; rfl⟩
    | none =>
      rw [hlast] at h
      simp only at h
      rw [Option.ite_none_right_eq_some, Option.some.injEq] at h
      exact ⟨[], h.2⟩

/-- Whatever stands before it, the accepted name that a path ends in is found. -/
theorem snapshotNameFromPath_eq_some {path name : Text} :
    snapshotNameFromPath path = some name ↔ matchesSynora name ∧ ∃ x, path = x ++ name := by
  unfold snapshotNameFromPath
  rw [Option.bind_eq_bind, Option.bind_eq_some_iff]
  constructor
  · rintro ⟨cand, hcand, h⟩
    rw [Option.ite_none_right_eq_some, Option.some.injEq] at h
    obtain ⟨hown, rfl⟩ := h
    exact ⟨hown, exists_of_lastOccurrence hcand⟩
  · rintro ⟨hown, x, rfl⟩
    refine ⟨name, ?_, if_pos hown⟩
    obtain ⟨rest, rfl, hrest⟩ := accepted_stamp hown
    refine lastOccurrence_append (by decide) (List.prefix_append _ _) (fun hinfix => ?_) x
    -- no other `s` follows
    have hs : 's' ∈ "ynora-".toList ++ rest := hinfix.sublist.subset (by decide)
    rcases List.mem_append.mp hs with hs | hs
    · exact absurd hs (by decide)
    · exact absurd (hrest 's' hs) (by decide)

/-! ## Words and lines -/

theorem lastWord_append {name : Text} (hne : name ≠ []) (h : ∀ c ∈ name, isWhitespace c = false)
    (u : Text) : ∃ x, (splitWhitespace (u ++ name)).getLast? = some (x ++ name) := by
  have hword {x : Text} (hx : ∀ c ∈ x, isWhitespace c = false) :
      ((x ++ name).splitOnP isWhitespace).filter (fun tok => !tok.isEmpty) = [x ++ name] := by
    have hall : ∀ c ∈ x ++ name, isWhitespace c = false := List.forall_mem_append.mpr ⟨hx, h⟩
    rw [List.splitOnP_eq_singleton hall, List.filter_cons_of_pos (by simp [hne]), List.filter_nil]
  unfold splitWhitespace
  rcases exists_last isWhitespace u with hu | ⟨before, c, x, rfl, hc, hx⟩
  · exact ⟨u, by rw [hword hu]; rfl⟩
  · refine ⟨x, ?_⟩
    rw [List.append_assoc, List.cons_append, List.splitOnP_append_cons _ _ hc,
      List.filter_append, hword hx, List.getLast?_concat]

/-- The lines of a text that ends in a line of its own. -/
theorem lines_ended {name : Text} (hne : name ≠ []) (h : ∀ c ∈ name, isWhitespace c = false)
    (u : Text) : ∃ before x, lines (u ++ name ++ ['\n']) = before ++ [x ++ name] := by
  have hline {x : Text} (hx : '\n' ∉ x) : lines (x ++ name ++ ['\n']) = [x ++ name] := by
    have hnew : '\n' ∉ x ++ name := by
      rw [List.mem_append, not_or]
      exact ⟨hx, fun hmem => absurd (h _ hmem) (by decide)⟩
    have hreturn : (x ++ name).getLast? ≠ some '\r' := by
      rw [List.getLast?_append_of_ne_nil _ hne]
      exact fun hlast => absurd (h _ (List.mem_of_getLast? hlast)) (by decide)
    rw [lines_cons hnew, if_neg hreturn]
    rfl
  rcases exists_last (· == '\n') u with hu | ⟨before, c, x, rfl, hc, hx⟩
  · refine ⟨[], u, hline fun hmem => ?_⟩
    exact absurd (hu _ hmem) (by decide)
  · obtain rfl : c = '\n' := by simpa using hc
    refine ⟨lines (before ++ ['\n']), x, ?_⟩
    have hsplit : before ++ '\n' :: x ++ name ++ ['\n'] =
        before ++ ['\n'] ++ (x ++ name ++ ['\n']) := by simp
    rw [hsplit, lines_append (Or.inr List.getLast?_concat), hline]
    exact fun hmem => absurd (hx _ hmem) (by decide)

/-! ## The listing -/

/-- A line of `btrfs subvolume list`. -/
structure Subvolume where
  id : ℕ
  gen : ℕ
  topLevel : ℕ
  /-- From the top of the file system. -/
  path : Text

def Subvolume.line (v : Subvolume) : Text :=
  "ID ".toList ++ (toString v.id).toList ++ " gen ".toList ++ (toString v.gen).toList ++
    " top level ".toList ++ (toString v.topLevel).toList ++ " path ".toList ++ v.path

def listing (subvolumes : List Subvolume) : Text := subvolumes.flatMap fun v => v.line ++ ['\n']

/-- The name that is read from a line. -/
def readName (line : Text) : Option Text :=
  (splitWhitespace line).getLast?.bind snapshotNameFromPath

/-- The last word of the line ends in an accepted name. -/
def EndsIn (line name : Text) : Prop :=
  ∃ x, (splitWhitespace line).getLast? = some (x ++ name) ∧ matchesSynora name

theorem readName_eq_some {line name : Text} : readName line = some name ↔ EndsIn line name := by
  unfold readName EndsIn
  rw [Option.bind_eq_some_iff]
  simp only [snapshotNameFromPath_eq_some]
  constructor
  · rintro ⟨word, hword, hown, x, rfl⟩
    exact ⟨x, hword, hown⟩
  · rintro ⟨x, hword, hown⟩
    exact ⟨_, hword, hown, x, rfl⟩

theorem parseBtrfsList_listing (subvolumes : List Subvolume) : parseBtrfsList (listing subvolumes) =
    (subvolumes.flatMap fun v => (lines (v.line ++ ['\n'])).filterMap readName).map (⟨·, 0⟩) := by
  have hparse (t : Text) : parseBtrfsList t = ((lines t).filterMap readName).map (⟨·, 0⟩) := by
    unfold parseBtrfsList
    rw [List.map_filterMap]
    congr 1
    funext line
    unfold readName
    cases (splitWhitespace line).getLast? with
    | none => rfl
    | some word =>
      rw [Option.bind_eq_bind, Option.bind_some, Option.bind_some]
      cases snapshotNameFromPath word <;> rfl
  rw [hparse]
  congr 1
  induction subvolumes with
  | nil => rfl
  | cons v subvolumes ih =>
    have hcons : listing (v :: subvolumes) = v.line ++ ['\n'] ++ listing subvolumes := rfl
    rw [hcons, lines_append (Or.inr List.getLast?_concat), List.filterMap_append, ih,
      List.flatMap_cons]

/-! ## Whose snapshots are listed -/

section
variable (root subvol : Text)

/-- The name of the snapshot of `subvol` that the entry is. `root` is where the file system is
mounted. -/
def ownName (v : Subvolume) : Option Text :=
  (stripPrefix (subvol ++ ['-']) (root ++ v.path)).filter matchesSynora

variable {root subvol} {v : Subvolume} {name : Text}

theorem ownName_eq_some : ownName root subvol v = some name ↔
    root ++ v.path = (SnapshotProvider.btrfs subvol).fullName name ∧ matchesSynora name := by
  have hfull : (SnapshotProvider.btrfs subvol).fullName name = subvol ++ ['-'] ++ name := by
    unfold SnapshotProvider.fullName
    simp
  unfold ownName
  rw [Option.filter_eq_some_iff, hfull]
  refine and_congr_left fun _ => ⟨fun h => ?_, fun h => ?_⟩
  · unfold stripPrefix at h
    rw [Option.ite_none_right_eq_some, Option.some.injEq] at h
    rw [← h.2]
    exact (List.prefix_iff_eq_append.mp (List.isPrefixOf_iff_prefix.mp h.1)).symm
  · rw [h, stripPrefix_append]

/-- Every snapshot of the subvolume is listed under its name. -/
theorem lines_of_own (hroot : root = [] ∨ root.getLast? = some '/')
    (h : ownName root subvol v = some name) : ∃ before last,
      lines (v.line ++ ['\n']) = before ++ [last] ∧ readName last = some name := by
  obtain ⟨hpath, hown⟩ := ownName_eq_some.mp h
  have hne : name ≠ [] := by
    obtain ⟨rest, rfl, -⟩ := accepted_stamp hown
    simp
  have hslash : '/' ∉ name := accepted_not_mem hown (by decide) (by decide)
  obtain ⟨a, ha⟩ : ∃ a, v.path = a ++ name := by
    have hfull : (SnapshotProvider.btrfs subvol).fullName name = subvol ++ ['-'] ++ name := by
      unfold SnapshotProvider.fullName
      simp
    rw [hfull, List.append_eq_append_iff] at hpath
    rcases hpath with ⟨a, -, ha⟩ | ⟨a, hlonger, hname⟩
    · exact ⟨a, ha⟩
    · rcases eq_or_ne a [] with rfl | hne'
      · exact ⟨[], hname.symm⟩
      · -- the mount point would end inside the name
        exfalso
        rw [hlonger, List.getLast?_append_of_ne_nil _ hne'] at hroot
        rcases hroot with hroot | hroot
        · simp at hroot
        · refine hslash ?_
          rw [hname]
          exact List.mem_append_left _ (List.mem_of_getLast? hroot)
  obtain ⟨u, hu⟩ : ∃ u, v.line = u ++ name := by
    unfold Subvolume.line
    rw [ha, ← List.append_assoc]
    exact ⟨_, rfl⟩
  have hspace := accepted_no_space hown
  obtain ⟨before, x, hlines⟩ := lines_ended hne hspace u
  obtain ⟨y, hword⟩ := lastWord_append hne hspace x
  exact ⟨before, x ++ name, by rw [hu, hlines], readName_eq_some.mpr ⟨y, hword, hown⟩⟩

/-- The lines of the entry say what the entry is: none but the last ends in an accepted name, and
the last one only in the name of a snapshot of the subvolume. -/
def Unambiguous (root subvol : Text) (v : Subvolume) : Prop :=
  (∀ line ∈ (lines (v.line ++ ['\n'])).dropLast, ∀ name, ¬EndsIn line name) ∧
    ∀ line ∈ (lines (v.line ++ ['\n'])).getLast?, ∀ name, EndsIn line name →
      root ++ v.path = (SnapshotProvider.btrfs subvol).fullName name

theorem filterMap_readName_nil {ls : List Text} :
    ls.filterMap readName = [] ↔ ∀ line ∈ ls, ∀ name, ¬EndsIn line name := by
  rw [List.filterMap_eq_nil_iff]
  refine forall_congr' fun line => forall_congr' fun _ => ?_
  simp only [← readName_eq_some, Option.eq_none_iff_forall_ne_some, ne_eq]

theorem names_eq_own_iff (hroot : root = [] ∨ root.getLast? = some '/') :
    (lines (v.line ++ ['\n'])).filterMap readName = (ownName root subvol v).toList ↔
      Unambiguous root subvol v := by
  unfold Unambiguous
  cases hown : ownName root subvol v with
  | some name =>
    obtain ⟨before, last, hlines, hlast⟩ := lines_of_own hroot hown
    rw [hlines, List.dropLast_concat, List.getLast?_concat, List.filterMap_append,
      List.filterMap_cons_some hlast, List.filterMap_nil, Option.toList_some,
      ← filterMap_readName_nil]
    constructor
    · intro h
      refine ⟨by simpa using h, fun line hline name' hends => ?_⟩
      cases hline
      rw [← readName_eq_some, hlast, Option.some.injEq] at hends
      rw [← hends]
      exact (ownName_eq_some.mp hown).1
    · rintro ⟨h, -⟩
      rw [h, List.nil_append]
  | none =>
    rw [Option.toList_none, filterMap_readName_nil]
    constructor
    · intro h
      refine ⟨fun line hline => h line ((List.dropLast_sublist _).subset hline), ?_⟩
      exact fun line hline name hends => absurd hends (h line (List.mem_of_getLast? hline) name)
    · rintro ⟨hbefore, hlast⟩ line hline name hends
      rcases List.eq_nil_or_concat' (lines (v.line ++ ['\n'])) with hnil | ⟨before, last, hlines⟩
      · rw [hnil] at hline
        cases hline
      · rw [hlines, List.mem_append, List.mem_singleton] at hline
        rw [hlines, List.dropLast_concat] at hbefore
        rw [hlines, List.getLast?_concat] at hlast
        rcases hline with hline | rfl
        · exact hbefore line hline name hends
        · have hsome := ownName_eq_some.mpr ⟨hlast line rfl name hends, hends.choose_spec.2⟩
          rw [hown] at hsome
          cases hsome

/-- Lists that hold at least one more element each are equal only one by one. -/
theorem flatMap_eq_filterMap_iff {α β : Type} {f : α → List β} {g : α → Option β} {l : List α}
    (hle : ∀ a, (g a).toList.length ≤ (f a).length) :
    l.flatMap f = l.filterMap g ↔ ∀ a ∈ l, f a = (g a).toList := by
  have hflat (l : List α) : l.filterMap g = l.flatMap fun a => (g a).toList := by
    rw [List.filterMap_eq_flatMap_toList]
  rw [hflat]
  induction l with
  | nil => simp
  | cons a l ih =>
    have htotal (l : List α) : (l.flatMap fun a => (g a).toList).length ≤ (l.flatMap f).length := by
      induction l with
      | nil => exact le_rfl
      | cons b l ih =>
        rw [List.flatMap_cons, List.flatMap_cons, List.length_append, List.length_append]
        exact Nat.add_le_add (hle b) ih
    rw [List.flatMap_cons, List.flatMap_cons, List.forall_mem_cons]
    constructor
    · intro h
      have hlen := congrArg List.length h
      rw [List.length_append, List.length_append] at hlen
      have h1 := hle a
      have h2 := htotal l
      obtain ⟨hfirst, hrest⟩ := List.append_inj h (by omega)
      exact ⟨hfirst, ih.mp hrest⟩
    · rintro ⟨hfirst, hrest⟩
      rw [hfirst, ih.mpr hrest]

end

/-- The list of a subvolume's provider is that of its own snapshots exactly where no line of the
listing ends in an accepted name but those of its own snapshots. -/
theorem btrfs_list_iff {root subvol : Text} (hroot : root = [] ∨ root.getLast? = some '/')
    {subvolumes : List Subvolume} {cmd : Commands} (hcmd : cmd.list = some (listing subvolumes)) :
    (SnapshotProvider.btrfs subvol).list cmd =
        some ((subvolumes.filterMap (ownName root subvol)).map (⟨·, 0⟩)) ↔
      ∀ v ∈ subvolumes, Unambiguous root subvol v := by
  have hle (v : Subvolume) : (ownName root subvol v).toList.length ≤
      ((lines (v.line ++ ['\n'])).filterMap readName).length := by
    cases hown : ownName root subvol v with
    | none => exact Nat.zero_le _
    | some name =>
      obtain ⟨before, last, hlines, hlast⟩ := lines_of_own hroot hown
      rw [hlines, List.filterMap_append, List.filterMap_cons_some hlast]
      simp
  have hinj : Function.Injective fun name : Text => (⟨name, 0⟩ : SnapshotInfo) := by
    intro a b h
    exact congrArg SnapshotInfo.name h
  unfold SnapshotProvider.list
  rw [hcmd, Option.map_some, Option.some.injEq]
  simp only
  rw [parseBtrfsList_listing, (List.map_injective_iff.mpr hinj).eq_iff,
    flatMap_eq_filterMap_iff hle]
  exact forall_congr' fun v => forall_congr' fun _ => names_eq_own_iff hroot

/-- A snapshot of `data`, and a subvolume of another name. -/
def dataListing : List Subvolume :=
  [⟨256, 8, 5, "data-synora-20260814-000000".toList⟩, ⟨258, 10, 5, "data-other".toList⟩]

/-- A snapshot of the sibling `other`. -/
def otherListing : List Subvolume := [⟨256, 8, 5, "other-synora-20260814-000000".toList⟩]

/-- The listing, when no command fails. -/
def listingCommands (subvolumes : List Subvolume) : Commands :=
  ⟨fun _ => true, some (listing subvolumes), fun _ => true⟩

theorem btrfs_list_data : Unambiguous "/srv/".toList "/srv/data".toList
    ⟨258, 10, 5, "data-other".toList⟩ := by
  have hroot : "/srv/".toList = [] ∨ "/srv/".toList.getLast? = some '/' := by decide
  have hlist : (listingCommands dataListing).list = some (listing dataListing) := rfl
  refine (btrfs_list_iff hroot hlist).mp ?_ _ (List.mem_cons_of_mem _ List.mem_cons_self)
  decide +kernel

/-- The provider of `data` lists it. -/
theorem sibling_listed :
    (SnapshotProvider.btrfs "/srv/data".toList).list (listingCommands otherListing) ≠
      some ((otherListing.filterMap (ownName "/srv/".toList "/srv/data".toList)).map (⟨·, 0⟩)) := by
  decide +kernel

end Synora.Storage
