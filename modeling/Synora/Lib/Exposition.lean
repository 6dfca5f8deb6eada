import Synora.Lib.Text

/-! # The Prometheus text format

Line by line: a `# TYPE` line, another comment, or a sample with its labels, its value and perhaps
a time. -/

namespace Synora.Exposition
open Strings

structure Sample where
  name : Text
  labels : List (Text × Text)
  value : Text
deriving DecidableEq, Repr

inductive Line
  | typed (name kind : Text)
  | sample (s : Sample)
deriving DecidableEq, Repr

def isLabelChar (c : Char) : Bool := c.isAlphanum || decide (c = '_')

def isMetricChar (c : Char) : Bool := isLabelChar c || decide (c = ':')

/-- An identifier does not begin with a digit. -/
def isName (isPart : Char → Bool) : Text → Bool
  | [] => false
  | c :: cs => !c.isDigit && (c :: cs).all isPart

def isBlank (c : Char) : Bool := decide (c = ' ' ∨ c = '\t')

def skip (t : Text) : Text := t.dropWhile isBlank

/-- What a character with a backslash before it stands for. -/
def unescapeChar (c : Char) : Option Char :=
  if c = '\\' then some '\\' else if c = '"' then some '"' else if c = 'n' then some '\n' else none

/-- A label value behind its opening quote, and what follows the closing one. -/
def labelValue : Text → Option (Text × Text)
  | [] => none
  | '\\' :: rest =>
    match rest with
    | [] => none
    | c :: rest =>
      match unescapeChar c, labelValue rest with
      | some d, some (value, after) => some (d :: value, after)
      | _, _ => none
  | c :: rest => if c = '"' then some ([], rest) else (labelValue rest).map fun p => (c :: p.1, p.2)

/-- The name of a label and what stands behind the quote that opens its value. -/
def labelName (t : Text) : Option (Text × Text) :=
  let name := t.takeWhile isLabelChar
  if isName isLabelChar name then
    match skip (t.dropWhile isLabelChar) with
    | '=' :: rest =>
      match skip rest with
      | '"' :: rest => some (name, rest)
      | _ => none
    | _ => none
  else none

/-- The labels behind the opening brace, and what follows the closing one. -/
def labelPairs : ℕ → Text → Option (List (Text × Text) × Text)
  | 0, _ => none
  | fuel + 1, t =>
    match skip t with
    | '}' :: rest => some ([], rest)
    | t => do
      let named ← labelName t
      let valued ← labelValue named.2
      match skip valued.2 with
      | ',' :: rest =>
        (labelPairs fuel rest).map fun p => ((named.1, valued.1) :: p.1, p.2)
      | '}' :: rest => some ([(named.1, valued.1)], rest)
      | _ => none

def isTimestamp (t : Text) : Bool :=
  let digits := if t.head? = some '-' then t.tail else t
  !digits.isEmpty && digits.all Char.isDigit

/-- The labels behind a name, if there are any. -/
def labelSet (t : Text) : Option (List (Text × Text) × Text) :=
  match skip t with
  | '{' :: rest => labelPairs (rest.length + 1) rest
  | rest => some ([], rest)

/-- The value of a sample, which a time may follow. -/
def sampleValue (t : Text) : Option Text :=
  let value := (skip t).takeWhile fun c => !isBlank c
  let rest := skip ((skip t).dropWhile fun c => !isBlank c)
  let time := rest.takeWhile fun c => !isBlank c
  if value ≠ [] ∧ (rest = [] ∨
      isTimestamp time ∧ skip (rest.dropWhile fun c => !isBlank c) = []) then some value
  else none

def sampleLine (t : Text) : Option Sample :=
  let name := t.takeWhile isMetricChar
  if isName isMetricChar name then
    (labelSet (t.dropWhile isMetricChar)).bind fun labels =>
      (sampleValue labels.2).map fun value => ⟨name, labels.1, value⟩
  else none

def kinds : List Text :=
  ["counter".toList, "gauge".toList, "histogram".toList, "summary".toList, "untyped".toList]

/-- A comment, by its words. -/
def comment (words : List Text) : Option (Option Line) :=
  match words with
  | [keyword, name, kind] =>
    if keyword = "TYPE".toList then
      if isName isMetricChar name ∧ kind ∈ kinds then some (some (.typed name kind)) else none
    else some none
  | keyword :: _ => if keyword = "TYPE".toList then none else some none
  | [] => some none

def parseLine (t : Text) : Option (Option Line) :=
  match skip t with
  | [] => some none
  | '#' :: rest => comment (splitWhitespace rest)
  | t => (sampleLine t).map fun s => some (.sample s)

def parseLines : List Text → Option (List Line)
  | [] => some []
  | t :: ts => (parseLine t).bind fun line => (parseLines ts).map (line.toList ++ ·)

def parse (t : Text) : Option (List Line) := parseLines (t.splitOn '\n')

/-! ## Writing -/

def escapeChar (c : Char) : Text :=
  if c = '\\' then ['\\', '\\'] else if c = '"' then ['\\', '"']
  else if c = '\n' then ['\\', 'n'] else [c]

def Sample.labelText (p : Text × Text) : Text :=
  p.1 ++ "=\"".toList ++ p.2.flatMap escapeChar ++ "\"".toList

def Sample.text (s : Sample) : Text :=
  s.name ++ (if s.labels = [] then [] else
    "\x7b".toList ++ ",".toList.intercalate (s.labels.map labelText) ++ "\x7d".toList) ++
    " ".toList ++ s.value

def Line.text : Line → Text
  | .typed name kind => "# TYPE ".toList ++ name ++ " ".toList ++ kind
  | .sample s => s.text

theorem Line.text_typed (name kind : Text) :
    (Line.typed name kind).text = "# TYPE ".toList ++ name ++ " ".toList ++ kind := rfl

theorem Line.text_sample (s : Sample) : (Line.sample s).text = s.text := rfl

/-- A value that is one word. -/
def IsToken (t : Text) : Prop := t ≠ [] ∧ ∀ c ∈ t, isBlank c = false ∧ c ≠ '\n' ∧ c ≠ '{'

structure Sample.Valid (s : Sample) : Prop where
  name : isName isMetricChar s.name
  labels : ∀ p ∈ s.labels, isName isLabelChar p.1
  value : IsToken s.value

def Line.Valid : Line → Prop
  | .typed name kind => isName isMetricChar name ∧ kind ∈ kinds
  | .sample s => s.Valid

/-! ## Reading back -/

section
variable {p : Char → Bool} {t u : Text} {c : Char}

theorem takeWhile_append (h : ∀ d ∈ t, p d) (hc : p c = false) :
    (t ++ c :: u).takeWhile p = t := by
  rw [List.takeWhile_append_of_pos h, List.takeWhile_cons_of_neg (by simp [hc]), List.append_nil]

theorem dropWhile_append (h : ∀ d ∈ t, p d) (hc : p c = false) :
    (t ++ c :: u).dropWhile p = c :: u := by
  rw [List.dropWhile_append_of_pos h, List.dropWhile_cons_of_neg (by simp [hc])]

theorem skip_of_not_blank (h : isBlank c = false) : skip (c :: u) = c :: u :=
  List.dropWhile_cons_of_neg (by simp [h])

theorem isName_cases (h : isName p t) : t ≠ [] ∧ ∀ d ∈ t, p d := by
  cases t with
  | nil => cases h
  | cons c t =>
    rw [isName, Bool.and_eq_true, List.all_eq_true] at h
    exact ⟨List.cons_ne_nil c t, h.2⟩

end

theorem labelValue_escapeChar (c : Char) (t : Text) :
    labelValue (escapeChar c ++ t) = (labelValue t).map fun p => (c :: p.1, p.2) := by
  by_cases hslash : c = '\\'
  · subst hslash
    change labelValue ('\\' :: '\\' :: t) = _
    rw [labelValue]
    cases labelValue t <;> rfl
  by_cases hquote : c = '"'
  · subst hquote
    change labelValue ('\\' :: '"' :: t) = _
    rw [labelValue]
    cases labelValue t <;> rfl
  by_cases hline : c = '\n'
  · subst hline
    change labelValue ('\\' :: 'n' :: t) = _
    rw [labelValue]
    cases labelValue t <;> rfl
  rw [escapeChar, if_neg hslash, if_neg hquote, if_neg hline, List.singleton_append, labelValue,
    if_neg hquote]
  exact fun h => hslash h

theorem labelValue_flatMap (v rest : Text) :
    labelValue (v.flatMap escapeChar ++ '"' :: rest) = some (v, rest) := by
  induction v with
  | nil => rfl
  | cons c v ih =>
    rw [List.flatMap_cons, List.append_assoc, labelValue_escapeChar, ih, Option.map_some]

theorem labelName_text {name : Text} (h : isName isLabelChar name) (rest : Text) :
    labelName (name ++ "=\"".toList ++ rest) = some (name, rest) := by
  obtain ⟨-, hchars⟩ := isName_cases h
  rw [List.append_assoc]
  change labelName (name ++ '=' :: '"' :: rest) = _
  rw [labelName, takeWhile_append hchars (by decide), dropWhile_append hchars (by decide)]
  simp only [if_pos h]
  rfl

/-- The first character of a label's name is neither blank nor a brace. -/
theorem skip_labelText {p : Text × Text} (h : isName isLabelChar p.1) (rest : Text) :
    skip (Sample.labelText p ++ rest) = Sample.labelText p ++ rest ∧
      (Sample.labelText p ++ rest).head? ≠ some '}' := by
  obtain ⟨hne, hchars⟩ := isName_cases h
  obtain ⟨c, name, hname⟩ := List.exists_cons_of_ne_nil hne
  have hc : isLabelChar c := hchars c (hname ▸ List.mem_cons_self)
  have hblank : isBlank c = false := by
    refine Bool.eq_false_iff.mpr fun hblank => ?_
    obtain rfl | rfl := of_decide_eq_true hblank
    · exact absurd hc (by decide)
    · exact absurd hc (by decide)
  rw [Sample.labelText, hname]
  refine ⟨skip_of_not_blank hblank, fun hbrace => ?_⟩
  rw [Option.some.inj hbrace] at hc
  exact absurd hc (by decide)

theorem labelPairs_brace (fuel : ℕ) (rest : Text) :
    labelPairs (fuel + 1) ('}' :: rest) = some ([], rest) := rfl

/-- One label, and what comes of what follows it. -/
theorem labelPairs_label {p : Text × Text} (h : isName isLabelChar p.1) (fuel : ℕ) (rest : Text) :
    labelPairs (fuel + 1) (Sample.labelText p ++ rest) =
      match skip rest with
      | ',' :: rest => (labelPairs fuel rest).map fun q => (p :: q.1, q.2)
      | '}' :: rest => some ([p], rest)
      | _ => none := by
  obtain ⟨hskip, hbrace⟩ := skip_labelText h rest
  have hname : labelName (Sample.labelText p ++ rest) =
      some (p.1, p.2.flatMap escapeChar ++ '"' :: rest) := by
    rw [Sample.labelText, List.append_assoc, List.append_assoc, labelName_text h]
    rfl
  rw [labelPairs, hskip]
  split
  · rename_i hcons
    rw [hcons] at hbrace
    exact absurd rfl hbrace
  · rw [hname]
    simp only [Option.bind_eq_bind, Option.bind_some, labelValue_flatMap]

/-- The labels of a sample are read up to the closing brace. -/
theorem labelPairs_text {labels : List (Text × Text)} (hne : labels ≠ [])
    (h : ∀ p ∈ labels, isName isLabelChar p.1) {fuel : ℕ} (hfuel : labels.length ≤ fuel)
    (rest : Text) :
    labelPairs fuel (",".toList.intercalate (labels.map Sample.labelText) ++ '}' :: rest) =
      some (labels, rest) := by
  induction labels generalizing fuel with
  | nil => exact absurd rfl hne
  | cons p labels ih =>
    obtain ⟨hp, hlabels⟩ := List.forall_mem_cons.mp h
    obtain ⟨fuel, rfl⟩ : ∃ n, fuel = n + 1 := ⟨fuel - 1, by rw [List.length_cons] at hfuel; omega⟩
    cases labels with
    | nil =>
      rw [List.map_singleton, List.intercalate_singleton, labelPairs_label hp]
      rfl
    | cons q labels =>
      have hnext := ih (List.cons_ne_nil q labels) hlabels (Nat.le_of_succ_le_succ hfuel)
      rw [List.map_cons, List.map_cons, List.intercalate_cons_cons, List.append_assoc,
        List.append_assoc, labelPairs_label hp, ← List.map_cons]
      change Option.map _ (labelPairs fuel (",".toList.intercalate
        ((q :: labels).map Sample.labelText) ++ '}' :: rest)) = _
      rw [hnext, Option.map_some]

theorem length_le_intercalate (labels : List (Text × Text)) : labels.length ≤
    (",".toList.intercalate (labels.map Sample.labelText)).length + 1 := by
  induction labels with
  | nil => exact Nat.zero_le _
  | cons p labels ih =>
    cases labels with
    | nil => exact Nat.le_add_left 1 _
    | cons q labels =>
      have hcomma : ",".toList.length = 1 := rfl
      rw [List.map_cons, List.map_cons, List.intercalate_cons_cons, List.length_append,
        List.length_append, ← List.map_cons, List.length_cons, hcomma]
      omega

section
variable {s : Sample}

theorem skip_token {t : Text} (h : IsToken t) : skip t = t := by
  obtain ⟨hne, hchars⟩ := h
  obtain ⟨c, t, rfl⟩ := List.exists_cons_of_ne_nil hne
  exact skip_of_not_blank (hchars c List.mem_cons_self).1

/-- What stands between the name and the value. -/
def Sample.braces (s : Sample) : Text :=
  if s.labels = [] then [] else
    "\x7b".toList ++ ",".toList.intercalate (s.labels.map labelText) ++ "\x7d".toList

theorem Sample.text_eq (s : Sample) : s.text = s.name ++ (s.braces ++ ' ' :: s.value) := by
  rw [Sample.text, ← Sample.braces, List.append_assoc, List.append_assoc]
  rfl

/-- The labels are found behind the name, and the value behind them. -/
theorem Sample.Valid.labelSet_eq (h : s.Valid) : ∃ rest,
    labelSet (s.braces ++ ' ' :: s.value) = some (s.labels, rest) ∧ skip rest = s.value := by
  have hskip : skip (' ' :: s.value) = s.value := skip_token h.value
  unfold Sample.braces labelSet
  split_ifs with hnil
  · refine ⟨s.value, ?_, skip_token h.value⟩
    rw [List.nil_append, hskip, hnil]
    split
    · rename_i rest hbrace
      exact absurd rfl (h.value.2 '{' (hbrace ▸ List.mem_cons_self)).2.2
    · rfl
  · have hfuel : s.labels.length ≤ (",".toList.intercalate (s.labels.map labelText) ++
        '}' :: ' ' :: s.value).length + 1 := by
      have hlen := length_le_intercalate s.labels
      rw [List.length_append]
      omega
    have hlabels := labelPairs_text hnil h.labels hfuel (' ' :: s.value)
    refine ⟨' ' :: s.value, ?_, hskip⟩
    rw [List.append_assoc, List.append_assoc]
    exact hlabels

theorem sampleValue_token {t : Text} (h : IsToken (skip t)) : sampleValue t = some (skip t) := by
  have hchars : ∀ d ∈ skip t, (!isBlank d) = true := fun d hd => by simp [(h.2 d hd).1]
  have htake : (skip t).takeWhile (fun c => !isBlank c) = skip t :=
    List.takeWhile_eq_self_iff.mpr hchars
  have hdrop : (skip t).dropWhile (fun c => !isBlank c) = [] := List.dropWhile_eq_nil_iff.mpr hchars
  unfold sampleValue
  simp only [htake, hdrop]
  exact if_pos ⟨h.1, .inl rfl⟩

theorem sampleLine_text (h : s.Valid) : sampleLine s.text = some s := by
  obtain ⟨-, hname⟩ := isName_cases h.name
  have hstop : ∃ c u, s.braces ++ ' ' :: s.value = c :: u ∧ isMetricChar c = false := by
    unfold Sample.braces
    split_ifs
    · exact ⟨' ', s.value, rfl, by decide⟩
    · exact ⟨'{', _, rfl, by decide⟩
  obtain ⟨c, u, hcons, hc⟩ := hstop
  have htake : s.text.takeWhile isMetricChar = s.name := by
    rw [Sample.text_eq, hcons, takeWhile_append hname hc]
  have hdrop : s.text.dropWhile isMetricChar = s.braces ++ ' ' :: s.value := by
    rw [Sample.text_eq, hcons, dropWhile_append hname hc]
  obtain ⟨rest, hlabels, hrest⟩ := h.labelSet_eq
  have hvalue := sampleValue_token (t := rest) (hrest ▸ h.value)
  rw [sampleLine, htake, hdrop, hlabels]
  simp only [if_pos h.name, Option.bind_some, hvalue, Option.map_some, hrest]

end

theorem splitWhitespace_blank (t : Text) : splitWhitespace (' ' :: t) = splitWhitespace t :=
  splitWhitespace_split (by decide) [] t

theorem isMetricChar_plain {c : Char} (h : isMetricChar c) :
    isWhitespace c = false ∧ isBlank c = false ∧ c ≠ '#' ∧ c ≠ '\n' := by
  have hlt : c.toNat < 128 := by
    delta isMetricChar isLabelChar Char.isAlphanum Char.isAlpha Char.isUpper Char.isLower
      Char.isDigit at h
    simp only [Bool.or_eq_true, Bool.and_eq_true, decide_eq_true_eq, ge_iff_le,
      UInt32.le_iff_toNat_le] at h
    change c.val.toNat < 128
    obtain (((h | h) | h) | rfl) | rfl := h
    · exact h.2.trans_lt (by decide)
    · exact h.2.trans_lt (by decide)
    · exact h.2.trans_lt (by decide)
    · decide
    · decide
  have hall : ∀ n < 128, isMetricChar (Char.ofNat n) → isWhitespace (Char.ofNat n) = false ∧
      isBlank (Char.ofNat n) = false ∧ Char.ofNat n ≠ '#' ∧ Char.ofNat n ≠ '\n' := by decide
  have hself := hall c.toNat hlt
  rw [Char.ofNat_toNat] at hself
  exact hself h

theorem isName_word {t : Text} (h : isName isMetricChar t) :
    t ≠ [] ∧ ∀ c ∈ t, isWhitespace c = false :=
  ⟨(isName_cases h).1, fun c hc => (isMetricChar_plain ((isName_cases h).2 c hc)).1⟩

theorem kind_word {kind : Text} (h : kind ∈ kinds) :
    kind ≠ [] ∧ (∀ c ∈ kind, isWhitespace c = false) ∧ '\n' ∉ kind := by
  have hall : ∀ k ∈ kinds, k ≠ [] ∧ (∀ c ∈ k, isWhitespace c = false) ∧ '\n' ∉ k := by decide
  exact hall kind h

theorem splitWhitespace_word {t : Text} (hne : t ≠ []) (h : ∀ c ∈ t, isWhitespace c = false) :
    splitWhitespace t = [t] := by
  rw [splitWhitespace, List.splitOnP_eq_singleton h, List.filter_cons_of_pos (by simpa using hne),
    List.filter_nil]

theorem parseLine_typed {name kind : Text} (hname : isName isMetricChar name)
    (hkind : kind ∈ kinds) :
    parseLine (Line.typed name kind).text = some (some (.typed name kind)) := by
  obtain ⟨hne, hchars⟩ := isName_word hname
  obtain ⟨hkne, hkchars, -⟩ := kind_word hkind
  have hwords : splitWhitespace (" TYPE ".toList ++ (name ++ ' ' :: kind)) =
      ["TYPE".toList, name, kind] := by
    change splitWhitespace (' ' :: ("TYPE".toList ++ ' ' :: (name ++ ' ' :: kind))) = _
    rw [splitWhitespace_blank, splitWhitespace_append (by decide) (by decide),
      splitWhitespace_append hne hchars, splitWhitespace_word hkne hkchars]
  have htext : (Line.typed name kind).text = '#' :: (" TYPE ".toList ++ (name ++ ' ' :: kind)) := by
    rw [Line.text_typed, List.append_assoc, List.append_assoc]
    rfl
  rw [htext]
  change comment (splitWhitespace _) = _
  rw [hwords, comment, if_pos rfl, if_pos ⟨hname, hkind⟩]

theorem parseLine_sample {s : Sample} (h : s.Valid) :
    parseLine (Line.sample s).text = some (some (.sample s)) := by
  obtain ⟨hne, hchars⟩ := isName_cases h.name
  obtain ⟨c, name, hname⟩ := List.exists_cons_of_ne_nil hne
  obtain ⟨-, hblank, hhash, -⟩ := isMetricChar_plain (hchars c (hname ▸ List.mem_cons_self))
  have htext : s.text = c :: (name ++ (s.braces ++ ' ' :: s.value)) := by
    rw [Sample.text_eq, hname, List.cons_append]
  have hskip : skip s.text = s.text := by rw [htext, skip_of_not_blank hblank]
  rw [Line.text_sample, parseLine, hskip]
  split
  · rename_i hnil
    rw [htext] at hnil
    cases hnil
  · rename_i rest hcons
    rw [htext] at hcons
    exact absurd (List.cons.inj hcons).1 hhash
  · rw [sampleLine_text h, Option.map_some]

theorem parseLine_text {line : Line} (h : line.Valid) : parseLine line.text = some (some line) := by
  cases line with
  | typed name kind => exact parseLine_typed h.1 h.2
  | sample s => exact parseLine_sample h

theorem newline_not_mem_escape (v : Text) : '\n' ∉ v.flatMap escapeChar := by
  rw [List.mem_flatMap]
  rintro ⟨c, -, hc⟩
  unfold escapeChar at hc
  split_ifs at hc with hslash hquote hline
  · exact absurd hc (by decide)
  · exact absurd hc (by decide)
  · exact absurd hc (by decide)
  · exact hline (List.mem_singleton.mp hc).symm

theorem isLabelChar_plain {c : Char} (h : isLabelChar c) : c ≠ '\n' :=
  (isMetricChar_plain (by rw [isMetricChar, h, Bool.true_or])).2.2.2

theorem newline_not_mem_labelText {p : Text × Text} (h : isName isLabelChar p.1) :
    '\n' ∉ Sample.labelText p := by
  have hname : '\n' ∉ p.1 := fun hmem => isLabelChar_plain ((isName_cases h).2 _ hmem) rfl
  have hvalue := newline_not_mem_escape p.2
  rw [Sample.labelText]
  simp only [List.mem_append, not_or]
  exact ⟨⟨⟨hname, by decide⟩, hvalue⟩, by decide⟩

theorem newline_not_mem_intercalate {parts : List Text} (h : ∀ t ∈ parts, '\n' ∉ t) :
    '\n' ∉ ",".toList.intercalate parts := by
  induction parts with
  | nil => exact List.not_mem_nil
  | cons t parts ih =>
    obtain ⟨ht, hparts⟩ := List.forall_mem_cons.mp h
    cases parts with
    | nil => rwa [List.intercalate_singleton]
    | cons u parts =>
      rw [List.intercalate_cons_cons]
      simp only [List.mem_append, not_or]
      exact ⟨⟨ht, by decide⟩, ih hparts⟩

theorem newline_not_mem_text {line : Line} (h : line.Valid) : '\n' ∉ line.text := by
  have hmetric {name : Text} (hname : isName isMetricChar name) : '\n' ∉ name :=
    fun hmem => (isMetricChar_plain ((isName_cases hname).2 _ hmem)).2.2.2 rfl
  cases line with
  | typed name kind =>
    rw [Line.text_typed]
    simp only [List.mem_append, not_or]
    exact ⟨⟨⟨by decide, hmetric h.1⟩, by decide⟩, (kind_word h.2).2.2⟩
  | sample s =>
    have hs : s.Valid := h
    have hvalue : '\n' ∉ s.value := fun hmem => (hs.value.2 _ hmem).2.1 rfl
    have hbraces : '\n' ∉ s.braces := by
      unfold Sample.braces
      split_ifs
      · exact List.not_mem_nil
      · have hlabels : '\n' ∉ ",".toList.intercalate (s.labels.map Sample.labelText) := by
          apply newline_not_mem_intercalate
          intro t ht
          obtain ⟨p, hp, rfl⟩ := List.mem_map.mp ht
          exact newline_not_mem_labelText (hs.labels p hp)
        simp only [List.mem_append, not_or]
        exact ⟨⟨by decide, hlabels⟩, by decide⟩
    rw [Line.text_sample, Sample.text_eq]
    simp only [List.mem_append, List.mem_cons, not_or]
    exact ⟨hmetric hs.name, hbraces, by decide, hvalue⟩

/-- Lines that are written one after the other are read one after the other. -/
theorem parse_text {ls : List Line} (h : ∀ line ∈ ls, line.Valid) :
    parse (ls.flatMap fun line => line.text ++ ['\n']) = some ls := by
  unfold parse
  induction ls with
  | nil => rfl
  | cons line ls ih =>
    obtain ⟨hline, hls⟩ := List.forall_mem_cons.mp h
    rw [List.flatMap_cons, List.append_assoc, List.singleton_append,
      List.splitOn_append_cons_self_of_not_mem (newline_not_mem_text hline), parseLines,
      parseLine_text hline, ih hls]
    rfl

end Synora.Exposition
