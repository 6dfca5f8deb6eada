import Mathlib.Data.List.Infix
import Synora.Engine.Cron

namespace Synora.Engine
open Strings

/-! ## The language of cron fields -/

inductive FieldKind
  | minute | hour | dom | month | dow
deriving DecidableEq, Repr

namespace FieldKind

def lo : FieldKind → ℕ
  | .minute | .hour | .dow => 0
  | .dom | .month => 1

def hi : FieldKind → ℕ
  | .minute => 59
  | .hour => 23
  | .dom => 31
  | .month => 12
  | .dow => 7

/-- The names that `CronExpr::parse` hands to `parse_field`. -/
def names : FieldKind → List (Text × ℕ)
  | .month => monthNames
  | .dow => weekdayNames
  | _ => []

def fullNames : FieldKind → List (Text × ℕ)
  | .month =>
    [("january", 1), ("february", 2), ("march", 3), ("april", 4), ("may", 5), ("june", 6),
      ("july", 7), ("august", 8), ("september", 9), ("october", 10), ("november", 11),
      ("december", 12)].map fun e => (String.toList e.1, e.2)
  | .dow =>
    [("sunday", 0), ("monday", 1), ("tuesday", 2), ("wednesday", 3), ("thursday", 4),
      ("friday", 5), ("saturday", 6)].map fun e => (String.toList e.1, e.2)
  | _ => []

/-- The names of the field's values, short and full. -/
def words (k : FieldKind) : List (Text × ℕ) := k.names ++ k.fullNames

def parse (k : FieldKind) (s : Text) : Except Text CronField := parseField s k.lo k.hi k.names

end FieldKind

def IsNumber (t : Text) : Prop := t ≠ [] ∧ ∀ c ∈ t, c.isDigit = true

instance (t : Text) : Decidable (IsNumber t) := inferInstanceAs (Decidable (_ ∧ _))

def numberOf (t : Text) : ℕ := t.foldl (fun n c => n * 10 + (c.toNat - '0'.toNat)) 0

/-- What a written value says: a number, or a name in any case. -/
def valueOfWord (k : FieldKind) (t : Text) : Option ℕ :=
  if IsNumber t then some (numberOf t)
  else (k.words.find? fun e => decide (e.1 = toAsciiLowercase t)).map Prod.snd

/-- 7 is another Sunday. -/
def sunday (k : FieldKind) (n : ℕ) : ℕ := if k = .dow ∧ n = 7 then 0 else n

inductive Span
  | star
  | one (t : Text)
  | range (a b : Text)
deriving DecidableEq, Repr

/-- An element of the comma-separated list. -/
structure Element where
  span : Span
  step : Option Text
deriving DecidableEq, Repr

namespace Element

def spanText : Span → Text
  | .star => ['*']
  | .one t => t
  | .range a b => a ++ '-' :: b

def text (e : Element) : Text :=
  match e.step with
  | none => spanText e.span
  | some st => spanText e.span ++ '/' :: st

/-- The first and the last value. -/
def Spans (k : FieldKind) : Span → ℕ → ℕ → Prop
  | .star, a, b => a = k.lo ∧ b = k.hi
  | .one t, a, b => ∃ n, valueOfWord k t = some n ∧ a = sunday k n ∧ b = sunday k n
  | .range x y, a, b => valueOfWord k x = some a ∧ valueOfWord k y = some b

def Steps : Option Text → ℕ → Prop
  | none, s => s = 1
  | some st, s => IsNumber st ∧ s = numberOf st

/-- The element says: every `s`-th value from `a` to `b`. -/
def Means (k : FieldKind) (e : Element) (a b s : ℕ) : Prop :=
  Spans k e.span a b ∧ Steps e.step s ∧ k.lo ≤ a ∧ a ≤ b ∧ b ≤ k.hi ∧ 1 ≤ s ∧ s < 2 ^ 32

end Element

/-! ## Values -/

/-- The value begins with a plus sign, or with a name without being one. -/
def LooseValue (k : FieldKind) (t : Text) : Prop :=
  t.head? = some '+' ∨ (∃ e ∈ k.names, e.1 <+: toAsciiLowercase t) ∧ valueOfWord k t = none

instance (k : FieldKind) (t : Text) : Decidable (LooseValue k t) :=
  inferInstanceAs (Decidable (_ ∨ _))

variable {k : FieldKind} {t : Text}

theorem names_value : ∀ e ∈ k.names, ∀ w ∈ k.words, e.1 <+: w.1 → e.2 = w.2 := by
  cases k <;> decide

theorem words_name : ∀ w ∈ k.words, 3 ≤ (Utf8.encode w.1).length ∧ ∃ e ∈ k.names, e.1 <+: w.1 := by
  cases k <;> decide

theorem words_letters : ∀ w ∈ k.words, w.1 ≠ [] ∧ ∀ c ∈ w.1, 'a' ≤ c ∧ c ≤ 'z' := by
  cases k <;> decide

theorem parseU32_eq (h : t.head? ≠ some '+') :
    parseU32 t = if IsNumber t ∧ numberOf t < 2 ^ 32 then some (numberOf t) else none := by
  have hstrip : (stripPrefix "+".toList t).getD t = t := by
    rw [show "+".toList = ['+'] from rfl, stripPrefix, if_neg]
    · rfl
    · rcases t with _ | ⟨c, t⟩
      · exact Bool.false_ne_true
      · intro hplus
        rw [List.isPrefixOf_iff_prefix, List.cons_prefix_cons] at hplus
        exact h (congrArg some hplus.1.symm)
  have hdigits : (t.isEmpty = true ∨ ¬t.all Char.isDigit = true) ↔ ¬IsNumber t := by
    rw [IsNumber, List.isEmpty_iff, List.all_eq_true]
    tauto
  unfold parseU32
  rw [hstrip]
  by_cases hnumber : IsNumber t
  · rw [if_neg (hdigits.not.mpr (not_not.mpr hnumber))]
    exact if_congr (and_iff_right hnumber).symm rfl rfl
  · rw [if_pos (hdigits.mpr hnumber), if_neg (fun h => hnumber h.1)]

theorem isDow_iff (k : FieldKind) :
    decide (k.names.head?.map Prod.fst = some "sun".toList) = decide (k = .dow) := by
  cases k <;> decide

theorem lower_of_lt {c : Char} (h : c < 'A') :
    (if 'A' ≤ c ∧ c ≤ 'Z' then Char.ofNat (c.toNat + 32) else c) = c :=
  if_neg fun hc => absurd hc.1 (Char.not_le.mpr h)

/-- A number is no name. -/
theorem not_isNumber_of_name {e : Text × ℕ} (he : e ∈ k.names)
    (h : e.1 <+: toAsciiLowercase t) : ¬IsNumber t := by
  rintro ⟨-, hdigits⟩
  have hword : e ∈ k.words := List.mem_append_left _ he
  obtain ⟨hne, hletters⟩ := words_letters e hword
  obtain ⟨c, cs, hcs⟩ := List.exists_cons_of_ne_nil hne
  have hc : c ∈ toAsciiLowercase t := h.subset (hcs ▸ List.mem_cons_self)
  obtain ⟨d, hd, rfl⟩ := List.mem_map.mp hc
  have hdigit := hdigits d hd
  have hlt : d < 'A' := by
    rw [Char.isDigit, Bool.and_eq_true, decide_eq_true_iff, decide_eq_true_iff] at hdigit
    exact lt_of_le_of_lt hdigit.2 (by decide)
  have hletter := (hletters _ (hcs ▸ List.mem_cons_self)).1
  rw [lower_of_lt hlt] at hletter
  exact absurd (hletter.trans_lt hlt) (by decide)

theorem names_inits :
    ∀ e ∈ k.names, ∀ p ∈ e.1.inits, 3 ≤ (Utf8.encode p).length → p = e.1 := by
  cases k <;> decide

/-- The test of a lower-case value against a name. -/
def meetsName (lower : Text) (e : Text × ℕ) : Bool :=
  decide (3 ≤ (Utf8.encode lower).length) && (lower.isPrefixOf e.1 || e.1.isPrefixOf lower)

/-- A value meets a name where it begins with it. -/
theorem meetsName_iff {e : Text × ℕ} (he : e ∈ k.names) (lower : Text) :
    meetsName lower e = true ↔ e.1 <+: lower := by
  rw [meetsName, Bool.and_eq_true, decide_eq_true_iff, Bool.or_eq_true, List.isPrefixOf_iff_prefix,
    List.isPrefixOf_iff_prefix]
  constructor
  · rintro ⟨hlength, hpre | hpre⟩
    · rw [names_inits e he lower ((List.mem_inits lower e.1).mpr hpre) hlength]
    · exact hpre
  · intro hpre
    obtain ⟨u, rfl⟩ := hpre
    have hlength := (words_name e (List.mem_append_left _ he)).1
    refine ⟨?_, Or.inr (List.prefix_append e.1 u)⟩
    rw [Utf8.encode_append, List.length_append]
    omega

theorem resolveValue_of_number {n : ℕ} (s : Text) (h : parseU32 t = some n) :
    resolveValue s k.names t = .ok (sunday k n) := by
  unfold resolveValue
  rw [h, isDow_iff]
  simp only [sunday, Bool.and_eq_true, decide_eq_true_iff]

theorem resolveValue_of_name {e : Text × ℕ} (s : Text) (h : parseU32 t = none)
    (hfind : k.names.find? (meetsName (toAsciiLowercase t)) = some e) :
    resolveValue s k.names t = .ok e.2 := by
  unfold resolveValue
  unfold meetsName at hfind
  rw [h]
  simp only [hfind]

theorem resolveValue_of_none (s : Text) (h : parseU32 t = none)
    (hfind : k.names.find? (meetsName (toAsciiLowercase t)) = none) (n : ℕ) :
    resolveValue s k.names t ≠ .ok n := by
  unfold resolveValue
  unfold meetsName at hfind
  rw [h]
  simp only [hfind, ne_eq, reduceCtorEq, not_false_eq_true]

theorem word_of_valueOfWord {m : ℕ} (hnumber : ¬IsNumber t) (h : valueOfWord k t = some m) :
    ∃ w ∈ k.words, w.1 = toAsciiLowercase t ∧ w.2 = m := by
  rw [valueOfWord, if_neg hnumber] at h
  obtain ⟨w, hw, rfl⟩ := Option.map_eq_some_iff.mp h
  have heq := List.find?_some hw
  exact ⟨w, List.mem_of_find?_eq_some hw, of_decide_eq_true heq, rfl⟩

theorem words_sunday : ∀ w ∈ k.words, sunday k w.2 = w.2 ∧ w.2 < 2 ^ 32 := by
  cases k <;> decide

/-- The values that are accepted, and what for. -/
theorem resolveValue_iff (s : Text) (h : ¬LooseValue k t) {n : ℕ} :
    resolveValue s k.names t = .ok n ↔
      ∃ m, valueOfWord k t = some m ∧ m < 2 ^ 32 ∧ n = sunday k m := by
  rw [LooseValue, not_or] at h
  have hparse := parseU32_eq h.1
  by_cases hnumber : IsNumber t
  · have hvalue : valueOfWord k t = some (numberOf t) := if_pos hnumber
    by_cases hlt : numberOf t < 2 ^ 32
    · rw [if_pos ⟨hnumber, hlt⟩] at hparse
      rw [resolveValue_of_number s hparse, Except.ok.injEq, hvalue]
      exact ⟨fun heq => ⟨_, rfl, hlt, heq.symm⟩, fun ⟨m, hm, _, heq⟩ => by
        rw [heq, Option.some.inj hm]⟩
    · rw [if_neg fun hboth => hlt hboth.2] at hparse
      have hnone : k.names.find? (meetsName (toAsciiLowercase t)) = none :=
        List.find?_eq_none.mpr fun e he hmeets =>
          not_isNumber_of_name he ((meetsName_iff he _).mp hmeets) hnumber
      refine iff_of_false (resolveValue_of_none s hparse hnone n) ?_
      rintro ⟨m, hm, hmlt, -⟩
      rw [hvalue, Option.some.injEq] at hm
      exact hlt (hm ▸ hmlt)
  · rw [if_neg fun hboth => hnumber hboth.1] at hparse
    rcases hfind : k.names.find? (meetsName (toAsciiLowercase t)) with _ | e
    · refine iff_of_false (resolveValue_of_none s hparse hfind n) ?_
      rintro ⟨m, hm, -⟩
      obtain ⟨w, hw, hlower, -⟩ := word_of_valueOfWord hnumber hm
      obtain ⟨-, e, he, hpre⟩ := words_name w hw
      exact List.find?_eq_none.mp hfind e he ((meetsName_iff he _).mpr (hlower ▸ hpre))
    · have he := List.mem_of_find?_eq_some hfind
      have hmeets := List.find?_some hfind
      have hpre := (meetsName_iff he _).mp hmeets
      obtain ⟨m, hm⟩ := Option.ne_none_iff_exists'.mp fun hnone => h.2 ⟨⟨e, he, hpre⟩, hnone⟩
      obtain ⟨w, hw, hlower, rfl⟩ := word_of_valueOfWord hnumber hm
      obtain ⟨hsunday, hlt⟩ := words_sunday w hw
      have hvalue := names_value e he w hw (hlower ▸ hpre)
      rw [resolveValue_of_name s hparse hfind, Except.ok.injEq, hvalue, hm]
      exact ⟨fun heq => ⟨_, rfl, hlt, heq ▸ hsunday.symm⟩, fun ⟨m, hm, _, heq⟩ => by
        rw [heq, ← Option.some.inj hm, hsunday]⟩

/-! ## Elements -/

/-- The tail of `parsePart`. -/
def rangePart (s : Text) (lo hi : ℕ) (names : List (Text × ℕ)) (range : Text) (step : ℕ) :
    Except Text FieldPart := do
  let (a, b) := (splitOnce "-".toList range).getD (range, range)
  let a ← if a = "*".toList then pure lo else resolveValue s names a
  let b ← if b = "*".toList then pure hi else resolveValue s names b
  if b < a then
    throw ("invalid cron range `".toList ++ range ++ "` in `".toList ++ s ++
      "`: start > end".toList)
  if a < lo ∨ hi < b then
    throw ("invalid cron value in `".toList ++ s ++ "`: ".toList ++ range ++ " outside ".toList ++
      (toString lo).toList ++ "-".toList ++ (toString hi).toList)
  pure ⟨a, b, step⟩

theorem parsePart_of_none {s chunk : Text} {lo hi : ℕ} {names : List (Text × ℕ)}
    (hne : chunk ≠ []) (h : splitOnce ['/'] chunk = none) :
    parsePart s lo hi names chunk = rangePart s lo hi names chunk 1 := by
  unfold parsePart
  rw [if_neg (by simpa using hne), show splitOnce "/".toList chunk = none from h]
  rfl

theorem parsePart_of_some {s chunk range st : Text} {lo hi : ℕ} {names : List (Text × ℕ)}
    (h : splitOnce ['/'] chunk = some (range, st)) {p : FieldPart} :
    parsePart s lo hi names chunk = .ok p ↔
      ∃ step, parseU32 st = some step ∧ step ≠ 0 ∧ rangePart s lo hi names range step = .ok p := by
  have hne : chunk ≠ [] := by
    rw [splitOnce_eq_append h]
    simp
  unfold parsePart
  rw [if_neg (by simpa using hne), show splitOnce "/".toList chunk = some (range, st) from h]
  dsimp only
  rcases parseU32 st with _ | step
  · exact iff_of_false nofun nofun
  · rcases eq_or_ne step 0 with rfl | hzero
    · exact iff_of_false nofun fun ⟨_, hstep, hne, _⟩ => hne (Option.some.inj hstep).symm
    · dsimp only
      rw [if_neg hzero]
      exact ⟨fun h => ⟨step, rfl, hzero, h⟩, fun ⟨_, hstep, _, h⟩ => Option.some.inj hstep ▸ h⟩

/-- One end of a range: `*` is the end of the field. -/
def endOf (s : Text) (names : List (Text × ℕ)) (star : ℕ) (v : Text) : Except Text ℕ :=
  if v = "*".toList then pure star else resolveValue s names v

def sidesOf (range : Text) : Text × Text := (splitOnce "-".toList range).getD (range, range)

/-- The checks on the two ends. -/
def checkPart (s : Text) (lo hi : ℕ) (range : Text) (step a b : ℕ) : Except Text FieldPart :=
  if b < a then
    throw ("invalid cron range `".toList ++ range ++ "` in `".toList ++ s ++
      "`: start > end".toList)
  else if a < lo ∨ hi < b then
    throw ("invalid cron value in `".toList ++ s ++ "`: ".toList ++ range ++ " outside ".toList ++
      (toString lo).toList ++ "-".toList ++ (toString hi).toList)
  else pure ⟨a, b, step⟩

theorem rangePart_eq (s : Text) (lo hi : ℕ) (names : List (Text × ℕ)) (range : Text) (step : ℕ) :
    rangePart s lo hi names range step = (endOf s names lo (sidesOf range).1).bind fun a =>
      (endOf s names hi (sidesOf range).2).bind fun b => checkPart s lo hi range step a b := by
  unfold rangePart sidesOf endOf
  rcases (splitOnce "-".toList range).getD (range, range) with ⟨x, y⟩
  dsimp only
  split_ifs
  · rfl
  · rfl
  · rfl
  · rfl

theorem rangePart_iff {s : Text} {lo hi : ℕ} {names : List (Text × ℕ)} {range : Text}
    {a b step step' : ℕ} :
    rangePart s lo hi names range step = .ok ⟨a, b, step'⟩ ↔
      endOf s names lo (sidesOf range).1 = .ok a ∧ endOf s names hi (sidesOf range).2 = .ok b ∧
        a ≤ b ∧ lo ≤ a ∧ b ≤ hi ∧ step = step' := by
  rw [rangePart_eq]
  rcases endOf s names lo (sidesOf range).1 with _ | a'
  · simp [Except.bind]
  · rcases endOf s names hi (sidesOf range).2 with _ | b'
    · simp [Except.bind]
    · simp only [Except.bind, checkPart, Except.ok.injEq]
      split_ifs
      · refine iff_of_false nofun ?_
        omega
      · refine iff_of_false nofun ?_
        omega
      · simp only [pure, Except.pure, Except.ok.injEq, FieldPart.mk.injEq]
        omega

/-- A range between values that are loose, `*` or, for weekdays, a written 7. -/
def LooseSpan (k : FieldKind) (range : Text) : Prop :=
  match splitOnce "-".toList range with
  | none => LooseValue k range
  | some (x, y) => LooseValue k x ∨ LooseValue k y ∨ x = "*".toList ∨ y = "*".toList ∨
      k = .dow ∧ (valueOfWord k x = some 7 ∨ valueOfWord k y = some 7)

/-- The element has a loose range, or a plus sign before its step. -/
def Loose (k : FieldKind) (chunk : Text) : Prop :=
  match splitOnce "/".toList chunk with
  | none => LooseSpan k chunk
  | some (range, st) => LooseSpan k range ∨ st.head? = some '+'

instance (k : FieldKind) (range : Text) : Decidable (LooseSpan k range) :=
  match h : splitOnce "-".toList range with
  | none => decidable_of_iff (LooseValue k range) (by rw [LooseSpan, h])
  | some (x, y) => decidable_of_iff (LooseValue k x ∨ LooseValue k y ∨ x = "*".toList ∨
      y = "*".toList ∨ k = .dow ∧ (valueOfWord k x = some 7 ∨ valueOfWord k y = some 7))
      (by rw [LooseSpan, h])

instance (k : FieldKind) (chunk : Text) : Decidable (Loose k chunk) :=
  match h : splitOnce "/".toList chunk with
  | none => decidable_of_iff (LooseSpan k chunk) (by rw [Loose, h])
  | some (range, st) => decidable_of_iff (LooseSpan k range ∨ st.head? = some '+')
      (by rw [Loose, h])

theorem splitOnce_eq_none_iff {c : Char} : splitOnce [c] t = none ↔ c ∉ t := by
  rw [← List.singleton_infix_iff, ← contains_iff, contains, Bool.not_eq_true,
    Option.isSome_eq_false_iff, Option.isNone_iff_eq_none]

/-- Values hold no punctuation. -/
theorem clean_of_valueOfWord {n : ℕ} (h : valueOfWord k t = some n) :
    t ≠ [] ∧ '-' ∉ t ∧ '/' ∉ t ∧ '*' ∉ t := by
  by_cases hnumber : IsNumber t
  · refine ⟨hnumber.1, fun hc => ?_, fun hc => ?_, fun hc => ?_⟩
    all_goals exact absurd (hnumber.2 _ hc) (by decide)
  · obtain ⟨w, hw, hlower, -⟩ := word_of_valueOfWord hnumber h
    obtain ⟨hne, hletters⟩ := words_letters w hw
    have hmark : ∀ c, c < 'A' → c ∉ t := by
      intro c hlt hc
      have hmem : c ∈ w.1 := by
        rw [hlower]
        exact List.mem_map.mpr ⟨c, hc, lower_of_lt hlt⟩
      exact absurd ((hletters c hmem).1.trans_lt hlt) (by decide)
    refine ⟨?_, hmark _ (by decide), hmark _ (by decide), hmark _ (by decide)⟩
    rintro rfl
    exact hne hlower

theorem sunday_of_ne {n : ℕ} (h : ¬(k = .dow ∧ n = 7)) : sunday k n = n := if_neg h

theorem FieldKind.hi_lt (k : FieldKind) : k.hi < 2 ^ 32 := by
  cases k <;> decide

theorem endOf_of_ne {v : Text} (h : v ≠ ['*']) (s : Text) (names : List (Text × ℕ)) (star : ℕ) :
    endOf s names star v = resolveValue s names v := if_neg h

theorem star_of_valueOfWord {n : ℕ} (h : valueOfWord k t = some n) : t ≠ ['*'] := by
  rintro rfl
  exact (clean_of_valueOfWord h).2.2.2 (List.mem_singleton_self _)

/-- A range without a dash is `*` or one value. -/
theorem spans_one {s range : Text} {a b : ℕ} (hdash : '-' ∉ range) (hloose : ¬LooseValue k range)
    (hb : b ≤ k.hi) :
    (endOf s k.names k.lo range = .ok a ∧ endOf s k.names k.hi range = .ok b) ↔
      ∃ span, Element.spanText span = range ∧ Element.Spans k span a b := by
  have hlt := k.hi_lt
  rcases eq_or_ne range ['*'] with rfl | hstar
  · constructor
    · rintro ⟨ha, hb⟩
      exact ⟨.star, rfl, (Except.ok.inj ha).symm, (Except.ok.inj hb).symm⟩
    · rintro ⟨span, htext, hspans⟩
      rcases span with _ | t | ⟨x, y⟩
      · exact ⟨congrArg _ hspans.1.symm, congrArg _ hspans.2.symm⟩
      · obtain ⟨n, hn, -⟩ := hspans
        exact absurd htext (star_of_valueOfWord hn)
      · exact absurd (htext ▸ List.mem_append_right _ List.mem_cons_self) hdash
  · rw [endOf_of_ne hstar, endOf_of_ne hstar, resolveValue_iff s hloose, resolveValue_iff s hloose]
    constructor
    · rintro ⟨⟨n, hn, -, ha⟩, m, hm, -, hb⟩
      obtain rfl := Option.some.inj (hn.symm.trans hm)
      exact ⟨.one range, rfl, n, hn, ha, hb⟩
    · rintro ⟨span, htext, hspans⟩
      rcases span with _ | t | ⟨x, y⟩
      · exact absurd htext.symm hstar
      · obtain ⟨n, hn, ha, hb'⟩ := hspans
        obtain rfl : t = range := htext
        have hn32 : n < 2 ^ 32 := by
          unfold sunday at hb'
          split_ifs at hb' <;> omega
        exact ⟨⟨n, hn, hn32, ha⟩, n, hn, hn32, hb'⟩
      · exact absurd (htext ▸ List.mem_append_right _ List.mem_cons_self) hdash

theorem append_dash_inj {x y x' y' : Text} (hx : '-' ∉ x) (hx' : '-' ∉ x')
    (h : x ++ '-' :: y = x' ++ '-' :: y') : x = x' ∧ y = y' := by
  have hsplit := splitOnce_singleton hx y
  rw [h, splitOnce_singleton hx' y'] at hsplit
  obtain ⟨hfst, hsnd⟩ := Prod.mk.inj (Option.some.inj hsplit)
  exact ⟨hfst.symm, hsnd.symm⟩

/-- A range with a dash stands between two values. -/
theorem spans_range {s x y : Text} {a b : ℕ} (hdash : '-' ∉ x)
    (hx : ¬LooseValue k x) (hy : ¬LooseValue k y) (hxs : x ≠ ['*']) (hys : y ≠ ['*'])
    (hseven : ¬(k = .dow ∧ (valueOfWord k x = some 7 ∨ valueOfWord k y = some 7)))
    (hab : a ≤ b) (hb : b ≤ k.hi) :
    (endOf s k.names k.lo x = .ok a ∧ endOf s k.names k.hi y = .ok b) ↔
      ∃ span, Element.spanText span = x ++ '-' :: y ∧ Element.Spans k span a b := by
  have hlt := k.hi_lt
  have hmem : '-' ∈ x ++ '-' :: y := List.mem_append_right _ List.mem_cons_self
  rw [endOf_of_ne hxs, endOf_of_ne hys, resolveValue_iff s hx, resolveValue_iff s hy]
  constructor
  · rintro ⟨⟨n, hn, -, rfl⟩, m, hm, -, rfl⟩
    refine ⟨.range x y, rfl, ?_, ?_⟩
    · rwa [sunday_of_ne fun h => hseven ⟨h.1, Or.inl (h.2 ▸ hn)⟩]
    · rwa [sunday_of_ne fun h => hseven ⟨h.1, Or.inr (h.2 ▸ hm)⟩]
  · rintro ⟨span, htext, hspans⟩
    rcases span with _ | t | ⟨x', y'⟩
    · rw [← htext] at hmem
      exact absurd hmem (by decide)
    · obtain ⟨n, hn, -⟩ := hspans
      obtain rfl : t = x ++ '-' :: y := htext
      exact absurd hmem (clean_of_valueOfWord hn).2.1
    · obtain ⟨ha, hb'⟩ := hspans
      obtain ⟨rfl, rfl⟩ := append_dash_inj (clean_of_valueOfWord ha).2.1 hdash htext
      refine ⟨⟨a, ha, by omega, ?_⟩, b, hb', by omega, ?_⟩
      · rw [sunday_of_ne fun h => hseven ⟨h.1, Or.inl (h.2 ▸ ha)⟩]
      · rw [sunday_of_ne fun h => hseven ⟨h.1, Or.inr (h.2 ▸ hb')⟩]

theorem spans_iff {s range : Text} {a b : ℕ} (hloose : ¬LooseSpan k range) (hab : a ≤ b)
    (hb : b ≤ k.hi) :
    (endOf s k.names k.lo (sidesOf range).1 = .ok a ∧
      endOf s k.names k.hi (sidesOf range).2 = .ok b) ↔
      ∃ span, Element.spanText span = range ∧ Element.Spans k span a b := by
  unfold LooseSpan at hloose
  unfold sidesOf
  rcases hsplit : splitOnce "-".toList range with _ | ⟨x, y⟩
  · rw [hsplit] at hloose
    exact spans_one (splitOnce_eq_none_iff.mp hsplit) hloose hb
  · rw [hsplit] at hloose
    simp only [not_or] at hloose
    obtain ⟨hx, hy, hxs, hys, hseven⟩ := hloose
    have hdash : '-' ∉ x := fun hmem =>
      not_infix_of_splitOnce (List.cons_ne_nil _ _) hsplit ((List.singleton_infix_iff _ _).mpr hmem)
    rw [splitOnce_eq_append hsplit]
    exact spans_range hdash hx hy hxs hys (by tauto) hab hb

theorem slash_of_spans {span : Span} {a b : ℕ} (h : Element.Spans k span a b) :
    '/' ∉ Element.spanText span := by
  rcases span with _ | t | ⟨x, y⟩
  · decide
  · obtain ⟨n, hn, -⟩ := h
    exact (clean_of_valueOfWord hn).2.2.1
  · obtain ⟨hx, hy⟩ := h
    have hslash : '/' ∉ '-' :: y := List.not_mem_cons_of_ne_of_not_mem (by decide)
      (clean_of_valueOfWord hy).2.2.1
    exact fun hmem => (List.mem_append.mp hmem).elim (clean_of_valueOfWord hx).2.2.1 hslash

theorem spanText_ne_nil {span : Span} {a b : ℕ} (h : Element.Spans k span a b) :
    Element.spanText span ≠ [] := by
  rcases span with _ | t | ⟨x, y⟩
  · decide
  · obtain ⟨n, hn, -⟩ := h
    exact (clean_of_valueOfWord hn).1
  · exact List.append_ne_nil_of_right_ne_nil x (List.cons_ne_nil '-' y)

theorem parseU32_step {st : Text} {step : ℕ} (h : st.head? ≠ some '+') :
    parseU32 st = some step ↔ IsNumber st ∧ step = numberOf st ∧ step < 2 ^ 32 := by
  rw [parseU32_eq h, Option.ite_none_right_eq_some, Option.some.injEq]
  constructor
  · rintro ⟨⟨hnumber, hlt⟩, rfl⟩
    exact ⟨hnumber, rfl, hlt⟩
  · rintro ⟨hnumber, rfl, hlt⟩
    exact ⟨⟨hnumber, hlt⟩, rfl⟩

theorem parsePart_nil (s : Text) (lo hi : ℕ) (names : List (Text × ℕ)) (p : FieldPart) :
    parsePart s lo hi names [] ≠ .ok p := nofun

/-- The elements that are accepted, and what for. -/
theorem parsePart_iff {s chunk : Text} {a b step : ℕ} (hloose : ¬Loose k chunk) :
    parsePart s k.lo k.hi k.names chunk = .ok ⟨a, b, step⟩ ↔
      ∃ e : Element, e.text = chunk ∧ e.Means k a b step := by
  constructor
  · intro h
    rcases hsplit : splitOnce ['/'] chunk with _ | ⟨range, st⟩
    · rw [Loose, show splitOnce "/".toList chunk = none from hsplit] at hloose
      have hne : chunk ≠ [] := by
        rintro rfl
        exact parsePart_nil _ _ _ _ _ h
      rw [parsePart_of_none hne hsplit] at h
      obtain ⟨ha, hb, hab, hlo, hhi, rfl⟩ := rangePart_iff.mp h
      obtain ⟨span, htext, hspans⟩ := (spans_iff hloose hab hhi).mp ⟨ha, hb⟩
      exact ⟨⟨span, none⟩, htext, hspans, rfl, hlo, hab, hhi, le_rfl, by decide⟩
    · rw [Loose, show splitOnce "/".toList chunk = some (range, st) from hsplit, not_or] at hloose
      obtain ⟨step', hst, hzero, hrange⟩ := (parsePart_of_some hsplit).mp h
      obtain ⟨hnumber, hstep, hlt⟩ := (parseU32_step hloose.2).mp hst
      obtain ⟨ha, hb, hab, hlo, hhi, rfl⟩ := rangePart_iff.mp hrange
      obtain ⟨span, htext, hspans⟩ := (spans_iff hloose.1 hab hhi).mp ⟨ha, hb⟩
      refine ⟨⟨span, some st⟩, ?_, hspans, ⟨hnumber, hstep⟩, hlo, hab, hhi, by omega, hlt⟩
      rw [splitOnce_eq_append hsplit, ← htext]
      rfl
  · rintro ⟨⟨span, st⟩, htext, hspans, hsteps, hlo, hab, hhi, hstep, hlt⟩
    have hslash := slash_of_spans hspans
    rcases st with _ | st
    · obtain rfl : Element.spanText span = chunk := htext
      obtain rfl : step = 1 := hsteps
      have hsplit := splitOnce_eq_none_iff.mpr hslash
      rw [Loose, show splitOnce "/".toList (Element.spanText span) = none from hsplit] at hloose
      obtain ⟨ha, hb⟩ := (spans_iff hloose hab hhi).mpr ⟨span, rfl, hspans⟩
      rw [parsePart_of_none (spanText_ne_nil hspans) hsplit]
      exact rangePart_iff.mpr ⟨ha, hb, hab, hlo, hhi, rfl⟩
    · obtain rfl : Element.spanText span ++ '/' :: st = chunk := htext
      have hsplit := splitOnce_singleton hslash st
      rw [Loose, show splitOnce "/".toList (Element.spanText span ++ '/' :: st) = _ from hsplit,
        not_or] at hloose
      obtain ⟨ha, hb⟩ := (spans_iff hloose.1 hab hhi).mpr ⟨span, rfl, hspans⟩
      have hst := (parseU32_step hloose.2).mpr ⟨hsteps.1, hsteps.2, hlt⟩
      exact (parsePart_of_some hsplit).mpr
        ⟨step, hst, by omega, rangePart_iff.mpr ⟨ha, hb, hab, hlo, hhi, rfl⟩⟩

/-! ## Fields and expressions -/

namespace Element

def Valid (k : FieldKind) (e : Element) : Prop := ∃ a b s, e.Means k a b s

/-- The values of an element. -/
def Has (k : FieldKind) (e : Element) (v : ℕ) : Prop :=
  ∃ a b s, e.Means k a b s ∧ a ≤ v ∧ v ≤ b ∧ s ∣ v - a

end Element

theorem mapM_cons_ok {ε α β : Type*} {f : α → Except ε β} {x : α} {xs : List α} {zs : List β} :
    (x :: xs).mapM f = .ok zs ↔ ∃ y ys, f x = .ok y ∧ xs.mapM f = .ok ys ∧ y :: ys = zs := by
  rw [List.mapM_cons]
  rcases f x with e | y
  · exact iff_of_false nofun nofun
  · change ((xs.mapM f).bind fun ys => .ok (y :: ys)) = _ ↔ _
    rcases xs.mapM f with e | ys
    · exact iff_of_false nofun nofun
    · simp [Except.bind]

theorem exists_mapM_ok {ε α β : Type*} {f : α → Except ε β} {xs : List α} :
    (∃ ys, xs.mapM f = .ok ys) ↔ ∀ x ∈ xs, ∃ y, f x = .ok y := by
  induction xs with
  | nil => exact iff_of_true ⟨[], rfl⟩ nofun
  | cons x xs ih =>
    rw [List.forall_mem_cons, ← ih]
    simp only [mapM_cons_ok]
    constructor
    · rintro ⟨_, y, ys, hy, hys, -⟩
      exact ⟨⟨y, hy⟩, ys, hys⟩
    · rintro ⟨⟨y, hy⟩, ys, hys⟩
      exact ⟨_, y, ys, hy, hys, rfl⟩

theorem any_of_mapM_ok {ε α β : Type*} {f : α → Except ε β} {xs : List α} {ys : List β}
    (h : xs.mapM f = .ok ys) (p : β → Bool) :
    ys.any p = true ↔ ∃ x ∈ xs, ∃ y, f x = .ok y ∧ p y = true := by
  induction xs generalizing ys with
  | nil =>
    obtain rfl : [] = ys := Except.ok.inj h
    simp
  | cons x xs ih =>
    obtain ⟨y, ys, hy, hys, rfl⟩ := mapM_cons_ok.mp h
    rw [List.any_cons, Bool.or_eq_true, ih hys, List.exists_mem_cons_iff]
    simp [hy]

/-- Fields are accepted where every element says something, and match what one of them says. -/
theorem field_exact {s : Text} (hloose : ∀ chunk ∈ s.splitOn ',', ¬Loose k chunk) :
    ((∃ f, k.parse s = .ok f) ↔
      ∀ chunk ∈ s.splitOn ',', ∃ e : Element, e.text = chunk ∧ e.Valid k) ∧
    ∀ f, k.parse s = .ok f → ∀ v, fieldMatches f v = true ↔
      ∃ chunk ∈ s.splitOn ',', ∃ e : Element, e.text = chunk ∧ e.Has k v := by
  have hpart : ∀ chunk ∈ s.splitOn ',', ∀ p, parsePart s k.lo k.hi k.names chunk = .ok p ↔
      ∃ e : Element, e.text = chunk ∧ e.Means k p.min p.max p.step :=
    fun chunk hchunk p => parsePart_iff (hloose chunk hchunk)
  constructor
  · refine exists_mapM_ok.trans (forall₂_congr fun chunk hchunk => ?_)
    constructor
    · rintro ⟨p, hp⟩
      obtain ⟨e, htext, hmeans⟩ := (hpart chunk hchunk p).mp hp
      exact ⟨e, htext, _, _, _, hmeans⟩
    · rintro ⟨e, htext, a, b, step, hmeans⟩
      exact ⟨⟨a, b, step⟩, (hpart chunk hchunk _).mpr ⟨e, htext, hmeans⟩⟩
  · intro f hf v
    refine (any_of_mapM_ok hf _).trans (exists_congr fun chunk => and_congr_right fun hchunk => ?_)
    simp only [FieldPart.matches, decide_eq_true_iff, ← Nat.dvd_iff_mod_eq_zero]
    constructor
    · rintro ⟨p, hp, hmatch⟩
      obtain ⟨e, htext, hmeans⟩ := (hpart chunk hchunk p).mp hp
      exact ⟨e, htext, _, _, _, hmeans, hmatch⟩
    · rintro ⟨e, htext, a, b, step, hmeans, hmatch⟩
      exact ⟨⟨a, b, step⟩, (hpart chunk hchunk _).mpr ⟨e, htext, hmeans⟩, hmatch⟩

theorem normalizeCron_of_six {expr : Text} (h : (splitWhitespace expr).length = 6) :
    normalizeCron expr = .ok expr := by
  unfold normalizeCron
  simp only [h]

/-- A normalized expression has six fields. -/
theorem six_of_normalizeCron {expr normalized : Text} (h : normalizeCron expr = .ok normalized) :
    (splitWhitespace normalized).length = 6 := by
  unfold normalizeCron at h
  dsimp only at h
  split at h
  · rename_i hfive
    rw [← Except.ok.inj h]
    show (splitWhitespace (['0'] ++ ' ' :: expr)).length = 6
    rw [splitWhitespace_append (by decide) (by decide), List.length_cons, hfive]
  · rename_i hsix
    rwa [← Except.ok.inj h]
  · rename_i hseven
    have htake : ∀ tok ∈ (splitWhitespace expr).take 6, tok ∈ splitWhitespace expr :=
      fun tok htok => List.mem_of_mem_take htok
    split_ifs at h
    rw [← Except.ok.inj h]
    show (splitWhitespace ([' '].intercalate _)).length = 6
    rw [splitWhitespace_intercalate htake, List.length_take, hseven]
    omega
  · cases h

theorem parseCronExpr_idem {expr normalized : Text} (h : parseCronExpr expr = .ok normalized) :
    parseCronExpr normalized = .ok normalized := by
  obtain ⟨hnormal, hparse⟩ := parseCronExpr_eq_ok.mp h
  exact parseCronExpr_eq_ok.mpr
    ⟨normalizeCron_of_six (six_of_normalizeCron hnormal), hparse⟩

/-- Fields without loose elements are read as cron says, and expressions are normalized once. -/
theorem cron_fields_exact :
    (∀ (k : FieldKind) (s : Text), (∀ chunk ∈ s.splitOn ',', ¬Loose k chunk) →
      ((∃ f, k.parse s = .ok f) ↔
        ∀ chunk ∈ s.splitOn ',', ∃ e : Element, e.text = chunk ∧ e.Valid k) ∧
      ∀ f, k.parse s = .ok f → ∀ v, fieldMatches f v = true ↔
        ∃ chunk ∈ s.splitOn ',', ∃ e : Element, e.text = chunk ∧ e.Has k v) ∧
    ∀ expr normalized, parseCronExpr expr = .ok normalized →
      parseCronExpr normalized = .ok normalized :=
  ⟨fun _ _ hloose => field_exact hloose, fun _ _ h => parseCronExpr_idem h⟩

theorem cron_fields_exact_weekdays :
    (∃ chunk ∈ "Mon-fri,7".toList.splitOn ',', ∃ e : Element, e.text = chunk ∧ e.Has .dow 0) ∧
      parseCronExpr "0 0 4 * * Mon-fri,7".toList = .ok "0 0 4 * * Mon-fri,7".toList := by
  have hloose : ∀ chunk ∈ "Mon-fri,7".toList.splitOn ',', ¬Loose .dow chunk := by decide +kernel
  have hparse : FieldKind.dow.parse "Mon-fri,7".toList = .ok [⟨1, 5, 1⟩, ⟨0, 0, 1⟩] := by
    decide +kernel
  have hnormal : parseCronExpr "0 4 * * Mon-fri,7".toList = .ok "0 0 4 * * Mon-fri,7".toList := by
    decide +kernel
  exact ⟨((cron_fields_exact.1 .dow _ hloose).2 _ hparse 0).mp (by decide),
    cron_fields_exact.2 _ _ hnormal⟩

/-- A step on a single value is taken, too. -/
theorem value_with_step_accepted :
    FieldKind.minute.parse "5/10".toList = .ok [⟨5, 5, 10⟩] ∧
      ¬∃ e : Element, e.text = "5/10".toList ∧ e.Valid .minute ∧
        (e.step = none ∨ ∀ t, e.span ≠ .one t) := by
  refine ⟨by decide +kernel, ?_⟩
  rintro ⟨⟨span, st⟩, htext, ⟨a, b, s, hspans, -⟩, hform⟩
  rcases span with _ | t | ⟨x, y⟩
  · rcases st with _ | st
    · exact absurd htext (by decide)
    · exact absurd (List.cons.inj htext).1 (by decide)
  · obtain rfl : st = none := hform.resolve_right fun h => h t rfl
    have hslash := slash_of_spans hspans
    rw [show Element.spanText (.one t) = "5/10".toList from htext] at hslash
    exact hslash (by decide)
  · have hdash : '-' ∈ Element.text ⟨.range x y, st⟩ := by
      rcases st with _ | st
      · exact List.mem_append_right _ List.mem_cons_self
      · exact List.mem_append_left _ (List.mem_append_right _ List.mem_cons_self)
    rw [htext] at hdash
    exact absurd hdash (by decide)

end Synora.Engine
