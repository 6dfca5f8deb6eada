import Mathlib.Tactic.FinCases
import Synora.Lib.Toml

namespace Synora.Toml
open Strings

/-! The lines of a TOML text and the statements that they make up. What a single statement says is
left to a reader; where it ends is decided here. -/

inductive Quote
  | basic
  | literal
deriving DecidableEq, Repr

/-- Where the end of a line leaves off: inside how many brackets, and inside which multi-line
string. -/
structure Mode where
  depth : ℕ
  quote : Option Quote
deriving DecidableEq, Repr

/-- Between two statements. -/
def Mode.top : Mode := ⟨0, none⟩

inductive Inside
  | plain
  | string (q : Quote)
  | multiline (q : Quote)
deriving DecidableEq, Repr

/-- The end of a line; `none` when a string or a bracket is left that cannot be. -/
def scan : Inside → ℕ → Text → Option Mode
  | .plain, d, [] => some ⟨d, none⟩
  | .string _, _, [] => none
  | .multiline q, d, [] => some ⟨d, some q⟩
  | .plain, d, '#' :: _ => some ⟨d, none⟩
  | .plain, d, '"' :: '"' :: '"' :: cs => scan (.multiline .basic) d cs
  | .plain, d, '"' :: cs => scan (.string .basic) d cs
  | .plain, d, '\'' :: '\'' :: '\'' :: cs => scan (.multiline .literal) d cs
  | .plain, d, '\'' :: cs => scan (.string .literal) d cs
  | .plain, d, c :: cs =>
    if c = '[' ∨ c = '{' then scan .plain (d + 1) cs
    else if c = ']' ∨ c = '}' then if d = 0 then none else scan .plain (d - 1) cs
    else scan .plain d cs
  | .string .basic, d, '\\' :: _ :: cs => scan (.string .basic) d cs
  | .string .basic, d, '"' :: cs => scan .plain d cs
  | .string .literal, d, '\'' :: cs => scan .plain d cs
  | .string q, d, _ :: cs => scan (.string q) d cs
  | .multiline .basic, d, '\\' :: _ :: cs => scan (.multiline .basic) d cs
  -- up to two quotes may stand before the closing three
  | .multiline .basic, d, '"' :: '"' :: '"' :: '"' :: '"' :: cs => scan .plain d cs
  | .multiline .basic, d, '"' :: '"' :: '"' :: '"' :: cs => scan .plain d cs
  | .multiline .basic, d, '"' :: '"' :: '"' :: cs => scan .plain d cs
  | .multiline .literal, d, '\'' :: '\'' :: '\'' :: '\'' :: '\'' :: cs => scan .plain d cs
  | .multiline .literal, d, '\'' :: '\'' :: '\'' :: '\'' :: cs => scan .plain d cs
  | .multiline .literal, d, '\'' :: '\'' :: '\'' :: cs => scan .plain d cs
  | .multiline q, d, _ :: cs => scan (.multiline q) d cs

/-- A carriage return may only stand before a line feed. -/
def scanLine (m : Mode) (line : Text) : Option Mode :=
  if '\r' ∈ line then none
  else match m.quote with
    | none => scan .plain m.depth line
    | some q => scan (.multiline q) m.depth line

def scanLines (m : Mode) (ls : List Text) : Option Mode := ls.foldlM scanLine m

def isBlank (line : Text) : Bool := (trim line).isEmpty

/-- Blanks and tabs. -/
def isIndent (c : Char) : Bool := decide (c = ' ' ∨ c = '\t')

/-- The text ends its last line and its last statement. -/
def Closed (text : Text) : Prop :=
  (text = [] ∨ text.getLast? = some '\n') ∧ scanLines .top (lines text) = some .top

inductive Expr
  /-- Nothing but blanks or a comment. -/
  | blank
  | keyval (key : List Text) (value : Value)
  | table (path : List Text)
  | arrayTable (path : List Text)

namespace Expr

def isHeader : Expr → Bool
  | .table _ | .arrayTable _ => true
  | _ => false

/-- The statement, unless it says nothing. -/
def said : Expr → List Expr
  | .blank => []
  | e => [e]

end Expr

/-- A TOML parser: what the lines of one statement say, and the table that the statements below
one header make up. -/
structure Reader where
  parse : List Text → Option Expr
  build : List Expr → Option Table

namespace Reader

variable (r : Reader)

/-- The statements of the lines behind `acc`, which belong to the first one. A strict reader
refuses a blank line behind another one in a string. -/
def readFrom (strict : Bool) : Mode → Bool → List Text → List Text → Option (List Expr)
  | _, _, acc, [] => if acc.isEmpty then some [] else none
  | m, afterBlank, acc, line :: ls =>
    if strict && afterBlank && isBlank line && m.quote.isSome then none
    else (scanLine m line).bind fun m' =>
      if m' = .top then (r.parse (acc ++ [line])).bind fun e =>
        (readFrom strict .top (isBlank line) [] ls).map (e.said ++ ·)
      else readFrom strict m' (isBlank line) (acc ++ [line]) ls

def readLines (strict : Bool) (ls : List Text) : Option (List Expr) :=
  r.readFrom strict .top false [] ls

/-- The statements of a text. -/
def read (text : Text) : Option (List Expr) := r.readLines false (lines text)

/-- What the TOML specification says about the layout of statements. -/
structure Lawful : Prop where
  /-- Blanks before a statement mean nothing. -/
  indent : ∀ ws line ls, ws.all isIndent → r.parse ((ws ++ line) :: ls) = r.parse (line :: ls)
  empty : r.parse [[]] = some .blank
  blank : ∀ line e, isBlank line → r.parse [line] = some e → e = .blank
  /-- An array may be broken by empty lines. -/
  gap : ∀ a m line b e, scanLines .top a = some m → m ≠ .top → m.quote = none → isBlank line →
    b ≠ [] → r.parse (a ++ line :: b) = some e → r.parse (a ++ b) = some e
  /-- Headers, and only they, start with a bracket. -/
  header : ∀ line ls e, r.parse (line :: ls) = some e →
    (e.isHeader = true ↔ (trim line).head? = some '[')
  arrayHeader : ∀ key line ls e, key.all Char.isAlphanum →
    ("[[".toList ++ key ++ "]]".toList).isPrefixOf (trim line) → r.parse (line :: ls) = some e →
    e = .arrayTable [key]
  subtable : ∀ key line ls e, key.all Char.isAlphanum →
    ("[".toList ++ key ++ ".".toList).isPrefixOf (trim line) → r.parse (line :: ls) = some e →
    ∃ path, e = .table (key :: path)

end Reader

/-! ## Reading in pieces -/

section
variable {r : Reader} {strict : Bool}

theorem scanLines_append {m : Mode} (a b : List Text) :
    scanLines m (a ++ b) = (scanLines m a).bind fun m' => scanLines m' b := by
  rw [scanLines, List.foldlM_append]
  rfl

/-- Between two statements it does not matter whether the line before was blank. -/
theorem readFrom_flag {m : Mode} (h : m.quote = none) (b b' : Bool) (acc ls : List Text) :
    r.readFrom strict m b acc ls = r.readFrom strict m b' acc ls := by
  cases ls with
  | nil => rfl
  | cons line ls => simp only [Reader.readFrom, h, Option.isSome_none, Bool.and_false]

/-- A text that ends between two statements is read apart from what follows. -/
theorem readFrom_append {m : Mode} {b : Bool} {acc ls rest : List Text}
    (hm : m = .top → acc = []) (h : scanLines m ls = some .top) :
    r.readFrom strict m b acc (ls ++ rest) = (r.readFrom strict m b acc ls).bind fun es =>
      (r.readLines strict rest).map (es ++ ·) := by
  induction ls generalizing m b acc with
  | nil =>
    obtain rfl : m = .top := by simpa [scanLines] using h
    rw [hm rfl]
    simp only [List.nil_append, Reader.readFrom, List.isEmpty_nil, ↓reduceIte, Option.bind_some]
    rw [Option.map_id', Reader.readLines, readFrom_flag rfl]
  | cons line ls ih =>
    rw [List.cons_append, Reader.readFrom, Reader.readFrom]
    split
    · rfl
    rw [scanLines, List.foldlM_cons] at h
    cases hline : scanLine m line with
    | none => rfl
    | some m' =>
      rw [hline] at h
      simp only [Option.bind_some]
      split
      · rename_i htop
        subst htop
        cases r.parse (acc ++ [line]) with
        | none => rfl
        | some e =>
          simp only [Option.bind_some]
          rw [ih (fun _ => rfl) h]
          cases r.readFrom strict .top (isBlank line) [] ls with
          | none => rfl
          | some es =>
            simp only [Option.bind_some, Option.map_some, Option.map_map]
            congr 1
            funext x
            simp
      · rename_i htop
        exact ih (fun heq => absurd heq htop) h

/-- Statements come from lines. -/
theorem mem_readFrom {m : Mode} {b : Bool} {acc ls : List Text} {es : List Expr} {e : Expr}
    (h : r.readFrom strict m b acc ls = some es) (he : e ∈ es) :
    ∃ line ls', (line ∈ acc ∨ line ∈ ls) ∧ r.parse (line :: ls') = some e := by
  induction ls generalizing m b acc es with
  | nil =>
    rw [Reader.readFrom] at h
    split at h
    · cases h
      cases he
    · cases h
  | cons line ls ih =>
    rw [Reader.readFrom] at h
    split at h
    · cases h
    obtain ⟨m', -, h⟩ := Option.bind_eq_some_iff.mp h
    split at h
    · obtain ⟨e', hparse, h⟩ := Option.bind_eq_some_iff.mp h
      obtain ⟨es', hrest, rfl⟩ := Option.map_eq_some_iff.mp h
      rcases List.mem_append.mp he with he | he
      · have heq : e = e' := by
          cases e' <;> simp_all [Expr.said]
        subst heq
        cases acc with
        | nil => exact ⟨line, [], Or.inr List.mem_cons_self, hparse⟩
        | cons l acc => exact ⟨l, acc ++ [line], Or.inl List.mem_cons_self, hparse⟩
      · obtain ⟨l, ls', hl, hp⟩ := ih hrest he
        refine ⟨l, ls', Or.inr (List.mem_cons_of_mem _ ?_), hp⟩
        simpa using hl
    · obtain ⟨l, ls', hl, hp⟩ := ih h he
      refine ⟨l, ls', ?_, hp⟩
      rcases hl with hl | hl
      · rcases List.mem_append.mp hl with hl | hl
        · exact Or.inl hl
        · exact Or.inr (List.mem_cons.mpr (Or.inl (List.mem_singleton.mp hl)))
      · exact Or.inr (List.mem_cons_of_mem _ hl)

/-- The first statement starts with the first line, the others with later ones. -/
theorem head_readFrom {m : Mode} {b : Bool} {line : Text} {acc ls : List Text} {es : List Expr}
    (h : r.readFrom strict m b (line :: acc) ls = some es) :
    ∃ e es' ls', es = e.said ++ es' ∧ r.parse (line :: ls') = some e ∧
      ∀ x ∈ es', ∃ l ∈ ls, ∃ ls'', r.parse (l :: ls'') = some x := by
  induction ls generalizing m b acc with
  | nil => cases h
  | cons next ls ih =>
    rw [Reader.readFrom] at h
    split at h
    · cases h
    obtain ⟨m', -, h⟩ := Option.bind_eq_some_iff.mp h
    split at h
    · obtain ⟨e, hparse, h⟩ := Option.bind_eq_some_iff.mp h
      obtain ⟨es', hrest, rfl⟩ := Option.map_eq_some_iff.mp h
      refine ⟨e, es', acc ++ [next], rfl, hparse, fun x hx => ?_⟩
      obtain ⟨l, ls', hl, hp⟩ := mem_readFrom hrest hx
      exact ⟨l, List.mem_cons_of_mem _ (by simpa using hl), ls', hp⟩
    · obtain ⟨e, es', ls', heq, hparse, hlater⟩ := ih h
      refine ⟨e, es', ls', heq, hparse, fun x hx => ?_⟩
      obtain ⟨l, hl, hp⟩ := hlater x hx
      exact ⟨l, List.mem_cons_of_mem _ hl, hp⟩

theorem head_readLines {line : Text} {ls : List Text} {es : List Expr}
    (h : r.readLines strict (line :: ls) = some es) :
    ∃ e es' ls', es = e.said ++ es' ∧ r.parse (line :: ls') = some e ∧
      ∀ x ∈ es', ∃ l ∈ ls, ∃ ls'', r.parse (l :: ls'') = some x := by
  rw [Reader.readLines, Reader.readFrom] at h
  split at h
  · cases h
  obtain ⟨m', -, h⟩ := Option.bind_eq_some_iff.mp h
  split at h
  · obtain ⟨e, hparse, h⟩ := Option.bind_eq_some_iff.mp h
    obtain ⟨es', hrest, rfl⟩ := Option.map_eq_some_iff.mp h
    refine ⟨e, es', [], rfl, hparse, fun x hx => ?_⟩
    obtain ⟨l, ls', hl, hp⟩ := mem_readFrom hrest hx
    exact ⟨l, by simpa using hl, ls', hp⟩
  · exact head_readFrom h

/-- What a strict reader reads, any reader reads. -/
theorem readFrom_of_strict {m : Mode} {b b' : Bool} {acc ls : List Text} {es : List Expr}
    (h : r.readFrom true m b acc ls = some es) : r.readFrom false m b' acc ls = some es := by
  induction ls generalizing m b b' acc es with
  | nil => exact h
  | cons line ls ih =>
    rw [Reader.readFrom] at h ⊢
    split at h
    · cases h
    rw [if_neg (by simp)]
    obtain ⟨m', hline, h⟩ := Option.bind_eq_some_iff.mp h
    rw [hline, Option.bind_some]
    split at h
    · rename_i htop
      obtain ⟨e, hparse, h⟩ := Option.bind_eq_some_iff.mp h
      obtain ⟨es', hrest, rfl⟩ := Option.map_eq_some_iff.mp h
      rw [if_pos htop, hparse, Option.bind_some, ih hrest]
      rfl
    · rename_i htop
      rw [if_neg htop]
      exact ih h

theorem return_not_mem {m : Mode} {b : Bool} {acc ls : List Text} {es : List Expr}
    (h : r.readFrom strict m b acc ls = some es) : ∀ line ∈ ls, '\r' ∉ line := by
  induction ls generalizing m b acc es with
  | nil => simp
  | cons line ls ih =>
    rw [Reader.readFrom] at h
    split at h
    · cases h
    obtain ⟨m', hline, h⟩ := Option.bind_eq_some_iff.mp h
    refine List.forall_mem_cons.mpr ⟨fun hmem => ?_, ?_⟩
    · rw [scanLine, if_pos hmem] at hline
      cases hline
    · split at h
      · obtain ⟨e, -, h⟩ := Option.bind_eq_some_iff.mp h
        obtain ⟨es', hrest, -⟩ := Option.map_eq_some_iff.mp h
        exact ih hrest
      · exact ih h

/-- Lines that begin a statement can be replaced by others that say the same with any ending. -/
theorem readFrom_congr {m : Mode} {b : Bool} {acc acc' ls : List Text} {es : List Expr}
    (hne : acc ≠ []) (hne' : acc' ≠ [])
    (hsame : ∀ c e, c ≠ [] → r.parse (acc ++ c) = some e → r.parse (acc' ++ c) = some e)
    (h : r.readFrom strict m b acc ls = some es) : r.readFrom strict m b acc' ls = some es := by
  induction ls generalizing m b acc acc' es with
  | nil =>
    rw [Reader.readFrom, if_neg (by simpa using hne)] at h
    cases h
  | cons line ls ih =>
    rw [Reader.readFrom] at h ⊢
    split at h
    · cases h
    rename_i hstrict
    rw [if_neg hstrict]
    obtain ⟨m', hline, h⟩ := Option.bind_eq_some_iff.mp h
    rw [hline, Option.bind_some]
    split at h
    · rename_i htop
      rw [if_pos htop]
      obtain ⟨e, hparse, h⟩ := Option.bind_eq_some_iff.mp h
      rw [hsame [line] e (by simp) hparse]
      exact h
    · rename_i htop
      rw [if_neg htop]
      refine ih (by simp) (by simp) (fun c e _ hc => ?_) h
      rw [List.append_assoc] at hc ⊢
      exact hsame _ e (by simp) hc

end

/-! ## Blanks -/

theorem isBlank_iff {line : Text} : isBlank line = true ↔ ∀ c ∈ line, isWhitespace c = true := by
  rw [isBlank, List.isEmpty_iff, trim, trimEnd, trimStart, List.rdropWhile_eq_nil_iff]
  constructor
  · intro h
    have hnil : line.dropWhile isWhitespace = [] := by
      cases hdrop : line.dropWhile isWhitespace with
      | nil => rfl
      | cons c cs =>
        have hhead := List.head?_dropWhile_not isWhitespace line
        rw [hdrop] at hhead h
        simp only [List.head?_cons] at hhead
        rw [h c List.mem_cons_self] at hhead
        cases hhead
    rwa [List.dropWhile_eq_nil_iff] at hnil
  · intro h
    rw [List.dropWhile_eq_nil_iff.mpr h]
    simp

theorem isWhitespace_of_isIndent {c : Char} (h : isIndent c = true) : isWhitespace c = true := by
  simp only [isIndent, decide_eq_true_eq] at h
  rcases h with rfl | rfl <;> decide

theorem isBlank_indent {ws line : Text} (h : ws.all isIndent) :
    isBlank (ws ++ line) = isBlank line := by
  rw [Bool.eq_iff_iff, isBlank_iff, isBlank_iff, List.forall_mem_append]
  refine ⟨fun hall => hall.2, fun hall => ⟨fun c hc => ?_, hall⟩⟩
  exact isWhitespace_of_isIndent (List.all_eq_true.mp h c hc)

/-- A blank is none of the characters that the scan looks for. -/
theorem scan_space {c : Char} (h : isWhitespace c = true) (d : ℕ) (cs : Text) :
    scan .plain d (c :: cs) = scan .plain d cs := by
  rw [← Char.ofNat_toNat c]
  simp only [isWhitespace, decide_eq_true_eq] at h
  generalize c.toNat = n at h
  have hn : n ∈ [0x09, 0x0a, 0x0b, 0x0c, 0x0d, 0x20, 0x85, 0xa0, 0x1680, 0x2000, 0x2001, 0x2002,
      0x2003, 0x2004, 0x2005, 0x2006, 0x2007, 0x2008, 0x2009, 0x200a, 0x2028, 0x2029, 0x202f,
      0x205f, 0x3000] := by
    simp only [List.mem_cons, List.not_mem_nil, or_false]
    omega
  fin_cases hn <;> rfl

theorem scan_blanks {ws : Text} (h : ∀ c ∈ ws, isWhitespace c = true) (d : ℕ) (cs : Text) :
    scan .plain d (ws ++ cs) = scan .plain d cs := by
  induction ws with
  | nil => rfl
  | cons c ws ih =>
    rw [List.forall_mem_cons] at h
    rw [List.cons_append, scan_space h.1, ih h.2]

theorem scanLine_indent {m : Mode} {ws line : Text} (hm : m.quote = none)
    (h : ws.all isIndent) : scanLine m (ws ++ line) = scanLine m line := by
  have hws : ∀ c ∈ ws, isIndent c = true := List.all_eq_true.mp h
  have hcr : '\r' ∉ ws := fun hmem => absurd (hws _ hmem) (by decide)
  have hblanks := scan_blanks (fun c hc => isWhitespace_of_isIndent (hws c hc)) m.depth line
  simp only [scanLine, hm, List.mem_append, or_iff_right hcr, hblanks]

/-- A blank line changes nothing outside of strings. -/
theorem scanLine_blank {m m' : Mode} {line : Text} (hm : m.quote = none) (h : isBlank line)
    (hline : scanLine m line = some m') : m' = m := by
  unfold scanLine at hline
  split at hline
  · cases hline
  · rw [hm] at hline
    have hscan := scan_blanks (isBlank_iff.mp h) m.depth []
    rw [List.append_nil] at hscan
    have hend : scan .plain m.depth [] = some ⟨m.depth, none⟩ := rfl
    simp only [hscan, hend, Option.some.injEq] at hline
    rw [← hline, ← hm]

section
variable {r : Reader} {strict : Bool}

theorem readLines_indent (hr : r.Lawful) {ws line : Text} {ls : List Text}
    (hws : ws.all isIndent) :
    r.readLines strict ((ws ++ line) :: ls) = r.readLines strict (line :: ls) := by
  have hcongr (m : Mode) (b : Bool) : r.readFrom strict m b [ws ++ line] ls =
      r.readFrom strict m b [line] ls := by
    refine Option.ext fun es => ⟨fun h => ?_, fun h => ?_⟩
    · refine readFrom_congr (by simp) (by simp) (fun c e _ hc => ?_) h
      exact (hr.indent ws line c hws).symm.trans hc
    · refine readFrom_congr (by simp) (by simp) (fun c e _ hc => ?_) h
      exact (hr.indent ws line c hws).trans hc
  rw [Reader.readLines, Reader.readLines, Reader.readFrom, Reader.readFrom,
    scanLine_indent rfl hws, isBlank_indent hws]
  simp only [List.nil_append, hr.indent ws line [] hws, hcongr]

/-- Blank lines between statements. -/
theorem readLines_blank (hr : r.Lawful) {ls rest : List Text}
    (h : ∀ line ∈ ls, line.all isIndent) :
    r.readLines strict (ls ++ rest) = r.readLines strict rest := by
  induction ls with
  | nil => rfl
  | cons line ls ih =>
    rw [List.forall_mem_cons] at h
    have hscan : scanLine .top [] = some .top := rfl
    have hempty : r.parse ([] ++ [[]]) = some .blank := hr.empty
    have hnil : r.readLines strict [[]] = some [] := by
      rw [Reader.readLines, Reader.readFrom, hscan, Option.bind_some, if_pos rfl, hempty]
      cases strict <;> rfl
    have hline : r.readLines strict (line :: (ls ++ rest)) =
        r.readLines strict ([[]] ++ (ls ++ rest)) := by
      rw [← List.append_nil line]
      exact readLines_indent hr h.1
    have happend : r.readLines strict ([[]] ++ (ls ++ rest)) =
        (r.readLines strict [[]]).bind fun es =>
          (r.readLines strict (ls ++ rest)).map (es ++ ·) :=
      readFrom_append (fun _ => rfl) rfl
    rw [List.cons_append, hline, happend, hnil, Option.bind_some, ih h.2]
    exact Option.map_id'

theorem lines_of_indent {ws line : Text} (hws : ws.all isIndent) (h : line ∈ lines ws) :
    line.all isIndent := by
  rw [List.all_eq_true] at hws ⊢
  exact fun c hc => hws c ((infix_of_mem_lines h).sublist.subset hc)

/-- A closed text is read apart from what follows, indented or not. -/
theorem readLines_join (hr : r.Lawful) {text ws next : Text} (htext : Closed text)
    (hws : ws.all isIndent) :
    r.readLines strict (lines (text ++ (ws ++ next))) =
      (r.readLines strict (lines text)).bind fun es =>
        (r.readLines strict (lines next)).map (es ++ ·) := by
  have hnext : r.readLines strict (lines (ws ++ next)) = r.readLines strict (lines next) := by
    rcases eq_or_ne next [] with rfl | hne
    · rw [List.append_nil, ← List.append_nil (lines ws)]
      exact readLines_blank hr fun line hline => lines_of_indent hws hline
    · have hnot {c : Char} (hc : isIndent c = false) : c ∉ ws := fun hmem => by
        rw [List.all_eq_true.mp hws c hmem] at hc
        cases hc
      obtain ⟨line, ls, hlines, hindent⟩ :=
        lines_indent (hnot (c := '\n') (by decide)) (hnot (c := '\r') (by decide)) hne
      rw [hindent, hlines, readLines_indent hr hws]
  rw [lines_append htext.1, Reader.readLines, readFrom_append (fun _ => rfl) htext.2, hnext]
  rfl

end

/-- What follows a closed text closes the whole, or does not. -/
theorem closed_append {a b : Text} (ha : Closed a) : Closed (a ++ b) ↔ Closed b := by
  have hscan : scanLines .top (lines (a ++ b)) = scanLines .top (lines b) := by
    rw [lines_append ha.1, scanLines_append, ha.2, Option.bind_some]
  rw [Closed, Closed, hscan]
  refine and_congr_left fun _ => ?_
  rcases eq_or_ne b [] with rfl | hb
  · simpa using ha.1
  · rw [List.getLast?_append_of_ne_nil _ hb]
    simp [hb]

end Synora.Toml
