import Mathlib.Algebra.Group.Nat.Defs
import Mathlib.Algebra.GroupWithZero.Nat
import Mathlib.Data.Char
import Mathlib.Data.List.DropRight
import Mathlib.Data.List.Lex
import Mathlib.Tactic.Common

namespace Synora.Strings

/-- A string as its characters. -/
abbrev Text := List Char

-- What is said of the characters of a text is decided along the text, not over all characters.
instance (priority := 2000) decidableForallMem {α : Type*} (p : α → Prop) [DecidablePred p]
    (l : List α) : Decidable (∀ a ∈ l, p a) := List.decidableBAll p l

instance (priority := 2000) decidableExistsMem {α : Type*} (p : α → Prop) [DecidablePred p]
    (l : List α) : Decidable (∃ a ∈ l, p a) := List.decidableBEx p l

instance lawfulBEqText : LawfulBEq Text := List.instLawfulBEq

/-! ## Searching and replacing -/

/-- `str::split_once`: what stands before and after the first occurrence. -/
def splitOnce (pat : Text) : Text → Option (Text × Text)
  | [] => if pat.isPrefixOf [] then some ([], []) else none
  | c :: cs =>
    if pat.isPrefixOf (c :: cs) then some ([], (c :: cs).drop pat.length)
    else (splitOnce pat cs).map fun p => (c :: p.1, p.2)

theorem splitOnce_eq_append {pat t before rest : Text} (h : splitOnce pat t = some (before, rest)) :
    t = before ++ (pat ++ rest) := by
  induction t generalizing before with
  | nil =>
    simp only [splitOnce, Option.ite_none_right_eq_some, Option.some.injEq, Prod.mk.injEq,
      List.isPrefixOf_iff_prefix, List.prefix_nil] at h
    obtain ⟨rfl, rfl, rfl⟩ := h
    rfl
  | cons c cs ih =>
    simp only [splitOnce] at h
    split at h
    · rename_i hp
      simp only [Option.some.injEq, Prod.mk.injEq] at h
      obtain ⟨rfl, rfl⟩ := h
      exact (List.prefix_iff_eq_append.mp (List.isPrefixOf_iff_prefix.mp hp)).symm
    · obtain ⟨p, hp, heq⟩ := Option.map_eq_some_iff.mp h
      simp only [Prod.mk.injEq] at heq
      obtain ⟨rfl, rfl⟩ := heq
      rw [ih hp]
      rfl

theorem splitOnce_length {pat t before rest : Text} (h : splitOnce pat t = some (before, rest)) :
    before.length + pat.length + rest.length = t.length := by
  rw [splitOnce_eq_append h, List.length_append, List.length_append, Nat.add_assoc]

theorem splitOnce_singleton {c : Char} {t : Text} (h : c ∉ t) (rest : Text) :
    splitOnce [c] (t ++ c :: rest) = some (t, rest) := by
  induction t with
  | nil => simp [splitOnce]
  | cons d t ih =>
    simp only [List.mem_cons, not_or] at h
    simp [splitOnce, h.1, ih h.2]

theorem splitOnce_hit (pat u : Text) : splitOnce pat (pat ++ u) = some ([], u) := by
  have hpre : pat.isPrefixOf (pat ++ u) = true :=
    List.isPrefixOf_iff_prefix.mpr (List.prefix_append pat u)
  cases htext : pat ++ u with
  | nil =>
    obtain ⟨rfl, rfl⟩ := List.append_eq_nil_iff.mp htext
    rfl
  | cons c t => rw [splitOnce, ← htext, if_pos hpre, List.drop_left]

/-- The pattern is searched for behind a text that lacks its first character. -/
theorem splitOnce_append {c : Char} {pat t : Text} (h : c ∉ t) (u : Text) :
    splitOnce (c :: pat) (t ++ u) =
      (splitOnce (c :: pat) u).map fun p => (t ++ p.1, p.2) := by
  induction t with
  | nil => exact Option.map_id'.symm
  | cons d t ih =>
    rw [List.mem_cons, not_or] at h
    rw [List.cons_append, splitOnce, if_neg (by simp [h.1]), ih h.2, Option.map_map]
    rfl

/-- The first occurrence stays the first, whatever follows it. -/
theorem splitOnce_splice {pat t before rest : Text} (h : splitOnce pat t = some (before, rest))
    (rest' : Text) : splitOnce pat (before ++ (pat ++ rest')) = some (before, rest') := by
  induction t generalizing before with
  | nil =>
    obtain ⟨hb, hp⟩ : before = [] ∧ pat = [] := by
      have hlen := splitOnce_length h
      rw [List.length_nil] at hlen
      exact ⟨List.length_eq_zero_iff.mp (by omega), List.length_eq_zero_iff.mp (by omega)⟩
    rw [hb]
    exact splitOnce_hit pat rest'
  | cons c cs ih =>
    rw [splitOnce] at h
    split at h
    · cases h
      exact splitOnce_hit pat rest'
    · rename_i hmiss
      obtain ⟨p, hp, heq⟩ := Option.map_eq_some_iff.mp h
      cases heq
      rw [List.cons_append, splitOnce, if_neg, ih hp, Option.map_some]
      intro hpre
      apply hmiss
      rw [List.isPrefixOf_iff_prefix] at hpre ⊢
      have hshort : pat <+: c :: (p.1 ++ pat) := by
        refine List.prefix_of_prefix_length_le hpre ⟨rest', by simp⟩ ?_
        rw [List.length_cons, List.length_append]
        omega
      rw [splitOnce_eq_append hp, ← List.append_assoc, ← List.cons_append]
      exact hshort.trans (List.prefix_append _ _)

/-- `str::rsplit_once` at a character. -/
def rsplitOnce (c : Char) (t : Text) : Option (Text × Text) :=
  (splitOnce [c] t.reverse).map fun p => (p.2.reverse, p.1.reverse)

theorem rsplitOnce_append {c : Char} {u : Text} (h : c ∉ u) (t : Text) :
    rsplitOnce c (t ++ c :: u) = some (t, u) := by
  have hrev : (t ++ c :: u).reverse = u.reverse ++ c :: t.reverse := by simp
  rw [rsplitOnce, hrev, splitOnce_singleton (by simpa using h), Option.map_some,
    List.reverse_reverse, List.reverse_reverse]

/-- `str::split_once` at the first character of a set. -/
def splitOnceAny (p : Char → Bool) : Text → Option (Text × Text)
  | [] => none
  | c :: cs => if p c then some ([], cs) else (splitOnceAny p cs).map fun q => (c :: q.1, q.2)

/-- `str::replace`; `skip` counts the characters of a match that are still to be passed over. -/
def replaceFrom (pat new : Text) : ℕ → Text → Text
  | _, [] => []
  | skip + 1, _ :: cs => replaceFrom pat new skip cs
  | 0, c :: cs =>
    if pat.isPrefixOf (c :: cs) then new ++ replaceFrom pat new (pat.length - 1) cs
    else c :: replaceFrom pat new 0 cs

def replace (pat new t : Text) : Text := replaceFrom pat new 0 t

def contains (t pat : Text) : Bool := (splitOnce pat t).isSome

theorem contains_iff {t pat : Text} : contains t pat = true ↔ pat <:+: t := by
  rw [contains]
  induction t with
  | nil => simp [splitOnce, List.isPrefixOf_iff_prefix]
  | cons c cs ih =>
    rw [splitOnce, List.infix_cons_iff, ← ih]
    split
    · rename_i hp
      simp [List.isPrefixOf_iff_prefix.mp hp]
    · rename_i hp
      rw [List.isPrefixOf_iff_prefix] at hp
      simp [hp]

/-- What stands before the first occurrence holds none. -/
theorem not_infix_of_splitOnce {pat t before rest : Text} (hne : pat ≠ [])
    (h : splitOnce pat t = some (before, rest)) : ¬pat <:+: before := by
  induction t generalizing before with
  | nil =>
    rw [splitOnce] at h
    split at h
    · cases h
      simpa using hne
    · cases h
  | cons c cs ih =>
    rw [splitOnce] at h
    split at h
    · cases h
      simpa using hne
    · rename_i hp
      obtain ⟨p, hsplit, heq⟩ := Option.map_eq_some_iff.mp h
      cases heq
      rw [List.infix_cons_iff, not_or]
      refine ⟨fun hpre => hp (List.isPrefixOf_iff_prefix.mpr ?_), ih hsplit⟩
      rw [splitOnce_eq_append hsplit, ← List.cons_append]
      exact hpre.trans (List.prefix_append _ _)

/-- Characters that do not end the pattern add no occurrence. -/
theorem contains_append {t ws pat : Text} {c : Char} (hc : c ∉ ws) :
    contains (t ++ ws) (pat ++ [c]) = contains t (pat ++ [c]) := by
  rw [Bool.eq_iff_iff, contains_iff, contains_iff]
  induction ws using List.reverseRecOn with
  | nil => rw [List.append_nil]
  | append_singleton ws d ih =>
    rw [List.mem_append, not_or, List.mem_singleton] at hc
    rw [← List.append_assoc, List.infix_concat_iff, ih hc.1, or_iff_right]
    intro hsuf
    have hlast := List.IsSuffix.getLast hsuf (by simp)
    simp only [List.getLast_append_singleton] at hlast
    exact hc.2 hlast

def stripPrefix (pat t : Text) : Option Text :=
  if pat.isPrefixOf t then some (t.drop pat.length) else none

theorem stripPrefix_append (pat t : Text) : stripPrefix pat (pat ++ t) = some t := by
  rw [stripPrefix, if_pos (List.isPrefixOf_iff_prefix.mpr (List.prefix_append pat t)),
    List.drop_left]

theorem stripPrefix_eq_some_iff {pat t rest : Text} :
    stripPrefix pat t = some rest ↔ t = pat ++ rest := by
  constructor
  · intro h
    unfold stripPrefix at h
    split at h
    · rename_i hpre
      obtain ⟨u, rfl⟩ := List.isPrefixOf_iff_prefix.mp hpre
      rw [List.drop_left] at h
      rw [Option.some.inj h]
    · cases h
  · rintro rfl
    exact stripPrefix_append pat rest

/-! ## Trimming -/

/-- `char::is_whitespace`: the Unicode property `White_Space`. -/
def isWhitespace (c : Char) : Bool :=
  let n := c.toNat
  decide ((0x09 ≤ n ∧ n ≤ 0x0d) ∨ n = 0x20 ∨ n = 0x85 ∨ n = 0xa0 ∨ n = 0x1680 ∨
    (0x2000 ≤ n ∧ n ≤ 0x200a) ∨ n = 0x2028 ∨ n = 0x2029 ∨ n = 0x202f ∨ n = 0x205f ∨ n = 0x3000)

def trimStart (p : Char → Bool) (t : Text) : Text := t.dropWhile p

def trimEnd (p : Char → Bool) (t : Text) : Text := t.rdropWhile p

def trim (t : Text) : Text := trimEnd isWhitespace (trimStart isWhitespace t)

theorem infix_trim (t : Text) : trim t <:+: t :=
  (List.rdropWhile_prefix _ _).isInfix.trans (List.dropWhile_suffix _).isInfix

/-- What stands before a character that is not trimmed stays. -/
theorem prefix_trimEnd {p : Char → Bool} {d : Char} (hd : p d = false) (t u : Text) :
    t ++ [d] <+: trimEnd p (t ++ [d] ++ u) := by
  rw [trimEnd]
  induction u using List.reverseRecOn with
  | nil =>
    have hkept : List.rdropWhile p (t ++ [d]) = t ++ [d] :=
      List.rdropWhile_concat_neg _ _ _ (by simp [hd])
    exact ⟨[], by rw [List.append_nil, hkept]⟩
  | append_singleton u x ih =>
    rw [← List.append_assoc, List.rdropWhile_concat]
    split
    · exact ih
    · rw [List.append_assoc (t ++ [d])]
      exact List.prefix_append _ _

theorem prefix_trim {c d : Char} (hc : isWhitespace c = false) (hd : isWhitespace d = false)
    (t u : Text) : c :: t ++ [d] <+: trim (c :: t ++ [d] ++ u) := by
  rw [trim, trimStart, List.cons_append, List.cons_append,
    List.dropWhile_cons_of_neg (by simp [hc])]
  exact prefix_trimEnd hd (c :: t) u

def Blank (t : Text) : Prop := ∀ c ∈ t, isWhitespace c = true

theorem trimStart_eq_nil {t : Text} : trimStart isWhitespace t = [] ↔ Blank t :=
  List.dropWhile_eq_nil_iff

theorem trimStart_append {u : Text} (hu : ¬Blank u) (v : Text) :
    trimStart isWhitespace (u ++ v) = trimStart isWhitespace u ++ v := by
  unfold trimStart
  rw [List.dropWhile_append, if_neg]
  exact fun hnil => hu (trimStart_eq_nil.mp (List.isEmpty_iff.mp hnil))

theorem trimStart_of_blank {u : Text} (hu : Blank u) (v : Text) :
    trimStart isWhitespace (u ++ v) = trimStart isWhitespace v :=
  List.dropWhile_append_of_pos hu

theorem trimEnd_of_blank {v : Text} (hv : Blank v) (u : Text) :
    trimEnd isWhitespace (u ++ v) = trimEnd isWhitespace u := by
  unfold trimEnd List.rdropWhile
  rw [List.reverse_append, List.dropWhile_append_of_pos fun c hc => hv c (List.mem_reverse.mp hc)]

theorem trimEnd_append {v : Text} (hv : ¬Blank v) (u : Text) :
    trimEnd isWhitespace (u ++ v) = u ++ trimEnd isWhitespace v := by
  unfold trimEnd List.rdropWhile
  rw [List.reverse_append, List.dropWhile_append, if_neg, List.reverse_append,
    List.reverse_reverse]
  intro hnil
  refine hv fun c hc => ?_
  exact List.dropWhile_eq_nil_iff.mp (List.isEmpty_iff.mp hnil) c (List.mem_reverse.mpr hc)

/-- Blanks at the end are trimmed. -/
theorem trim_of_blank {v : Text} (hv : Blank v) (u : Text) : trim (u ++ v) = trim u := by
  unfold trim
  by_cases hu : Blank u
  · rw [trimStart_of_blank hu, trimStart_eq_nil.mpr hv, trimStart_eq_nil.mpr hu]
  · rw [trimStart_append hu, trimEnd_of_blank hv]

/-- A text is what remains of it and the blanks behind. -/
theorem exists_blank (t : Text) : ∃ ws, Blank ws ∧ t = trimEnd isWhitespace t ++ ws :=
  ⟨t.rtakeWhile isWhitespace, fun _ hc => List.mem_rtakeWhile_imp hc,
    List.rdropWhile_append_rtakeWhile.symm⟩

/-- The last character of a kind, when there is one. -/
theorem exists_last (p : Char → Bool) (t : Text) : (∀ c ∈ t, p c = false) ∨
    ∃ before c after, t = before ++ c :: after ∧ p c = true ∧ ∀ d ∈ after, p d = false := by
  induction t with
  | nil => exact Or.inl (by simp)
  | cons c t ih =>
    rcases ih with hnone | ⟨before, d, after, rfl, hd, hafter⟩
    · cases hc : p c with
      | false => exact Or.inl (List.forall_mem_cons.mpr ⟨hc, hnone⟩)
      | true => exact Or.inr ⟨[], c, t, rfl, hc, hnone⟩
    · exact Or.inr ⟨c :: before, d, after, rfl, hd, hafter⟩

/-- `str::split_whitespace` -/
def splitWhitespace (t : Text) : List Text :=
  (t.splitOnP isWhitespace).filter fun tok => !tok.isEmpty

theorem mem_splitOnP {p : Char → Bool} {t tok : Text} (h : tok ∈ t.splitOnP p) :
    ∀ c ∈ tok, p c = false := by
  induction t generalizing tok with
  | nil =>
    rw [List.splitOnP_nil, List.mem_singleton] at h
    exact fun c hc => absurd (h ▸ hc) List.not_mem_nil
  | cons d t ih =>
    rw [List.splitOnP_cons_eq_if_modifyHead] at h
    split_ifs at h with hd
    · rcases List.mem_cons.mp h with rfl | h
      · exact fun c hc => absurd hc List.not_mem_nil
      · exact ih h
    · obtain ⟨first, rest, hsplit⟩ := List.exists_cons_of_ne_nil (List.splitOnP_ne_nil p t)
      rw [hsplit] at h ih
      rcases List.mem_cons.mp h with rfl | h
      · exact List.forall_mem_cons.mpr ⟨by simpa using hd, ih List.mem_cons_self⟩
      · exact ih (List.mem_cons_of_mem _ h)

theorem splitWhitespace_append {tok : Text} (hne : tok ≠ []) (h : ∀ c ∈ tok, isWhitespace c = false)
    (t : Text) : splitWhitespace (tok ++ ' ' :: t) = tok :: splitWhitespace t := by
  rw [splitWhitespace, List.splitOnP_append_cons_of_forall_mem h ' ' (by decide),
    List.filter_cons_of_pos (by simpa using hne), splitWhitespace]

theorem splitWhitespace_split {c : Char} (hc : isWhitespace c = true) (u v : Text) :
    splitWhitespace (u ++ c :: v) = splitWhitespace u ++ splitWhitespace v := by
  unfold splitWhitespace
  rw [List.splitOnP_append_cons u v hc, List.filter_append]

theorem splitWhitespace_of_blank {ws : Text} (h : Blank ws) (t : Text) :
    splitWhitespace (t ++ ws) = splitWhitespace t := by
  induction ws generalizing t with
  | nil => rw [List.append_nil]
  | cons c ws ih =>
    obtain ⟨hc, hws⟩ := List.forall_mem_cons.mp h
    have hnil := ih hws []
    rw [List.nil_append] at hnil
    rw [splitWhitespace_split hc, hnil]
    exact List.append_nil _

/-- Words that are joined with blanks are found again. -/
theorem splitWhitespace_intercalate {t : Text} {toks : List Text}
    (h : ∀ tok ∈ toks, tok ∈ splitWhitespace t) :
    splitWhitespace ([' '].intercalate toks) = toks := by
  have hword : ∀ tok ∈ toks, tok ≠ [] ∧ ∀ c ∈ tok, isWhitespace c = false := by
    intro tok htok
    obtain ⟨hmem, hne⟩ := List.mem_filter.mp (h tok htok)
    exact ⟨by simpa using hne, mem_splitOnP hmem⟩
  clear h
  induction toks with
  | nil => rfl
  | cons tok toks ih =>
    obtain ⟨⟨hne, hclean⟩, hword⟩ := List.forall_mem_cons.mp hword
    rcases toks with _ | ⟨next, toks⟩
    · rw [List.intercalate_singleton, splitWhitespace, List.splitOnP_eq_singleton hclean,
        List.filter_cons_of_pos (by simpa using hne), List.filter_nil]
    · rw [List.intercalate_cons_cons, List.append_assoc, List.singleton_append,
        splitWhitespace_append hne hclean, ih hword]

/-- `str::lines`: a last line that is not ended keeps its carriage return. -/
def lines (t : Text) : List Text :=
  let parts := t.splitOn '\n'
  parts.dropLast.map (fun line => if line.getLast? = some '\r' then line.dropLast else line) ++
    parts.getLast?.toList.filter fun line => !line.isEmpty

/-- A text that ends its lines is split apart from what follows. -/
theorem lines_append {a : Text} (h : a = [] ∨ a.getLast? = some '\n') (b : Text) :
    lines (a ++ b) = lines a ++ lines b := by
  rcases h with rfl | h
  · rfl
  · obtain ⟨a, rfl⟩ := List.getLast?_eq_some_iff.mp h
    have hnil : (a ++ ['\n']).splitOn '\n' = a.splitOn '\n' ++ [[]] := by
      rw [List.splitOn_append_cons_self, List.splitOn_nil]
    have hb : b.splitOn '\n' ≠ [] := List.splitOn_ne_nil _ _
    rw [lines, lines, lines, List.append_assoc, List.singleton_append,
      List.splitOn_append_cons_self, hnil, List.dropLast_append_of_ne_nil hb,
      List.getLast?_append_of_ne_nil _ hb, List.dropLast_concat, List.getLast?_concat]
    simp

theorem lines_cons {line : Text} (h : '\n' ∉ line) (t : Text) :
    lines (line ++ '\n' :: t) =
      (if line.getLast? = some '\r' then line.dropLast else line) :: lines t := by
  have ht : t.splitOn '\n' ≠ [] := List.splitOn_ne_nil _ _
  obtain ⟨p, ps, hps⟩ := List.exists_cons_of_ne_nil ht
  rw [lines, lines, List.splitOn_append_cons_self_of_not_mem h, hps, List.dropLast_cons_cons,
    List.map_cons, List.getLast?_cons_cons]
  rfl

theorem lines_unended {line : Text} (h : '\n' ∉ line) (hne : line ≠ []) :
    lines line = [line] := by
  rw [lines, List.splitOn_eq_singleton h]
  simpa using hne

/-- A text is one line, or a line and a text. -/
theorem exists_line (t : Text) : '\n' ∉ t ∨ ∃ line u, t = line ++ '\n' :: u ∧ '\n' ∉ line := by
  by_cases h : '\n' ∈ t
  · obtain ⟨line, u, rfl, hline⟩ := List.eq_append_cons_of_mem h
    exact Or.inr ⟨line, u, rfl, hline⟩
  · exact Or.inl h

/-- What is put before a text is put before its first line. -/
theorem lines_indent {ws t : Text} (hn : '\n' ∉ ws) (hr : '\r' ∉ ws) (ht : t ≠ []) :
    ∃ line ls, lines t = line :: ls ∧ lines (ws ++ t) = (ws ++ line) :: ls := by
  rcases exists_line t with h | ⟨line, u, rfl, h⟩
  · refine ⟨t, [], lines_unended h ht, lines_unended ?_ (by simp [ht])⟩
    rw [List.mem_append, not_or]
    exact ⟨hn, h⟩
  · have hws : '\n' ∉ ws ++ line := by
      rw [List.mem_append, not_or]
      exact ⟨hn, h⟩
    refine ⟨_, _, lines_cons h u, ?_⟩
    rw [← List.append_assoc, lines_cons hws]
    congr 1
    rcases List.eq_nil_or_concat' line with rfl | ⟨pre, c, rfl⟩
    · rw [List.append_nil, if_neg, if_neg (by simp), List.append_nil]
      exact fun hlast => hr (List.mem_of_getLast? hlast)
    · simp only [← List.append_assoc, List.getLast?_concat, List.dropLast_concat]
      split
      · rfl
      · exact List.append_assoc _ _ _

/-- Lines that are put together again. -/
theorem lines_unlines {ls : List Text} (h : ∀ line ∈ ls, '\n' ∉ line ∧ '\r' ∉ line) :
    lines (ls.flatMap (· ++ ['\n'])) = ls := by
  induction ls with
  | nil => rfl
  | cons line ls ih =>
    rw [List.forall_mem_cons] at h
    rw [List.flatMap_cons, List.append_assoc, List.singleton_append, lines_cons h.1.1, ih h.2,
      if_neg]
    exact fun hlast => h.1.2 (List.mem_of_getLast? hlast)

/-- Induction over the lines of a text. -/
theorem lines_induction {P : Text → Prop} (unended : ∀ t, '\n' ∉ t → P t)
    (cons : ∀ line t, '\n' ∉ line → P t → P (line ++ '\n' :: t)) (t : Text) : P t := by
  induction hlen : t.length using Nat.strong_induction_on generalizing t with
  | _ n ih =>
    subst hlen
    rcases exists_line t with ht | ⟨line, u, rfl, hline⟩
    · exact unended t ht
    · refine cons line u hline (ih u.length ?_ u rfl)
      rw [List.length_append, List.length_cons]
      omega

theorem newline_not_mem_lines {t line : Text} (h : line ∈ lines t) : '\n' ∉ line := by
  induction t using lines_induction with
  | unended t ht =>
    cases t with
    | nil => cases h
    | cons c cs =>
      rw [lines_unended ht (by simp), List.mem_singleton] at h
      rwa [h]
  | cons first t hfirst ih =>
    rw [lines_cons hfirst, List.mem_cons] at h
    rcases h with rfl | h
    · split
      · exact fun hmem => hfirst ((List.dropLast_sublist _).subset hmem)
      · exact hfirst
    · exact ih h

theorem infix_of_mem_lines {t line : Text} (h : line ∈ lines t) : line <:+: t := by
  induction t using lines_induction with
  | unended t ht =>
    cases t with
    | nil => cases h
    | cons c cs =>
      rw [lines_unended ht (by simp), List.mem_singleton] at h
      subst h
      exact List.infix_rfl
  | cons first t hfirst ih =>
    rw [lines_cons hfirst, List.mem_cons] at h
    rcases h with rfl | h
    · refine List.IsInfix.trans ?_ (List.prefix_append first _).isInfix
      split
      · exact (List.dropLast_prefix first).isInfix
      · exact List.infix_rfl
    · exact (ih h).trans ((List.suffix_cons _ _).trans (List.suffix_append _ _)).isInfix

def toAsciiLowercase (t : Text) : Text :=
  t.map fun c => if 'A' ≤ c ∧ c ≤ 'Z' then Char.ofNat (c.toNat + 32) else c

/-! ## Slash-separated names -/

def isSlash (c : Char) : Bool := decide (c = '/')

/-- `split('/')` -/
def segments (t : Text) : List Text := t.splitOn '/'

/-- The inverse of `segments`. -/
def unsegments (segs : List Text) : Text := ['/'].intercalate segs

@[simp] theorem segments_ne_nil (t : Text) : segments t ≠ [] := List.splitOn_ne_nil '/' t

theorem segments_slash (t u : Text) : segments (t ++ '/' :: u) = segments t ++ segments u :=
  List.splitOn_append_cons_self t u

@[simp] theorem unsegments_segments (t : Text) : unsegments (segments t) = t :=
  List.intercalate_splitOn '/'

/-- Trailing slashes are trailing empty segments. -/
theorem segments_trimEnd (t : Text) :
    ∃ k, segments t = segments (trimEnd isSlash t) ++ List.replicate k [] := by
  induction t using List.reverseRecOn with
  | nil => exact ⟨0, rfl⟩
  | append_singleton t c ih =>
    by_cases hc : isSlash c
    · obtain ⟨k, hk⟩ := ih
      obtain rfl : c = '/' := by simpa [isSlash] using hc
      refine ⟨k + 1, ?_⟩
      have hnil : segments [] = [[]] := rfl
      rw [trimEnd, List.rdropWhile_concat_pos _ _ _ hc, segments_slash, hk, hnil,
        List.append_assoc, List.replicate_succ']
      rfl
    · refine ⟨0, ?_⟩
      rw [trimEnd, List.rdropWhile_concat_neg _ _ _ hc]
      simp

end Synora.Strings
