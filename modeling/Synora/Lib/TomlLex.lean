import Synora.Lib.TomlText

namespace Synora.Toml
open Strings

/-! # The strings of a TOML text and what stands between them -/

/-! ## Basic strings -/

/-- Characters that may stand between quotes on one line. -/
def isPrintable (c : Char) : Bool := decide (c = '\t' ∨ 32 ≤ c.toNat ∧ c.toNat ≠ 127)

def shortEscape : Char → Option Char
  | 'b' => some (Char.ofNat 8)
  | 't' => some '\t'
  | 'n' => some '\n'
  | 'f' => some (Char.ofNat 12)
  | 'r' => some '\r'
  | '"' => some '"'
  | '\\' => some '\\'
  | _ => none

def hexDigit (c : Char) : Option ℕ :=
  if '0' ≤ c ∧ c ≤ '9' then some (c.toNat - 48)
  else if 'a' ≤ c ∧ c ≤ 'f' then some (c.toNat - 87)
  else if 'A' ≤ c ∧ c ≤ 'F' then some (c.toNat - 55)
  else none

def scalar (n : ℕ) : Option Char := if n.isValidChar then some (Char.ofNat n) else none

/-- Where a basic string stands: between two of its characters, or inside an escape. -/
inductive Progress
  | plain
  | escaped
  /-- Some hex digits are left, behind those of the value. -/
  | hex (left value : ℕ)
deriving DecidableEq, Repr

/-- What the rest of a basic string denotes, and what follows its closing quote. -/
def basicString : Progress → Text → Option (Text × Text)
  | _, [] => none
  | .plain, c :: cs =>
    if c = '"' then some ([], cs)
    else if c = '\\' then basicString .escaped cs
    else if isPrintable c then (basicString .plain cs).map fun p => (c :: p.1, p.2)
    else none
  | .escaped, c :: cs =>
    match shortEscape c with
    | some d => (basicString .plain cs).map fun p => (d :: p.1, p.2)
    | none =>
      if c = 'u' then basicString (.hex 4 0) cs
      else if c = 'U' then basicString (.hex 8 0) cs
      else none
  | .hex left value, c :: cs =>
    (hexDigit c).bind fun digit =>
      if left ≤ 1 then (scalar (16 * value + digit)).bind fun d =>
        (basicString .plain cs).map fun p => (d :: p.1, p.2)
      else basicString (.hex (left - 1) (16 * value + digit)) cs

variable {s t u : Text}

/-- A character that a basic string holds as it is. -/
def IsBare (c : Char) : Prop := isPrintable c = true ∧ c ≠ '"' ∧ c ≠ '\\'

theorem basicString_bare {c : Char} (h : IsBare c) (cs : Text) :
    basicString .plain (c :: cs) = (basicString .plain cs).map fun p => (c :: p.1, p.2) := by
  rw [basicString, if_neg h.2.1, if_neg h.2.2, if_pos h.1]

theorem basicString_bares (h : ∀ c ∈ s, IsBare c) (cs : Text) :
    basicString .plain (s ++ cs) = (basicString .plain cs).map fun p => (s ++ p.1, p.2) := by
  induction s with
  | nil => simp
  | cons c s ih =>
    rw [List.forall_mem_cons] at h
    rw [List.cons_append, basicString_bare h.1, ih h.2, Option.map_map]
    rfl

/-- Hex digits are held as they are. -/
theorem isBare_of_hexDigit {c : Char} {d : ℕ} (h : hexDigit c = some d) : IsBare c := by
  have hrange : 48 ≤ c.toNat ∧ c.toNat ≤ 57 ∨ 97 ≤ c.toNat ∧ c.toNat ≤ 102 ∨
      65 ≤ c.toNat ∧ c.toNat ≤ 70 := by
    simp only [hexDigit, Char.le_def, UInt32.le_iff_toNat_le] at h
    split at h
    · rename_i hc
      exact Or.inl hc
    · split at h
      · rename_i hc
        exact Or.inr (Or.inl hc)
      · split at h
        · rename_i hc
          exact Or.inr (Or.inr hc)
        · cases h
  refine ⟨?_, ?_, ?_⟩
  · rw [isPrintable, decide_eq_true_eq]
    omega
  · rintro rfl
    revert hrange
    decide
  · rintro rfl
    revert hrange
    decide

/-- An escape in one place of a string, held against the same text read as bare characters. -/
theorem basicString_hex {left value : ℕ} {r r' : Text} (hleft : 0 < left)
    (hhex : basicString (.hex left value) u = some (s, r))
    (hplain : basicString .plain u = some (t, r')) :
    ∃ digits d rest, digits.length = left ∧ (∀ c ∈ digits, IsBare c) ∧ t = digits ++ rest ∧
      s = d :: rest := by
  induction u generalizing left value s t with
  | nil => cases hhex
  | cons c cs ih =>
    rw [basicString] at hhex
    obtain ⟨digit, hdigit, hhex⟩ := Option.bind_eq_some_iff.mp hhex
    have hbare := isBare_of_hexDigit hdigit
    rw [basicString_bare hbare] at hplain
    obtain ⟨⟨rest, r''⟩, hrest, heq⟩ := Option.map_eq_some_iff.mp hplain
    cases heq
    split at hhex
    · obtain ⟨d, -, hhex⟩ := Option.bind_eq_some_iff.mp hhex
      rw [hrest] at hhex
      cases hhex
      exact ⟨[c], d, rest, by rw [List.length_singleton]; omega, by simpa using hbare, rfl, rfl⟩
    · obtain ⟨digits, d, rest', hlen, hbares, rfl, rfl⟩ := ih (by omega) hhex hrest
      exact ⟨c :: digits, d, rest', by rw [List.length_cons]; omega,
        List.forall_mem_cons.mpr ⟨hbare, hbares⟩, rfl, rfl⟩

/-- A short escape denotes its own second character only for a quote and a backslash. -/
theorem shortEscape_cases {c d : Char} (h : shortEscape c = some d) :
    c = '"' ∧ d = '"' ∨ c = '\\' ∧ d = '\\' ∨ IsBare c ∧ d ≠ c ∧ d ≠ '\\' := by
  unfold shortEscape at h
  split at h <;> first | (cases h; done) | (cases h; simp [IsBare, isPrintable]; try decide)

theorem isBare_u : IsBare 'u' ∧ IsBare 'U' := by
  simp only [IsBare]
  decide

/-- What an escape does with its first character. -/
theorem basicString_escaped {c : Char} {cs : Text} {r : Text}
    (h : basicString .escaped (c :: cs) = some (s, r)) :
    (∃ d s', shortEscape c = some d ∧ basicString .plain cs = some (s', r) ∧ s = d :: s') ∨
      ∃ left, 4 ≤ left ∧ IsBare c ∧ basicString (.hex left 0) cs = some (s, r) := by
  rw [basicString] at h
  split at h
  · rename_i d hd
    obtain ⟨⟨s', r'⟩, hs', heq⟩ := Option.map_eq_some_iff.mp h
    cases heq
    exact Or.inl ⟨d, s', hd, hs', rfl⟩
  · split at h
    · rename_i hc
      exact Or.inr ⟨4, le_rfl, hc ▸ isBare_u.1, h⟩
    · split at h
      · rename_i hc
        exact Or.inr ⟨8, by decide, hc ▸ isBare_u.2, h⟩
      · cases h

/-- What a basic string does with a character between its escapes. -/
theorem basicString_plain {c : Char} {cs r : Text}
    (h : basicString .plain (c :: cs) = some (s, r)) :
    c = '"' ∧ s = [] ∧ cs = r ∨ c = '\\' ∧ basicString .escaped cs = some (s, r) ∨
      IsBare c ∧ ∃ s', basicString .plain cs = some (s', r) ∧ s = c :: s' := by
  rw [basicString] at h
  split at h
  · rename_i hc
    cases h
    exact Or.inl ⟨hc, rfl, rfl⟩
  · rename_i hquote
    split at h
    · rename_i hc
      exact Or.inr (Or.inl ⟨hc, h⟩)
    · rename_i hback
      split at h
      · rename_i hc
        obtain ⟨⟨s', r'⟩, hs', heq⟩ := Option.map_eq_some_iff.mp h
        cases heq
        exact Or.inr (Or.inr ⟨⟨hc, hquote, hback⟩, s', hs', rfl⟩)
      · cases h

/-- A text read with and without a backslash before it: neither reading gives what the other one
gives behind some text that ends with a backslash. -/
theorem shifted_ne (u : Text) :
    (∀ δ s r r', '"' ∉ δ → δ.getLast? = some '\\' → basicString .plain u = some (s, r) →
      basicString .escaped u ≠ some (δ ++ s, r')) ∧
    (∀ δ s r r', '"' ∉ δ → (δ = [] ∨ δ.getLast? = some '\\') →
      basicString .escaped u = some (s, r) → basicString .plain u ≠ some (δ ++ s, r')) := by
  induction u with
  | nil => refine ⟨fun δ s r r' _ _ h => ?_, fun δ s r r' _ _ h => ?_⟩ <;> cases h
  | cons c cs ih =>
    refine ⟨fun δ s r r' hquote hlast hplain hescaped => ?_,
      fun δ s r r' hquote hlast hescaped hplain => ?_⟩
    · have hδ : δ ≠ [] := by
        rintro rfl
        cases hlast
      have hpos := List.length_pos_iff.mpr hδ
      rcases basicString_escaped hescaped with ⟨d, s', hd, hs', heq⟩ | ⟨left, hleft, hbare, hhex⟩
      · rcases shortEscape_cases hd with ⟨rfl, rfl⟩ | ⟨rfl, rfl⟩ | ⟨hbare, -, -⟩
        · -- The closing quote becomes a character of the string.
          obtain ⟨a, δ', rfl⟩ := List.exists_cons_of_ne_nil hδ
          rw [List.cons_append, List.cons.injEq] at heq
          exact hquote (heq.1 ▸ List.mem_cons_self)
        · rcases basicString_plain hplain with ⟨hc, -⟩ | ⟨-, hrest⟩ | ⟨hbare, -⟩
          · exact absurd hc (by decide)
          · obtain ⟨a, δ', rfl⟩ := List.exists_cons_of_ne_nil hδ
            rw [List.cons_append, List.cons.injEq] at heq
            refine ih.2 δ' s r r' (fun h => hquote (List.mem_cons_of_mem _ h)) ?_ hrest
              (heq.2 ▸ hs')
            cases δ' with
            | nil => exact Or.inl rfl
            | cons b δ' => exact Or.inr (by simpa using hlast)
          · exact absurd rfl hbare.2.2
        · rw [basicString_bare hbare, hs'] at hplain
          cases hplain
          have hlen := congrArg List.length heq
          simp only [List.length_append, List.length_cons] at hlen
          omega
      · rw [basicString_bare hbare] at hplain
        obtain ⟨⟨t, r''⟩, ht, heq⟩ := Option.map_eq_some_iff.mp hplain
        cases heq
        obtain ⟨digits, d, rest, hlen, -, rfl, hs⟩ := basicString_hex (by omega) hhex ht
        have hlen' := congrArg List.length hs
        simp only [List.length_append, List.length_cons] at hlen'
        omega
    · rcases basicString_escaped hescaped with ⟨d, s', hd, hs', rfl⟩ | ⟨left, hleft, hbare, hhex⟩
      · rcases shortEscape_cases hd with ⟨rfl, rfl⟩ | ⟨rfl, rfl⟩ | ⟨hbare, hne, -⟩
        · -- The quote closes the string where the other reading goes on.
          rw [basicString, if_pos rfl] at hplain
          have hlen := congrArg (fun p => p.1.length) (Option.some.inj hplain)
          simp at hlen
        · rcases basicString_plain hplain with ⟨hc, -⟩ | ⟨-, hrest⟩ | ⟨hbare, -⟩
          · exact absurd hc (by decide)
          · refine ih.1 (δ ++ ['\\']) s' r r' ?_ (by simp) hs' (by simpa using hrest)
            simpa using hquote
          · exact absurd rfl hbare.2.2
        · rw [basicString_bare hbare, hs'] at hplain
          have heq := congrArg Prod.fst (Option.some.inj hplain)
          have hlen := congrArg List.length heq
          simp only [List.length_append, List.length_cons] at hlen
          obtain rfl : δ = [] := List.length_eq_zero_iff.mp (by omega)
          rw [List.nil_append, List.cons.injEq] at heq
          exact hne heq.1.symm
      · -- The digits of the escape end where the text before it ends.
        rw [basicString_bare hbare] at hplain
        obtain ⟨⟨t, r''⟩, ht, heq⟩ := Option.map_eq_some_iff.mp hplain
        obtain ⟨digits, d, rest, hlen, hbares, rfl, rfl⟩ := basicString_hex (by omega) hhex ht
        have heq' : (c :: digits) ++ rest = (δ ++ [d]) ++ rest := by
          simpa using congrArg Prod.fst heq
        have hdigits : c :: digits = δ ++ [d] := List.append_cancel_right heq'
        rcases hlast with rfl | hlast
        · have hlen' := congrArg List.length hdigits
          simp only [List.length_cons, List.nil_append, List.length_nil] at hlen'
          omega
        · have hmem : '\\' ∈ c :: digits := by
            rw [hdigits]
            exact List.mem_append_left _ (List.mem_of_getLast? hlast)
          rcases List.mem_cons.mp hmem with rfl | hmem
          · exact hbare.2.2 rfl
          · exact (hbares _ hmem).2.2 rfl

/-- One character comes out at the front, one goes in behind. -/
theorem lag_cons {δ x : Text} {c d : Char} (hδ : δ ≠ [])
    (h : δ ++ c :: x ++ t = d :: s) : d ∈ δ ∧ ∃ δ', δ' ≠ [] ∧ δ' ⊆ δ ++ [c] ∧ s = δ' ++ x ++ t := by
  obtain ⟨a, δ, rfl⟩ := List.exists_cons_of_ne_nil hδ
  simp only [List.cons_append, List.cons.injEq] at h
  refine ⟨h.1 ▸ List.mem_cons_self, δ ++ [c], by simp, by simp, ?_⟩
  rw [← h.2]
  simp

/-- Once the reading lags behind the text it never gives that text. -/
theorem lagging_ne {r : Text} (hu : basicString .plain u = some (t, r)) (x : Text) :
    ∀ p δ r', '"' ∉ δ → δ ≠ [] → (p = .escaped → δ.getLast? = some '\\') →
      (∀ left value, p = .hex left value → 0 < left) →
      basicString p (x ++ u) ≠ some (δ ++ x ++ t, r') := by
  induction x with
  | nil =>
    intro p δ r' hquote hδ hlast hleft h
    have hpos := List.length_pos_iff.mpr hδ
    rw [List.nil_append, List.append_nil] at h
    cases p with
    | plain =>
      rw [hu] at h
      have hlen := congrArg (fun p => p.1.length) (Option.some.inj h)
      simp only [List.length_append] at hlen
      omega
    | escaped => exact (shifted_ne u).1 δ t r r' hquote (hlast rfl) hu h
    | hex left value =>
      -- Hex digits out of the rest become one character: what comes out is too short.
      obtain ⟨digits, d, rest, hlen, -, rfl, heq⟩ := basicString_hex (hleft left value rfl) h hu
      have hlen' := congrArg List.length heq
      have := hleft left value rfl
      simp only [List.length_append, List.length_cons] at hlen'
      omega
  | cons c x ih =>
    intro p δ r' hquote hδ hlast hleft h
    have hassoc : δ ++ c :: x ++ t = (δ ++ [c]) ++ x ++ t := by simp
    rw [List.cons_append] at h
    cases p with
    | plain =>
      rcases basicString_plain h with ⟨-, hnil, -⟩ | ⟨rfl, hrest⟩ | ⟨hbare, s', hs', heq⟩
      · -- A quote in the text closes the string too early.
        simp at hnil
      · exact ih .escaped (δ ++ ['\\']) r' (by simpa using hquote) (by simp) (by simp) (by simp)
          (hassoc ▸ hrest)
      · obtain ⟨-, δ', hδ', hsub, rfl⟩ := lag_cons hδ heq
        refine ih .plain δ' r' (fun hmem => ?_) hδ' (by simp) (by simp) hs'
        rcases List.mem_append.mp (hsub hmem) with hold | hnew
        · exact hquote hold
        · exact hbare.2.1 (List.mem_singleton.mp hnew).symm
    | escaped =>
      rcases basicString_escaped h with ⟨d, s', hd, hs', heq⟩ | ⟨left, hleft', hbare, hhex⟩
      · obtain ⟨hmem, δ', hδ', hsub, rfl⟩ := lag_cons hδ heq
        refine ih .plain δ' r' (fun hmem' => ?_) hδ' (by simp) (by simp) hs'
        rcases List.mem_append.mp (hsub hmem') with hold | hnew
        · exact hquote hold
        · -- An escaped quote would come out before any quote went in.
          obtain rfl := List.mem_singleton.mp hnew
          cases hd
          exact hquote hmem
      · refine ih (.hex left 0) (δ ++ [c]) r' ?_ (by simp) (by simp) ?_ (hassoc ▸ hhex)
        · simpa [hquote] using hbare.2.1.symm
        · rintro left' value heq
          cases heq
          omega
    | hex left value =>
      rw [basicString] at h
      obtain ⟨digit, hdigit, h⟩ := Option.bind_eq_some_iff.mp h
      have hbare := isBare_of_hexDigit hdigit
      split at h
      · obtain ⟨d, -, h⟩ := Option.bind_eq_some_iff.mp h
        obtain ⟨⟨s', r''⟩, hs', heq⟩ := Option.map_eq_some_iff.mp h
        simp only [Prod.mk.injEq] at heq
        obtain ⟨heq, rfl⟩ := heq
        obtain ⟨-, δ', hδ', hsub, rfl⟩ := lag_cons hδ heq.symm
        refine ih .plain δ' r'' (fun hmem => ?_) hδ' (by simp) (by simp) hs'
        rcases List.mem_append.mp (hsub hmem) with hold | hnew
        · exact hquote hold
        · exact hbare.2.1 (List.mem_singleton.mp hnew).symm
      · refine ih _ (δ ++ [c]) r' ?_ (by simp) (by simp) ?_ (hassoc ▸ h)
        · simpa [hquote] using hbare.2.1.symm
        · rintro left' value' heq
          cases heq
          omega

/-- A text that a string holds as it is, in front of the rest of the string, is bare. -/
theorem bare_of_basicString {x r r' : Text} (hu : basicString .plain u = some (t, r))
    (h : basicString .plain (x ++ u) = some (x ++ t, r')) : ∀ c ∈ x, IsBare c := by
  induction x with
  | nil => simp
  | cons c x ih =>
    rcases basicString_plain h with ⟨-, hnil, -⟩ | ⟨rfl, hrest⟩ | ⟨hbare, s', hs', heq⟩
    · cases hnil
    · exact absurd hrest (lagging_ne hu x .escaped ['\\'] r' (by simp) (by simp) (by simp) (by simp))
    · cases heq
      exact List.forall_mem_cons.mpr ⟨hbare, ih hs'⟩

/-- A text is held as it is exactly when it holds no quote and no backslash, if it can be held. -/
theorem basicString_append_iff {x r s' r' : Text} (hu : basicString .plain u = some (t, r))
    (h : basicString .plain (x ++ u) = some (s', r')) :
    s' = x ++ t ↔ '"' ∉ x ∧ '\\' ∉ x := by
  constructor
  · rintro rfl
    have hbare := bare_of_basicString hu h
    exact ⟨fun hmem => (hbare _ hmem).2.1 rfl, fun hmem => (hbare _ hmem).2.2 rfl⟩
  · rintro ⟨hquote, hback⟩
    induction x generalizing s' with
    | nil =>
      rw [List.nil_append, hu] at h
      cases h
      rfl
    | cons c x ih =>
      rw [List.mem_cons, not_or] at hquote hback
      rcases basicString_plain h with ⟨rfl, -⟩ | ⟨rfl, -⟩ | ⟨-, s'', hs'', rfl⟩
      · exact absurd rfl hquote.1
      · exact absurd rfl hback.1
      · rw [ih hs'' hquote.2 hback.2]
        rfl

/-! ## The lexer -/

/-- What a parser is given to read. What a comment says is left out. -/
inductive Lexeme
  | code (c : Char)
  | basic (value : Text)
  | literal (value : Text)
  /-- What stands between the three quotes on either side. -/
  | multiline (q : Quote) (raw : Text)
deriving DecidableEq, Repr

def Quote.char : Quote → Char
  | .basic => '"'
  | .literal => '\''

/-- A string on one line. -/
def Quote.lexeme : Quote → Text → Lexeme
  | .basic => .basic
  | .literal => .literal

inductive LexState
  | code
  | comment
  /-- Behind one quote, which opens a string. -/
  | opened (q : Quote)
  /-- Behind a second one: an empty string, or two thirds of a delimiter. -/
  | empty (q : Quote)
  | basic (value : Text) (p : Progress)
  | literal (value : Text)
  /-- Behind the quote that closes a basic string. -/
  | closed
  | multiline (q : Quote) (raw : Text) (quotes : ℕ) (escaped : Bool)
deriving DecidableEq, Repr

def codeStep (c : Char) : List Lexeme × LexState :=
  if c = '#' then ([], .comment)
  else if c = '"' then ([], .opened .basic)
  else if c = '\'' then ([], .opened .literal)
  else ([.code c], .code)

def basicStep (value : Text) : Progress → Char → Option (List Lexeme × LexState)
  | .plain, c =>
    if c = '"' then some ([.basic value], .closed)
    else if c = '\\' then some ([], .basic value .escaped)
    else if isPrintable c then some ([], .basic (value ++ [c]) .plain)
    else none
  | .escaped, c =>
    match shortEscape c with
    | some d => some ([], .basic (value ++ [d]) .plain)
    | none =>
      if c = 'u' then some ([], .basic value (.hex 4 0))
      else if c = 'U' then some ([], .basic value (.hex 8 0))
      else none
  | .hex left n, c =>
    (hexDigit c).bind fun digit =>
      if left ≤ 1 then (scalar (16 * n + digit)).map fun d => ([], .basic (value ++ [d]) .plain)
      else some ([], .basic value (.hex (left - 1) (16 * n + digit)))

def literalStep (value : Text) (c : Char) : Option (List Lexeme × LexState) :=
  if c = '\'' then some ([.literal value], .code)
  else if isPrintable c then some ([], .literal (value ++ [c]))
  else none

/-- A multi-line string ends with the first three quotes in a row, less up to two of its own in
front of them. -/
def multilineStep (q : Quote) (raw : Text) (quotes : ℕ) (escaped : Bool) (c : Char) :
    List Lexeme × LexState :=
  if escaped then ([], .multiline q (raw ++ [c]) 0 false)
  else if c = q.char then
    if quotes = 4 then ([.multiline q (raw ++ List.replicate 2 q.char)], .code)
    else ([], .multiline q raw (quotes + 1) false)
  else if 3 ≤ quotes then
    (.multiline q (raw ++ List.replicate (quotes - 3) q.char) :: (codeStep c).1, (codeStep c).2)
  else ([], .multiline q (raw ++ List.replicate quotes q.char ++ [c]) 0
    (decide (q = .basic ∧ c = '\\')))

def lexStep : LexState → Char → Option (List Lexeme × LexState)
  | .code, c => some (codeStep c)
  | .comment, c => some (if c = '\n' then ([.code c], .code) else ([], .comment))
  | .opened .basic, c => if c = '"' then some ([], .empty .basic) else basicStep [] .plain c
  | .opened .literal, c => if c = '\'' then some ([], .empty .literal) else literalStep [] c
  | .empty q, c =>
    if c = q.char then some ([], .multiline q [] 0 false)
    else some (q.lexeme [] :: (codeStep c).1, (codeStep c).2)
  | .basic value p, c => basicStep value p c
  | .literal value, c => literalStep value c
  -- No two strings stand side by side.
  | .closed, c => if c = '"' then none else some (codeStep c)
  | .multiline q raw quotes escaped, c => some (multilineStep q raw quotes escaped c)

/-- The end of the text. -/
def LexState.finish : LexState → Option (List Lexeme)
  | .code | .comment | .closed => some []
  | .empty q => some [q.lexeme []]
  | .multiline q raw quotes _ =>
    if 3 ≤ quotes then some [.multiline q (raw ++ List.replicate (quotes - 3) q.char)] else none
  | .opened _ | .basic _ _ | .literal _ => none

def lexFrom : LexState → Text → Option (List Lexeme)
  | st, [] => st.finish
  | st, c :: cs => (lexStep st c).bind fun p => (lexFrom p.2 cs).map (p.1 ++ ·)

/-- The lexemes of a text. -/
def lex (t : Text) : Option (List Lexeme) := lexFrom .code t

/-- The lexemes of the beginning of a text, and how it leaves the lexer. -/
def lexRun : LexState → Text → Option (List Lexeme × LexState)
  | st, [] => some ([], st)
  | st, c :: cs => (lexStep st c).bind fun p =>
    (lexRun p.2 cs).map fun p' => (p.1 ++ p'.1, p'.2)

theorem lexFrom_append {st st' : LexState} {ls : List Lexeme} (h : lexRun st s = some (ls, st')) :
    lexFrom st (s ++ t) = (lexFrom st' t).map (ls ++ ·) := by
  induction s generalizing st ls with
  | nil =>
    cases h
    simp
  | cons c cs ih =>
    rw [lexRun] at h
    obtain ⟨⟨ls₁, st₁⟩, hstep, h⟩ := Option.bind_eq_some_iff.mp h
    obtain ⟨⟨ls₂, st₂⟩, hrun, heq⟩ := Option.map_eq_some_iff.mp h
    cases heq
    rw [List.cons_append, lexFrom, hstep, Option.bind_some, ih hrun, Option.map_map]
    congr 1
    funext ls'
    exact (List.append_assoc ls₁ ls₂ ls').symm

/-- The lexer reads a basic string like `basicString`. -/
theorem lexFrom_basic (value : Text) (p : Progress) (t : Text) :
    lexFrom (.basic value p) t = (basicString p t).bind fun q =>
      (lexFrom .closed q.2).map (.basic (value ++ q.1) :: ·) := by
  induction t generalizing value p with
  | nil => cases p <;> rfl
  | cons c cs ih =>
    rw [lexFrom, lexStep]
    cases p with
    | plain =>
      rw [basicStep, basicString]
      split
      · simp
      · split
        · simp [ih]
        · split
          · simp [ih, Option.bind_map, Function.comp_def]
          · rfl
    | escaped =>
      rw [basicStep, basicString]
      split
      · simp [ih, Option.bind_map, Function.comp_def]
      · split
        · simp [ih]
        · split
          · simp [ih]
          · rfl
    | hex left n =>
      rw [basicStep, basicString]
      cases hexDigit c with
      | none => rfl
      | some digit =>
        simp only [Option.bind_some]
        split
        · cases scalar (16 * n + digit) with
          | none => rfl
          | some d => simp [ih, Option.bind_map, Function.comp_def]
        · simp [ih]

/-- A quote that no other quote follows opens a basic string. -/
theorem lexFrom_opened (h : t.head? ≠ some '"') :
    lexFrom (.opened .basic) t = lexFrom (.basic [] .plain) t := by
  cases t with
  | nil => rfl
  | cons c cs =>
    have hc : c ≠ '"' := fun hc => h (by rw [hc]; rfl)
    rw [lexFrom, lexFrom, lexStep, lexStep, if_neg hc]

/-- A multi-line string is the first thing that comes of it. -/
theorem lexFrom_multiline {q : Quote} {raw : Text} {quotes : ℕ} {escaped : Bool} {ls : List Lexeme}
    (h : lexFrom (.multiline q raw quotes escaped) t = some ls) :
    ∃ raw' rest, ls = .multiline q raw' :: rest := by
  induction t generalizing raw quotes escaped with
  | nil =>
    rw [lexFrom, LexState.finish] at h
    split at h
    · cases h
      exact ⟨_, _, rfl⟩
    · cases h
  | cons c cs ih =>
    rw [lexFrom, lexStep, Option.bind_some, multilineStep] at h
    split at h
    · exact ih (by simpa using h)
    · split at h
      · split at h
        · obtain ⟨ls', -, rfl⟩ := Option.map_eq_some_iff.mp h
          exact ⟨_, _, rfl⟩
        · exact ih (by simpa using h)
      · split at h
        · obtain ⟨ls', -, rfl⟩ := Option.map_eq_some_iff.mp h
          exact ⟨_, _, rfl⟩
        · exact ih (by simpa using h)

/-- Behind two quotes no string comes that holds anything on one line. -/
theorem lexFrom_empty {value : Text} {ls : List Lexeme}
    (h : lexFrom (.empty .basic) t = some (.basic value :: ls)) : value = [] := by
  cases t with
  | nil =>
    cases h
    rfl
  | cons c cs =>
    rw [lexFrom, lexStep] at h
    split at h
    · obtain ⟨ls', hls', heq⟩ := Option.map_eq_some_iff.mp h
      obtain ⟨raw, rest, rfl⟩ := lexFrom_multiline hls'
      cases heq
    · obtain ⟨ls', -, heq⟩ := Option.map_eq_some_iff.mp h
      simp only [Quote.lexeme, List.cons_append, List.cons.injEq, Lexeme.basic.injEq] at heq
      exact heq.1.symm

/-! ## A place inside a string -/

/-- Between the two texts the lexer is inside a basic string: behind `front` and the first part of
its value, before the rest of the value and `back`. -/
structure Hole (a b : Text) (front : List Lexeme) (s t : Text) (back : List Lexeme) : Prop where
  opens : lexRun .code a = some (front, .basic s .plain) ∨
    lexRun .code a = some (front, .opened .basic) ∧ s = []
  closes : ∃ r, basicString .plain b = some (t, r) ∧ lexFrom .closed r = some back

variable {a b x : Text} {front back ls : List Lexeme}

/-- Behind the first text the rest of the string is read, unless the quote that opens it meets
another one. -/
theorem Hole.lex_eq (h : Hole a b front s t back) (x : Text) :
    lex (a ++ x ++ b) = (lexFrom (.basic s .plain) (x ++ b)).map (front ++ ·) ∨
      s = [] ∧ (∃ cs, x ++ b = '"' :: cs ∧
        lex (a ++ x ++ b) = (lexFrom (.empty .basic) cs).map (front ++ ·)) := by
  rw [lex, List.append_assoc]
  rcases h.opens with hrun | ⟨hrun, rfl⟩
  · exact Or.inl (lexFrom_append hrun)
  · rw [lexFrom_append hrun]
    by_cases hhead : (x ++ b).head? = some '"'
    · obtain ⟨cs, hcs⟩ := List.head?_eq_some_iff.mp hhead
      refine Or.inr ⟨rfl, cs, hcs, ?_⟩
      simp [hcs, lexFrom, lexStep]
    · exact Or.inl (by rw [lexFrom_opened hhead])

/-- Bare text in the hole is part of the string. -/
theorem Hole.fill (h : Hole a b front s t back) (hx : ∀ c ∈ x, IsBare c) :
    lex (a ++ x ++ b) = some (front ++ .basic (s ++ x ++ t) :: back) := by
  obtain ⟨r, hb, hr⟩ := h.closes
  rcases h.lex_eq x with heq | ⟨rfl, cs, hcs, heq⟩
  · rw [heq, lexFrom_basic, basicString_bares hx, hb]
    simp [hr]
  · cases x with
    | cons c x =>
      cases hcs
      exact absurd rfl (hx '"' List.mem_cons_self).2.1
    | nil =>
      -- Nothing is filled in and the string is empty.
      rw [List.nil_append] at hcs
      subst hcs
      rw [basicString, if_pos rfl] at hb
      cases hb
      rw [heq]
      cases r with
      | nil =>
        cases hr
        rfl
      | cons c cs =>
        rw [lexFrom, lexStep] at hr
        split at hr
        · cases hr
        · rename_i hc
          obtain ⟨ls, hls, rfl⟩ := Option.map_eq_some_iff.mp hr
          rw [lexFrom, lexStep, if_neg (show c ≠ Quote.basic.char from hc)]
          simp [hls, Quote.lexeme]

/-- If the lexer reads the filled text at all: it reads the same as for any other filling, with the
filling in the string, exactly when the filling holds no quote and no backslash. -/
theorem Hole.verbatim_iff (h : Hole a b front s t back) (hlex : lex (a ++ x ++ b) = some ls) :
    ls = front ++ .basic (s ++ x ++ t) :: back ↔ '"' ∉ x ∧ '\\' ∉ x := by
  obtain ⟨r, hb, -⟩ := h.closes
  have hread := hlex
  rcases h.lex_eq x with heq | ⟨rfl, cs, hcs, heq⟩
  · rw [heq, lexFrom_basic] at hread
    obtain ⟨ls', hls', rfl⟩ := Option.map_eq_some_iff.mp hread
    obtain ⟨⟨s', r'⟩, hs', hls'⟩ := Option.bind_eq_some_iff.mp hls'
    obtain ⟨rest, -, rfl⟩ := Option.map_eq_some_iff.mp hls'
    constructor
    · intro hverbatim
      have hval : .basic (s ++ s') :: rest = Lexeme.basic (s ++ x ++ t) :: back :=
        List.append_cancel_left hverbatim
      rw [List.cons.injEq, Lexeme.basic.injEq, List.append_assoc] at hval
      exact (basicString_append_iff hb hs').mp (List.append_cancel_left hval.1)
    · intro hclean
      obtain rfl : s' = x ++ t := (basicString_append_iff hb hs').mpr hclean
      exact Option.some.inj (hlex.symm.trans (h.fill (bare_of_basicString hb hs')))
  · rw [heq] at hread
    cases x with
    | nil => exact iff_of_true (Option.some.inj (hlex.symm.trans (h.fill (by simp)))) (by simp)
    | cons c x =>
      cases hcs
      refine iff_of_false (fun hverbatim => ?_) (by simp)
      rw [hverbatim] at hread
      obtain ⟨ls', hls', hcancel⟩ := Option.map_eq_some_iff.mp hread
      obtain rfl := List.append_cancel_left hcancel
      simpa using lexFrom_empty hls'

end Synora.Toml
