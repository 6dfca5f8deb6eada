import Synora.Lib.Text

namespace Synora.Db
open Strings

/-! # `?` and `$n` -/

/-- The loop of `rewrite_placeholders` with `n` placeholders counted. -/
def rewriteFrom (n : ℕ) : Text → Text × ℕ
  | [] => ([], n)
  | c :: sql =>
    if c = '?' then
      let (out, m) := rewriteFrom (n + 1) sql
      ('$' :: Nat.toDigits 10 (n + 1) ++ out, m)
    else
      let (out, m) := rewriteFrom n sql
      (c :: out, m)

/-- `rewrite_placeholders` -/
def rewritePlaceholders (sql : Text) : Text × ℕ := rewriteFrom 0 sql

/-! ## What a statement says

How the two databases find the parameters of a statement: without comments, dollar quotes and escape
strings, which the statements of the store do not have. -/

inductive Piece
  | text (c : Char)
  | param (n : ℕ)
deriving DecidableEq

def Piece.number : Piece → Option ℕ
  | text _ => none
  | param n => some n

inductive Within
  /-- Whether the last character is one of a word. -/
  | plain (word : Bool)
  | quoted (quote : Char)
deriving DecidableEq

def wordChar (c : Char) : Bool := c.isAlphanum || c = '_'

def Within.next : Within → Char → Within
  | plain _, c => if c = '\'' ∨ c = '"' then quoted c else plain (wordChar c)
  | quoted quote, c => if c = quote then plain false else quoted quote

structure Dialect where
  sigil : Char
  /-- The sigil may stand right behind a word. -/
  behindWord : Bool
  /-- A word may stand right behind the parameter. -/
  beforeWord : Bool
  /-- The number of a sigil without digits, when the largest so far is this. -/
  bare : ℕ → Option ℕ

/-- `?` and `?NNN` -/
def sqliteDialect : Dialect := ⟨'?', true, true, fun largest => some (largest + 1)⟩

/-- `$n`; a word may have a `$` in it. -/
def pgDialect : Dialect := ⟨'$', false, false, fun _ => none⟩

structure Reading where
  within : Within
  /-- The digits behind a sigil. -/
  digits : Option Text
  largest : ℕ

namespace Dialect
variable (d : Dialect)

def number (largest : ℕ) (digits : Text) : Option ℕ :=
  if digits = [] then d.bare largest else some (Nat.ofDigitChars 10 digits 0)

def opens (s : Within) (c : Char) : Bool :=
  match s with
  | .plain word => c = d.sigil && (d.behindWord || !word)
  | .quoted _ => false

def take (s : Within) (largest : ℕ) (c : Char) : List Piece × Reading :=
  if d.opens s c then ([], ⟨.plain false, some [], largest⟩)
  else ([.text c], ⟨s.next c, none, largest⟩)

def step (s : Reading) (c : Char) : Option (List Piece × Reading) :=
  match s.digits with
  | none => some (d.take s.within s.largest c)
  | some digits =>
    if c.isDigit then some ([], { s with digits := some (digits ++ [c]) })
    else if wordChar c && !d.beforeWord then none
    else (d.number s.largest digits).map fun n =>
      let (out, s') := d.take s.within (max s.largest n) c
      (.param n :: out, s')

def finish (s : Reading) : Option (List Piece) :=
  match s.digits, s.within with
  | some digits, _ => (d.number s.largest digits).map fun n => [.param n]
  | none, .plain _ => some []
  | none, .quoted _ => none

def readFrom (s : Reading) : Text → Option (List Piece)
  | [] => d.finish s
  | c :: sql => (d.step s c).bind fun (out, s') => (readFrom s' sql).map (out ++ ·)

def read (sql : Text) : Option (List Piece) := d.readFrom ⟨.plain false, none, 0⟩ sql

end Dialect

/-- No `?` in quotes, and none that touches a word; no `$` outside quotes. -/
def portableFrom (s : Within) (behind : Bool) : Text → Bool
  | [] => true
  | c :: sql =>
    !(behind && wordChar c) &&
      (match s with
        | .plain word => c ≠ '$' && !(c = '?' && word)
        | .quoted _ => decide (c ≠ '?')) &&
      portableFrom (s.next c) (c = '?') sql

def portable (sql : Text) : Bool := portableFrom (.plain false) false sql

/-! ## Reading what has been rewritten -/

theorem isDigit_wordChar {c : Char} (h : c.isDigit = true) : wordChar c = true := by
  simp [wordChar, Char.isAlphanum, h]

theorem readFrom_digits (d : Dialect) (w : Within) (largest : ℕ) (rest : Text) {ds : Text}
    (h : ∀ c ∈ ds, c.isDigit = true) (before : Text) :
    d.readFrom ⟨w, some before, largest⟩ (ds ++ rest) =
      d.readFrom ⟨w, some (before ++ ds), largest⟩ rest := by
  induction ds generalizing before with
  | nil => simp
  | cons c ds ih =>
    obtain ⟨hc, hds⟩ := List.forall_mem_cons.mp h
    rw [List.cons_append, Dialect.readFrom, Dialect.step]
    simp only [hc, if_true, Option.bind_some, List.nil_append, Option.map_id']
    rw [ih hds, List.append_assoc, List.singleton_append]

theorem readFrom_settle {d : Dialect} {word : Bool} {digits t : Text} {largest k : ℕ}
    (hnumber : d.number largest digits = some k)
    (hnext : ∀ c ∈ t.head?, wordChar c = false) :
    d.readFrom ⟨.plain word, some digits, largest⟩ t =
      (d.readFrom ⟨.plain word, none, max largest k⟩ t).map (Piece.param k :: ·) := by
  cases t with
  | nil => simp [Dialect.readFrom, Dialect.finish, hnumber]
  | cons c t =>
    have hc := hnext c rfl
    have hdigit : c.isDigit = false := by
      by_contra h
      rw [isDigit_wordChar (Bool.not_eq_false _ ▸ h)] at hc
      exact Bool.noConfusion hc
    simp only [Dialect.readFrom, Dialect.step, hdigit, hc, hnumber, Bool.false_and,
      Bool.false_eq_true, if_false, Option.map_some, Option.bind_some, List.cons_append,
      Option.map_map]
    rfl

/-- What both dialects do with a character that opens no parameter. -/
theorem readFrom_text {d : Dialect} {w : Within} {c : Char} {t : Text} {n : ℕ}
    (h : d.opens w c = false) :
    d.readFrom ⟨w, none, n⟩ (c :: t) =
      (d.readFrom ⟨w.next c, none, n⟩ t).map (Piece.text c :: ·) := by
  simp [Dialect.readFrom, Dialect.step, Dialect.take, h]

theorem readFrom_open {d : Dialect} {t : Text} {n : ℕ} :
    d.readFrom ⟨.plain false, none, n⟩ (d.sigil :: t) =
      d.readFrom ⟨.plain false, some [], n⟩ t := by
  simp [Dialect.readFrom, Dialect.step, Dialect.take, Dialect.opens]

theorem pg_number (n : ℕ) : pgDialect.number n (Nat.toDigits 10 (n + 1)) = some (n + 1) := by
  rw [Dialect.number, if_neg Nat.toDigits_ne_nil,
    Nat.ofDigitChars_toDigits (by decide) (by decide)]

theorem head_rewriteFrom {n : ℕ} {w : Within} {sql : Text} (h : portableFrom w true sql = true) :
    (∀ c ∈ sql.head?, wordChar c = false) ∧
      ∀ c ∈ (rewriteFrom n sql).1.head?, wordChar c = false := by
  cases sql with
  | nil => exact ⟨by simp, by simp [rewriteFrom]⟩
  | cons c sql =>
    simp only [portableFrom, Bool.true_and, Bool.and_eq_true, Bool.not_eq_true'] at h
    refine ⟨fun e he => by cases he; exact h.1.1, fun e he => ?_⟩
    rw [rewriteFrom] at he
    split at he
    · cases he; decide
    · cases he; exact h.1.1

/-- A character of a portable text: a placeholder on its own, or one that opens nothing. -/
theorem portableFrom_cons {w : Within} {behind : Bool} {c : Char} {sql : Text}
    (h : portableFrom w behind (c :: sql) = true) :
    (c = '?' ∧ w = .plain false ∧ portableFrom (.plain false) true sql = true) ∨
      (c ≠ '?' ∧ sqliteDialect.opens w c = false ∧ pgDialect.opens w c = false ∧
        portableFrom (w.next c) false sql = true) := by
  simp only [portableFrom, Bool.and_eq_true] at h
  obtain ⟨⟨-, hw⟩, hrest⟩ := h
  by_cases hc : c = '?'
  · subst hc
    left
    cases w with
    | quoted q => simp at hw
    | plain word =>
      obtain rfl : word = false := by simpa using hw
      exact ⟨rfl, rfl, hrest⟩
  · right
    refine ⟨hc, ?_, ?_, by simpa [hc] using hrest⟩
    · cases w <;> simp [Dialect.opens, sqliteDialect, hc]
    · cases w with
      | quoted q => rfl
      | plain word =>
        have hdollar : c ≠ '$' := by simpa [hc] using hw
        simp [Dialect.opens, pgDialect, hdollar]

theorem rewriteFrom_mark (n : ℕ) (sql : Text) : rewriteFrom n ('?' :: sql) =
    ('$' :: Nat.toDigits 10 (n + 1) ++ (rewriteFrom (n + 1) sql).1,
      (rewriteFrom (n + 1) sql).2) := by
  simp [rewriteFrom]

theorem rewriteFrom_text {n : ℕ} {c : Char} {sql : Text} (h : c ≠ '?') :
    rewriteFrom n (c :: sql) = (c :: (rewriteFrom n sql).1, (rewriteFrom n sql).2) := by
  simp [rewriteFrom, h]

theorem sqlite_mark {n : ℕ} {sql : Text} (h : portableFrom (.plain false) true sql = true) :
    sqliteDialect.readFrom ⟨.plain false, none, n⟩ ('?' :: sql) =
      (sqliteDialect.readFrom ⟨.plain false, none, n + 1⟩ sql).map
        (Piece.param (n + 1) :: ·) := by
  rw [show '?' = sqliteDialect.sigil from rfl, readFrom_open,
    readFrom_settle (d := sqliteDialect) (k := n + 1) rfl (head_rewriteFrom (n := n) h).1, Nat.max_eq_right n.le_succ]

theorem pg_mark {n : ℕ} {sql : Text} (h : portableFrom (.plain false) true sql = true) :
    pgDialect.readFrom ⟨.plain false, none, n⟩ (rewriteFrom n ('?' :: sql)).1 =
      (pgDialect.readFrom ⟨.plain false, none, n + 1⟩ (rewriteFrom (n + 1) sql).1).map
        (Piece.param (n + 1) :: ·) := by
  have hdigits : ∀ c ∈ Nat.toDigits 10 (n + 1), c.isDigit = true :=
    fun c hc => Nat.isDigit_of_mem_toDigits (by decide) (by decide) hc
  rw [rewriteFrom_mark, List.cons_append, show '$' = pgDialect.sigil from rfl, readFrom_open,
    readFrom_digits _ _ _ _ hdigits, List.nil_append,
    readFrom_settle (pg_number n) (head_rewriteFrom h).2, Nat.max_eq_right n.le_succ]

theorem readFrom_rewriteFrom {n : ℕ} {w : Within} {behind : Bool} {sql : Text}
    (h : portableFrom w behind sql = true) :
    pgDialect.readFrom ⟨w, none, n⟩ (rewriteFrom n sql).1 =
      sqliteDialect.readFrom ⟨w, none, n⟩ sql := by
  induction sql generalizing n w behind with
  | nil => cases w <;> rfl
  | cons c sql ih =>
    obtain ⟨rfl, rfl, hrest⟩ | ⟨hc, hsqlite, hpg, hrest⟩ := portableFrom_cons h
    · rw [pg_mark hrest, sqlite_mark hrest, ih hrest]
    · rw [rewriteFrom_text hc, readFrom_text hpg, readFrom_text hsqlite, ih hrest]

theorem numbers_readFrom {n : ℕ} {w : Within} {behind : Bool} {sql : Text} {pieces : List Piece}
    (h : portableFrom w behind sql = true)
    (hread : sqliteDialect.readFrom ⟨w, none, n⟩ sql = some pieces) :
    ∃ k, (rewriteFrom n sql).2 = n + k ∧
      pieces.filterMap Piece.number = List.range' (n + 1) k := by
  induction sql generalizing n w behind pieces with
  | nil =>
    refine ⟨0, rfl, ?_⟩
    cases w with
    | plain word => cases hread; rfl
    | quoted q => cases hread
  | cons c sql ih =>
    obtain ⟨rfl, rfl, hrest⟩ | ⟨hc, hsqlite, -, hrest⟩ := portableFrom_cons h
    · rw [sqlite_mark hrest] at hread
      obtain ⟨tail, htail, rfl⟩ := Option.map_eq_some_iff.mp hread
      obtain ⟨k, hcount, hnumbers⟩ := ih hrest htail
      refine ⟨k + 1, by rw [rewriteFrom_mark]; dsimp only; omega, ?_⟩
      rw [List.filterMap_cons_some (f := Piece.number) rfl, hnumbers]
      rfl
    · rw [readFrom_text hsqlite] at hread
      obtain ⟨tail, htail, rfl⟩ := Option.map_eq_some_iff.mp hread
      obtain ⟨k, hcount, hnumbers⟩ := ih hrest htail
      refine ⟨k, by rw [rewriteFrom_text hc]; exact hcount, ?_⟩
      rw [List.filterMap_cons_none rfl, hnumbers]

/-- Behind a word, PostgreSQL reads no parameter. -/
example : pgDialect.read (rewritePlaceholders "LIMIT?".toList).1 =
    some ("LIMIT$1".toList.map Piece.text) := by decide +kernel

end Synora.Db
