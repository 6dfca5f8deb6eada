import Synora.Config.Schema
import Synora.Lib.Slice
import Synora.Lib.TomlLex

namespace Synora.Config
open Strings Toml

/-! # Expanding environment variables -/

def maxConfigBytes : ℕ := 16 * 1024 * 1024

inductive ScanState
  | code
  | basicString
  | literalString
deriving DecidableEq, Repr

section
variable (env : Text → Option Text) (file : String)

/-- `try_expand`, behind the `$`: the output, and the characters that are left. -/
def tryExpand (line : ℕ) (out chars : Text) : Except ConfigError (Text × Text) :=
  match chars with
  | '$' :: '{' :: rest => .ok (out ++ ['$', '{'], rest)
  | '$' :: rest => .ok (out ++ ['$'], rest)
  | '{' :: rest =>
    -- The name goes up to the next closing brace, on whatever line it is.
    match splitOnce ['}'] rest with
    | none => .error ⟨file, line, "unterminated $\x7b...\x7d"⟩
    | some (name, rest) =>
      if name = [] then .error ⟨file, line, "empty variable name in $\x7b\x7d"⟩
      else match env name with
      | some v => .ok (out ++ v, rest)
      | none =>
        .error ⟨file, line, "environment variable `" ++ String.ofList name ++ "` is not set"⟩
  | rest => .ok (out ++ ['$'], rest)

/-- The rest of a comment with the end of its line, the line number behind it, and what follows. -/
def copyComment (line : ℕ) (chars : Text) : Text × ℕ × Text :=
  match splitOnce ['\n'] chars with
  | some (comment, rest) => (comment ++ ['\n'], line + 1, rest)
  | none => (chars, line, [])

/-- The loop of `expand_env`. The first argument is at least the number of characters left. -/
def expandFrom : ℕ → ScanState → Bool → ℕ → Text → Text → Except ConfigError Text
  | _, _, _, _, out, [] => .ok out
  | 0, _, _, _, out, _ => .ok out
  | n + 1, state, escaped, line, out, c :: chars =>
    if maxConfigBytes < byteLen out then
      .error ⟨file, line, "expanded configuration exceeds 16 MiB"⟩
    else match state with
    -- Line breaks inside strings are not counted.
    | .basicString =>
      if escaped then expandFrom n state false line (out ++ [c]) chars
      else if c = '\\' then expandFrom n state true line (out ++ [c]) chars
      else if c = '"' then expandFrom n .code escaped line (out ++ [c]) chars
      else if c = '$' then (tryExpand env file line out chars).bind fun p =>
        expandFrom n state escaped line p.1 p.2
      else expandFrom n state escaped line (out ++ [c]) chars
    | .literalString =>
      if c = '\'' then expandFrom n .code escaped line (out ++ [c]) chars
      else expandFrom n state escaped line (out ++ [c]) chars
    | .code =>
      match c with
      | '#' =>
        let (comment, line, rest) := copyComment line chars
        expandFrom n state escaped line (out ++ c :: comment) rest
      | '"' => expandFrom n .basicString escaped line (out ++ [c]) chars
      | '\'' => expandFrom n .literalString escaped line (out ++ [c]) chars
      | '$' => (tryExpand env file line out chars).bind fun p =>
        expandFrom n state escaped line p.1 p.2
      | '\n' => expandFrom n state escaped (line + 1) (out ++ [c]) chars
      | _ => expandFrom n state escaped line (out ++ [c]) chars

/-- `expand_env` -/
def expandEnv (text : Text) : Except ConfigError Text :=
  expandFrom env file text.length .code false 1 [] text

end

/-! ## What the scanner reads -/

inductive Piece
  | copy (c : Char)
  /-- `$$`, or `$$` before an opening brace. -/
  | dollar (brace : Bool)
  | var (name : Text)
deriving DecidableEq, Repr

/-- What is written for it. -/
def Piece.value (env : Text → Option Text) : Piece → Option Text
  | .copy c => some [c]
  | .dollar true => some ['$', '{']
  | .dollar false => some ['$']
  | .var name => env name

def render (env : Text → Option Text) (ps : List Piece) : Option Text :=
  (ps.mapM (Piece.value env)).map List.flatten

/-- What a `$` and the characters behind it are read as. -/
def readDollar : Text → Option (Piece × Text)
  | '$' :: '{' :: rest => some (.dollar true, rest)
  | '$' :: rest => some (.dollar false, rest)
  | '{' :: rest => (splitOnce ['}'] rest).map fun p => (.var p.1, p.2)
  | rest => some (.copy '$', rest)

/-- The scanner behind a character that it copies. -/
def ScanState.next (escaped : Bool) (c : Char) : ScanState → ScanState × Bool
  | .basicString =>
    if escaped then (.basicString, false)
    else if c = '"' then (.code, false)
    else (.basicString, decide (c = '\\'))
  | .literalString => (if c = '\'' then .code else .literalString, escaped)
  | .code =>
    (if c = '"' then .basicString else if c = '\'' then .literalString else .code, escaped)

/-- The pieces that the scanner takes a text apart into. -/
def piecesFrom : ℕ → ScanState → Bool → Text → Option (List Piece)
  | _, _, _, [] => some []
  | 0, _, _, _ => none
  | n + 1, state, escaped, c :: chars =>
    if state = .code ∧ c = '#' then
      let (comment, _, rest) := copyComment 0 chars
      (piecesFrom n state escaped rest).map ((c :: comment).map .copy ++ ·)
    else if (state = .code ∨ state = .basicString ∧ escaped = false) ∧ c = '$' then
      (readDollar chars).bind fun p => (piecesFrom n state escaped p.2).map (p.1 :: ·)
    else (piecesFrom n (state.next escaped c).1 (state.next escaped c).2 chars).map (.copy c :: ·)

def pieces (text : Text) : Option (List Piece) := piecesFrom text.length .code false text

variable {env : Text → Option Text} {file : String}

theorem render_cons {piece : Piece} {ps : List Piece} {t d : Text}
    (ht : piece.value env = some t) (hd : render env ps = some d) :
    render env (piece :: ps) = some (t ++ d) := by
  obtain ⟨ds, hds, rfl⟩ := Option.map_eq_some_iff.mp hd
  rw [render, List.mapM_cons, ht, hds]
  rfl

theorem render_append {ps qs : List Piece} {t d : Text} (ht : render env ps = some t)
    (hd : render env qs = some d) : render env (ps ++ qs) = some (t ++ d) := by
  obtain ⟨ts, hts, rfl⟩ := Option.map_eq_some_iff.mp ht
  obtain ⟨ds, hds, rfl⟩ := Option.map_eq_some_iff.mp hd
  rw [render, List.mapM_append, hts, hds]
  exact congrArg some List.flatten_append

theorem render_copies (env : Text → Option Text) (t : Text) :
    render env (t.map .copy) = some t := by
  induction t with
  | nil => rfl
  | cons c t ih => exact render_cons (t := [c]) rfl ih

theorem tryExpand_ok {line : ℕ} {out chars out' rest : Text}
    (h : tryExpand env file line out chars = .ok (out', rest)) :
    ∃ piece d, readDollar chars = some (piece, rest) ∧ piece.value env = some d ∧
      out' = out ++ d ∧ rest.length ≤ chars.length := by
  unfold tryExpand at h
  split at h
  · cases h
    exact ⟨.dollar true, _, rfl, rfl, rfl, by simp only [List.length_cons]; omega⟩
  · rename_i hbrace
    cases h
    refine ⟨.dollar false, _, ?_, rfl, rfl, by simp⟩
    unfold readDollar
    split
    · rename_i heq
      cases heq
      exact absurd rfl (hbrace _)
    · rename_i heq
      cases heq
      rfl
    · rename_i heq
      cases heq
    · rename_i hnone _
      exact absurd rfl (hnone _)
  · rename_i text
    cases hname : splitOnce ['}'] text with
    | none =>
      rw [hname] at h
      cases h
    | some p =>
      obtain ⟨name, rest'⟩ := p
      rw [hname] at h
      simp only at h
      split at h
      · cases h
      · split at h
        · rename_i v hv
          cases h
          refine ⟨.var name, v, by simp [readDollar, hname], hv, rfl, ?_⟩
          have := splitOnce_length hname
          simp only [List.length_cons]
          omega
        · cases h
  · rename_i hdouble hsingle hopen
    cases h
    refine ⟨.copy '$', _, ?_, rfl, rfl, le_rfl⟩
    unfold readDollar
    split
    · exact absurd rfl (hdouble _)
    · exact absurd rfl (hsingle _)
    · exact absurd rfl (hopen _)
    · rfl

/-- Only the line number depends on the line. -/
theorem copyComment_eq (line : ℕ) (chars : Text) :
    (copyComment line chars).1 = (copyComment 0 chars).1 ∧
      (copyComment line chars).2.2 = (copyComment 0 chars).2.2 ∧
      (copyComment 0 chars).2.2.length ≤ chars.length := by
  unfold copyComment
  cases h : splitOnce ['\n'] chars with
  | none => exact ⟨rfl, rfl, Nat.zero_le _⟩
  | some p =>
    obtain ⟨comment, rest⟩ := p
    have hlen := splitOnce_length h
    exact ⟨rfl, rfl, by dsimp only; omega⟩

section
variable {n line : ℕ} {state : ScanState} {escaped : Bool} {c : Char} {out out' chars : Text}

/-- What the loop makes of the characters that are left is what their pieces are rendered to. -/
def Renders (env : Text → Option Text) (n : ℕ) (state : ScanState) (escaped : Bool)
    (out chars out' : Text) : Prop :=
  ∃ ps d, piecesFrom n state escaped chars = some ps ∧ render env ps = some d ∧ out' = out ++ d

theorem Renders.copy (hcomment : ¬(state = .code ∧ c = '#'))
    (hdollar : ¬((state = .code ∨ state = .basicString ∧ escaped = false) ∧ c = '$'))
    (h : Renders env n (state.next escaped c).1 (state.next escaped c).2 (out ++ [c]) chars out') :
    Renders env (n + 1) state escaped out (c :: chars) out' := by
  obtain ⟨ps, d, hps, hd, rfl⟩ := h
  refine ⟨.copy c :: ps, [c] ++ d, ?_, render_cons rfl hd, by simp⟩
  rw [piecesFrom, if_neg hcomment, if_neg hdollar, hps]
  rfl

theorem Renders.expand {rest t : Text} {piece : Piece}
    (hstate : state = .code ∨ state = .basicString ∧ escaped = false)
    (hread : readDollar chars = some (piece, rest)) (hvalue : piece.value env = some t)
    (h : Renders env n state escaped (out ++ t) rest out') :
    Renders env (n + 1) state escaped out ('$' :: chars) out' := by
  obtain ⟨ps, d, hps, hd, rfl⟩ := h
  refine ⟨piece :: ps, t ++ d, ?_, render_cons hvalue hd, by simp⟩
  rw [piecesFrom, if_neg (fun h => absurd h.2 (by decide)), if_pos ⟨hstate, rfl⟩, hread,
    Option.bind_some, hps]
  rfl

theorem Renders.comment
    (h : Renders env n .code escaped (out ++ '#' :: (copyComment 0 chars).1)
      (copyComment 0 chars).2.2 out') :
    Renders env (n + 1) .code escaped out ('#' :: chars) out' := by
  obtain ⟨ps, d, hps, hd, rfl⟩ := h
  refine ⟨('#' :: (copyComment 0 chars).1).map .copy ++ ps, ('#' :: (copyComment 0 chars).1) ++ d,
    ?_, render_append (render_copies env _) hd, by simp⟩
  rw [piecesFrom, if_pos ⟨rfl, rfl⟩]
  simp only [hps, Option.map_some]

/-- A `$` outside comments and literal strings. -/
theorem expandFrom_dollar
    (hstate : state = .code ∨ state = .basicString ∧ escaped = false)
    (ih : ∀ {line out chars}, chars.length ≤ n →
      expandFrom env file n state escaped line out chars = .ok out' →
      Renders env n state escaped out chars out')
    (hn : chars.length ≤ n)
    (h : ((tryExpand env file line out chars).bind fun p =>
      expandFrom env file n state escaped line p.1 p.2) = .ok out') :
    Renders env (n + 1) state escaped out ('$' :: chars) out' := by
  cases htry : tryExpand env file line out chars with
  | error e =>
    rw [htry] at h
    cases h
  | ok p =>
    obtain ⟨out₁, rest⟩ := p
    rw [htry] at h
    obtain ⟨piece, d, hread, hvalue, rfl, hlen⟩ := tryExpand_ok htry
    exact .expand hstate hread hvalue (ih (hlen.trans hn) h)

theorem expandFrom_ok (hn : chars.length ≤ n)
    (h : expandFrom env file n state escaped line out chars = .ok out') :
    Renders env n state escaped out chars out' := by
  induction n generalizing state escaped line out chars with
  | zero =>
    obtain rfl : chars = [] := List.length_eq_zero_iff.mp (Nat.le_zero.mp hn)
    cases h
    exact ⟨[], [], rfl, rfl, by simp⟩
  | succ n ih =>
    cases chars with
    | nil =>
      cases h
      exact ⟨[], [], rfl, rfl, by simp⟩
    | cons c chars =>
      have hlen : chars.length ≤ n := Nat.le_of_succ_le_succ hn
      rw [expandFrom.eq_def] at h
      dsimp only at h
      split at h
      · cases h
      cases state with
      | basicString =>
        simp only at h
        split at h
        · rename_i hescaped
          refine .copy (by simp) (by simp [hescaped]) ?_
          simpa [ScanState.next, hescaped] using ih hlen h
        · rename_i hescaped
          obtain rfl : escaped = false := Bool.eq_false_iff.mpr hescaped
          split at h
          · rename_i hc
            subst hc
            exact .copy (by simp) (by simp) (ih hlen h)
          · rename_i hback
            split at h
            · rename_i hc
              subst hc
              exact .copy (by simp) (by simp) (ih hlen h)
            · rename_i hquote
              split at h
              · rename_i hc
                subst hc
                exact expandFrom_dollar (Or.inr ⟨rfl, rfl⟩) ih hlen h
              · rename_i hdollar
                refine .copy (by simp) (by simp [hdollar]) ?_
                simpa [ScanState.next, hquote, hback] using ih hlen h
      | literalString =>
        simp only at h
        split at h
        · rename_i hc
          subst hc
          exact .copy (by simp) (by simp) (ih hlen h)
        · rename_i hc
          refine .copy (by simp) (by simp) ?_
          simpa [ScanState.next, hc] using ih hlen h
      | code =>
        simp only at h
        split at h
        · obtain ⟨hcomment, hrest, hshort⟩ := copyComment_eq line chars
          rw [hcomment, hrest] at h
          exact .comment (ih (hshort.trans hlen) h)
        · exact .copy (by simp) (by simp) (ih hlen h)
        · exact .copy (by simp) (by simp) (ih hlen h)
        · exact expandFrom_dollar (Or.inl rfl) ih hlen h
        · exact .copy (by simp) (by simp) (ih hlen h)
        · rename_i hhash hquote hliteral hdollar _
          refine .copy (by simpa using hhash) (by simpa using hdollar) ?_
          have hnext : ScanState.next escaped c .code = (.code, escaped) := by
            simp [ScanState.next, show c ≠ '"' from hquote, show c ≠ '\'' from hliteral]
          rw [hnext]
          exact ih hlen h

end

/-- What comes out of `expand_env` is what the pieces of the text are rendered to. -/
theorem expandEnv_ok {text out : Text} {ps : List Piece} (h : expandEnv env file text = .ok out)
    (hps : pieces text = some ps) : render env ps = some out := by
  obtain ⟨ps', d, hps', hd, rfl⟩ := expandFrom_ok le_rfl h
  obtain rfl : ps = ps' := Option.some.inj (hps.symm.trans hps')
  simpa using hd

/-! ## A reference inside a string -/

/-- `${name}` -/
def reference (name : Text) : Text := '$' :: '{' :: (name ++ ['}'])

/-- A reference in a text is read as one, or copied: the scanner takes the place for a part of a
literal string or of a comment. -/
inductive Occurrence (name : Text) : List Piece → Prop
  | read : Occurrence name [.var name]
  | copied : Occurrence name ((reference name).map .copy)

/-- A place in a text where `${name}` stands inside a basic string, once the other references have
the values that `env` gives them. -/
structure Place (env : Text → Option Text) (text name : Text) where
  before : List Piece
  mid : List Piece
  after : List Piece
  pieces_eq : pieces text = some (before ++ mid ++ after)
  occurs : Occurrence name mid
  name_bare : ∀ c ∈ name, IsBare c
  a : Text
  b : Text
  render_before : render env before = some a
  render_after : render env after = some b
  /-- The lexemes in front of the string. -/
  front : List Lexeme
  /-- What the string denotes before and behind the reference. -/
  left : Text
  right : Text
  /-- The lexemes behind the string. -/
  back : List Lexeme
  hole : Hole a b front left right back

section
variable {text name v : Text}

theorem render_congr {env' : Text → Option Text} {ps : List Piece}
    (h : ∀ piece ∈ ps, piece.value env' = piece.value env) : render env' ps = render env ps := by
  rw [render, render]
  congr 1
  induction ps with
  | nil => rfl
  | cons piece ps ih =>
    rw [List.forall_mem_cons] at h
    rw [List.mapM_cons, List.mapM_cons, h.1, ih h.2]

theorem reference_bare (h : ∀ c ∈ name, IsBare c) : ∀ c ∈ reference name, IsBare c := by
  have hdollar : IsBare '$' ∧ IsBare '{' ∧ IsBare '}' := by
    simp only [IsBare]
    decide
  intro c hc
  simp only [reference, List.mem_cons, List.mem_append, List.not_mem_nil, or_false] at hc
  rcases hc with rfl | rfl | hc | rfl
  · exact hdollar.1
  · exact hdollar.2.1
  · exact h c hc
  · exact hdollar.2.2

/-- The text that the parser gets when the variable has the value `v`. -/
theorem Place.expanded (p : Place env text name) {env' : Text → Option Text}
    (hothers : ∀ piece ∈ p.before ++ p.after, piece.value env' = piece.value env) {out t : Text}
    (hmid : render env' p.mid = some t) (hexpand : expandEnv env' file text = .ok out) :
    out = p.a ++ t ++ p.b := by
  have hbefore : render env' p.before = some p.a :=
    (render_congr fun piece h => hothers piece (List.mem_append_left _ h)).trans p.render_before
  have hafter : render env' p.after = some p.b :=
    (render_congr fun piece h => hothers piece (List.mem_append_right _ h)).trans p.render_after
  have hout := expandEnv_ok hexpand p.pieces_eq
  rw [render_append (render_append hbefore hmid) hafter] at hout
  exact (Option.some.inj hout).symm

theorem reference_ne (name : Text) : (reference name).map Piece.copy ≠ [.var name] := by
  simp [reference]

/-- Where `${name}` stands inside a basic string, for every environment that gives `v` to the name,
and to the other references what they had: the string denotes what it did with `v` in place of the
reference, and all lexemes around it are those that they are for any other value, exactly when the
reference is read and `v` holds no quote and no backslash, or it is not read and `v` spells it. -/
theorem values_verbatim_iff (p : Place env text name) (env' : Text → Option Text) (file : String)
    (v out : Text) (ls : List Lexeme) (hv : env' name = some v)
    (hothers : ∀ piece ∈ p.before ++ p.after, piece.value env' = piece.value env)
    (hexpand : expandEnv env' file text = .ok out) (hlex : lex out = some ls) :
    ls = p.front ++ .basic (p.left ++ v ++ p.right) :: p.back ↔
      p.mid = [.var name] ∧ '"' ∉ v ∧ '\\' ∉ v ∨ p.mid ≠ [.var name] ∧ v = reference name := by
  have hocc := p.occurs
  have hout (t : Text) (ht : render env' p.mid = some t) : out = p.a ++ t ++ p.b :=
    p.expanded hothers ht hexpand
  generalize p.mid = mid at hocc hout ⊢
  cases hocc with
  | read =>
    have hvar : (Piece.var name).value env' = some v := hv
    obtain rfl := hout v (by simpa using render_cons hvar (render_copies env' []))
    rw [p.hole.verbatim_iff hlex]
    simp
  | copied =>
    -- The string denotes the reference itself, whatever the value is.
    obtain rfl := hout (reference name) (render_copies env' _)
    rw [p.hole.fill (reference_bare p.name_bare)] at hlex
    cases hlex
    constructor
    · intro h
      have hval : Lexeme.basic (p.left ++ reference name ++ p.right) :: p.back =
          .basic (p.left ++ v ++ p.right) :: p.back := List.append_cancel_left h
      rw [List.cons.injEq, Lexeme.basic.injEq] at hval
      have hspelled := List.append_cancel_left (List.append_cancel_right hval.1)
      exact Or.inr ⟨reference_ne name, hspelled.symm⟩
    · rintro (⟨hread, -⟩ | ⟨-, rfl⟩)
      · exact absurd hread (reference_ne name)
      · rfl

end

/-! A token out of the environment, as `examples/simple.toml` has it. -/

def tokenText : Text := "token = \"".toList ++ reference "T".toList ++ "\"\n".toList

def tokenEnv (v : Text) : Text → Option Text := fun name =>
  if name = "T".toList then some v else none

def tokenPlace : Place (fun _ => none) tokenText "T".toList where
  before := "token = \"".toList.map .copy
  mid := [.var "T".toList]
  after := "\"\n".toList.map .copy
  pieces_eq := by decide
  occurs := .read
  name_bare := by simp [IsBare, isPrintable]
  a := "token = \"".toList
  b := "\"\n".toList
  render_before := render_copies _ _
  render_after := render_copies _ _
  front := "token = ".toList.map .code
  left := []
  right := []
  back := [.code '\n']
  hole := ⟨Or.inr ⟨by decide, rfl⟩, "\n".toList, by decide, by decide⟩

theorem plain_value_verbatim : ∃ out ls,
    expandEnv (tokenEnv "s3cret".toList) "synora.toml" tokenText = .ok out ∧ lex out = some ls ∧
      ls = tokenPlace.front ++ .basic (tokenPlace.left ++ "s3cret".toList ++ tokenPlace.right) ::
        tokenPlace.back :=
  ⟨_, _, rfl, rfl, (values_verbatim_iff tokenPlace (tokenEnv "s3cret".toList) "synora.toml" _ _ _
    rfl (by decide) rfl rfl).mpr (Or.inl ⟨rfl, by decide, by decide⟩)⟩

/-- A value with a quote in it ends the string and sets a key of its own. -/
theorem quoted_value_injects : ∃ out ls,
    expandEnv (tokenEnv "x\"\nrole = \"admin".toList) "synora.toml" tokenText = .ok out ∧
      out = "token = \"x\"\nrole = \"admin\"\n".toList ∧ lex out = some ls ∧
      ls ≠ tokenPlace.front ++ .basic (tokenPlace.left ++ "x\"\nrole = \"admin".toList ++
        tokenPlace.right) :: tokenPlace.back :=
  ⟨_, _, rfl, by decide, rfl, by decide⟩

end Synora.Config
