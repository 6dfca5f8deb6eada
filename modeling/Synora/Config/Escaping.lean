import Synora.Config.Expand

namespace Synora.Config
open Strings

/-! # Escaping what would be expanded -/

/-- What the scanner takes a character for. -/
inductive Region
  | code
  | comment
  | basic (escaped : Bool)
  | literal
deriving DecidableEq, Repr

def Region.next (c : Char) : Region → Region
  | code =>
    if c = '#' then comment else if c = '"' then basic false else if c = '\'' then literal else code
  | comment => if c = '\n' then code else comment
  | basic true => basic false
  | basic false => if c = '"' then code else basic (decide (c = '\\'))
  | literal => if c = '\'' then code else literal

/-- A `$` is interpreted outside comments and literal strings, and not behind a backslash. -/
def Region.scans : Region → Bool
  | code => true
  | basic escaped => !escaped
  | _ => false

/-- Every `$` that would be interpreted is doubled. -/
def esc : Region → Text → Text
  | _, [] => []
  | region, c :: cs =>
    if region.scans ∧ c = '$' then '$' :: '$' :: esc region cs else c :: esc (region.next c) cs

def ScanState.region (escaped : Bool) : ScanState → Region
  | code => .code
  | basicString => .basic escaped
  | literalString => .literal

section
variable {region : Region} {c : Char} {cs : Text}

theorem esc_dollar (h : region.scans) : esc region ('$' :: cs) = '$' :: '$' :: esc region cs := by
  rw [esc, if_pos ⟨h, rfl⟩]

theorem esc_plain (h : ¬(region.scans ∧ c = '$')) :
    esc region (c :: cs) = c :: esc (region.next c) cs := by
  rw [esc, if_neg h]

/-- An opening brace is copied, and does not change what follows it. -/
theorem esc_brace (h : region.scans) : esc region ('{' :: cs) = '{' :: esc region cs := by
  have hnext : region.next '{' = region := by
    cases region with
    | code => rfl
    | comment => cases h
    | basic escaped =>
      cases escaped with
      | true => cases h
      | false => rfl
    | literal => cases h
  rw [esc_plain (by simp), hnext]

theorem head_esc (h : cs.head? ≠ some '{') : (esc region cs).head? ≠ some '{' := by
  cases cs with
  | nil => exact h
  | cons c cs =>
    rw [esc]
    split_ifs
    · simp
    · exact h

theorem copyComment_newline (line : ℕ) (t : Text) :
    copyComment line ('\n' :: t) = (['\n'], line + 1, t) := by
  have hsplit : splitOnce ['\n'] ('\n' :: t) = some ([], t) := splitOnce_hit ['\n'] t
  rw [copyComment, hsplit]
  rfl

theorem copyComment_cons {c : Char} (hc : c ≠ '\n') (line : ℕ) (t : Text) :
    copyComment line (c :: t) =
      (c :: (copyComment line t).1, (copyComment line t).2.1, (copyComment line t).2.2) := by
  have hmiss : splitOnce ['\n'] (c :: t) =
      (splitOnce ['\n'] t).map fun p => (c :: p.1, p.2) := by
    rw [splitOnce, if_neg (by simp [Ne.symm hc])]
  rw [copyComment, copyComment, hmiss]
  cases splitOnce ['\n'] t <;> rfl

/-- A comment is left as it is, up to the end of its line. -/
theorem copyComment_esc (line : ℕ) (cs : Text) : ∃ comment rest line',
    copyComment line (esc .comment cs) = (comment, line', esc .code rest) ∧
      cs = comment ++ rest := by
  induction cs with
  | nil => exact ⟨[], [], line, rfl, rfl⟩
  | cons c cs ih =>
    have hplain : ¬(Region.comment.scans ∧ c = '$') := fun h => absurd h.1 (by decide)
    rw [esc_plain hplain]
    by_cases hc : c = '\n'
    · subst hc
      exact ⟨['\n'], cs, line + 1, copyComment_newline line _, rfl⟩
    · obtain ⟨comment, rest, line', hcopy, rfl⟩ := ih
      have hnext : Region.comment.next c = .comment := if_neg hc
      exact ⟨c :: comment, rest, line', by rw [hnext, copyComment_cons hc, hcopy], rfl⟩

end

section
variable {env : Text → Option Text} {file : String}

/-- Behind a `$` that has been doubled, the scanner writes one and goes on in the same way. -/
theorem tryExpand_esc {region : Region} (h : region.scans) (line : ℕ) (out cs : Text) :
    ∃ done rest, tryExpand env file line out ('$' :: esc region cs) =
      .ok (out ++ '$' :: done, esc region rest) ∧ cs = done ++ rest ∧
      (esc region rest).length ≤ (esc region cs).length := by
  by_cases hbrace : ∃ rest, cs = '{' :: rest
  · obtain ⟨rest, rfl⟩ := hbrace
    rw [esc_brace h]
    exact ⟨['{'], rest, rfl, rfl, Nat.le_succ _⟩
  · refine ⟨[], cs, ?_, rfl, le_rfl⟩
    have hhead : (esc region cs).head? ≠ some '{' := by
      apply head_esc
      intro hhead
      obtain ⟨rest, rfl⟩ := List.head?_eq_some_iff.mp hhead
      exact hbrace ⟨rest, rfl⟩
    unfold tryExpand
    split
    · rename_i heq
      rw [(List.cons.inj heq).2] at hhead
      exact absurd rfl hhead
    · rename_i heq
      rw [(List.cons.inj heq).2]
    · rename_i heq
      exact absurd (List.cons.inj heq).1 (by decide)
    · rename_i hnone _
      exact absurd rfl (hnone _)

/-- A character that is neither interpreted nor begins a comment is copied. -/
theorem expandFrom_copy {n line : ℕ} {state : ScanState} {escaped : Bool} {c : Char}
    {out chars : Text} (hroom : ¬maxConfigBytes < byteLen out)
    (hcomment : ¬(state = .code ∧ c = '#')) (hdollar : ¬((state.region escaped).scans ∧ c = '$')) :
    ∃ line', expandFrom env file (n + 1) state escaped line out (c :: chars) =
      expandFrom env file n (state.next escaped c).1 (state.next escaped c).2 line' (out ++ [c])
        chars := by
  rw [expandFrom.eq_def]
  dsimp only
  rw [if_neg hroom]
  cases state with
  | basicString =>
    cases escaped with
    | true => exact ⟨line, rfl⟩
    | false =>
      have hc : c ≠ '$' := fun hc => hdollar ⟨rfl, hc⟩
      by_cases hback : c = '\\'
      · subst hback
        exact ⟨line, rfl⟩
      by_cases hquote : c = '"'
      · subst hquote
        exact ⟨line, rfl⟩
      exact ⟨line, by simp [ScanState.next, hback, hquote, hc]⟩
  | literalString =>
    by_cases hquote : c = '\''
    · subst hquote
      exact ⟨line, rfl⟩
    · exact ⟨line, by simp [ScanState.next, hquote]⟩
  | code =>
    have hhash : c ≠ '#' := fun hc => hcomment ⟨rfl, hc⟩
    have hc : c ≠ '$' := fun hc => hdollar ⟨rfl, hc⟩
    simp only
    split
    · exact absurd rfl hhash
    · exact ⟨line, rfl⟩
    · exact ⟨line, rfl⟩
    · exact absurd rfl hc
    · exact ⟨line + 1, rfl⟩
    · rename_i hquote hliteral _ _
      exact ⟨line, by simp [ScanState.next, show c ≠ '"' from hquote, show c ≠ '\'' from hliteral]⟩

theorem expandFrom_interpret {n line : ℕ} {state : ScanState} {escaped : Bool} {out chars : Text}
    (hroom : ¬maxConfigBytes < byteLen out) (hscans : (state.region escaped).scans) :
    expandFrom env file (n + 1) state escaped line out ('$' :: chars) =
      (tryExpand env file line out chars).bind fun p =>
        expandFrom env file n state escaped line p.1 p.2 := by
  rw [expandFrom.eq_def]
  dsimp only
  rw [if_neg hroom]
  cases state with
  | basicString =>
    cases escaped with
    | true => cases hscans
    | false => rfl
  | literalString => cases hscans
  | code => rfl

theorem expandFrom_comment {n line : ℕ} {escaped : Bool} {out chars : Text}
    (hroom : ¬maxConfigBytes < byteLen out) :
    expandFrom env file (n + 1) .code escaped line out ('#' :: chars) =
      expandFrom env file n .code escaped (copyComment line chars).2.1
        (out ++ '#' :: (copyComment line chars).1) (copyComment line chars).2.2 := by
  rw [expandFrom.eq_def]
  dsimp only
  rw [if_neg hroom]
  rfl

theorem mode_next {state : ScanState} {escaped : Bool} {c : Char}
    (hescaped : escaped = true → state = .basicString) (hcomment : ¬(state = .code ∧ c = '#')) :
    ((state.next escaped c).1.region (state.next escaped c).2) = (state.region escaped).next c ∧
      ((state.next escaped c).2 = true → (state.next escaped c).1 = .basicString) := by
  cases state with
  | basicString =>
    cases escaped with
    | true => exact ⟨rfl, fun h => absurd h Bool.false_ne_true⟩
    | false =>
      by_cases hquote : c = '"'
      · subst hquote
        exact ⟨rfl, fun h => absurd h Bool.false_ne_true⟩
      · simp [ScanState.next, ScanState.region, Region.next, hquote]
  | literalString =>
    obtain rfl : escaped = false := by
      cases escaped with
      | true => cases hescaped rfl
      | false => rfl
    by_cases hquote : c = '\''
    · subst hquote
      exact ⟨rfl, fun h => absurd h Bool.false_ne_true⟩
    · simp [ScanState.next, ScanState.region, Region.next, hquote]
  | code =>
    obtain rfl : escaped = false := by
      cases escaped with
      | true => cases hescaped rfl
      | false => rfl
    have hhash : c ≠ '#' := fun hc => hcomment ⟨rfl, hc⟩
    unfold ScanState.next Region.next ScanState.region
    simp only [hhash, if_false]
    split_ifs <;> simp

/-- What the loop still has to write is the text that was escaped. -/
theorem expandFrom_esc {n line : ℕ} {state : ScanState} {escaped : Bool} {out text : Text}
    (hn : (esc (state.region escaped) text).length ≤ n)
    (hsize : byteLen out + byteLen text ≤ maxConfigBytes)
    (hescaped : escaped = true → state = .basicString) :
    expandFrom env file n state escaped line out (esc (state.region escaped) text) =
      .ok (out ++ text) := by
  induction n generalizing line state escaped out text with
  | zero =>
    cases text with
    | nil => rw [List.append_nil]; rfl
    | cons c cs =>
      rw [esc] at hn
      split_ifs at hn <;> simp at hn
  | succ n ih =>
    cases text with
    | nil => rw [List.append_nil]; rfl
    | cons c cs =>
      rw [byteLen_cons] at hsize
      have hroom : ¬maxConfigBytes < byteLen out := by omega
      have hgrown (done rest : Text) (h : c :: cs = done ++ rest) :
          byteLen (out ++ done) + byteLen rest ≤ maxConfigBytes := by
        rw [byteLen_append, Nat.add_assoc, ← byteLen_append, ← h, byteLen_cons]
        exact hsize
      by_cases hdollar : (state.region escaped).scans ∧ c = '$'
      · obtain ⟨hscans, rfl⟩ := hdollar
        obtain ⟨done, rest, htry, rfl, hshort⟩ :=
          @tryExpand_esc env file _ hscans line out cs
        rw [esc_dollar hscans] at hn ⊢
        rw [expandFrom_interpret hroom hscans, htry]
        change expandFrom env file n state escaped line _ _ = _
        have hlen : (esc (state.region escaped) rest).length ≤ n := by
          rw [List.length_cons, List.length_cons] at hn
          omega
        rw [ih hlen (hgrown _ _ rfl) hescaped, List.append_assoc]
        rfl
      · rw [esc_plain hdollar] at hn ⊢
        by_cases hcomment : state = .code ∧ c = '#'
        · obtain ⟨rfl, rfl⟩ := hcomment
          obtain ⟨comment, rest, line', hcopy, rfl⟩ := copyComment_esc line cs
          have hnext : (ScanState.code.region escaped).next '#' = .comment := rfl
          obtain ⟨-, hrest, hshort⟩ := copyComment_eq line (esc .comment (comment ++ rest))
          rw [← hrest, hcopy] at hshort
          rw [hnext] at hn ⊢
          rw [expandFrom_comment hroom, hcopy]
          have hlen : (esc (ScanState.code.region escaped) rest).length ≤ n :=
            le_trans hshort (Nat.le_of_succ_le_succ hn)
          exact (ih hlen (hgrown ('#' :: comment) rest rfl) hescaped).trans (by simp)
        · obtain ⟨hmode, hnext⟩ := mode_next hescaped hcomment
          obtain ⟨line', hstep⟩ := @expandFrom_copy env file n line state escaped c out
            (esc ((state.region escaped).next c) cs) hroom hcomment hdollar
          rw [hstep, ← hmode, ih _ (hgrown _ _ rfl) hnext, List.append_assoc, List.singleton_append]
          rw [hmode]
          exact Nat.le_of_succ_le_succ hn

theorem expandEnv_esc {text : Text} (h : byteLen text ≤ maxConfigBytes) :
    expandEnv env file (esc .code text) = .ok text :=
  @expandFrom_esc env file _ 1 .code false [] text le_rfl (by simpa using h)
    fun h => absurd h Bool.false_ne_true

end

/-! ## What the pieces say of a text -/

/-- What a piece is read from. -/
def Piece.source : Piece → Text
  | .copy c => [c]
  | .dollar true => ['$', '$', '{']
  | .dollar false => ['$', '$']
  | .var name => reference name

/-- The name of a variable is not scanned. -/
def Region.read (region : Region) : Piece → Region
  | .copy c => region.next c
  | _ => region

def Region.after (region : Region) (ps : List Piece) : Region := ps.foldl Region.read region

/-- In comments and literal strings every character is copied. -/
def Quiet (region : Region) (ps : List Piece) : Prop := ∀ before piece after,
  ps = before ++ piece :: after → region.after before = .comment ∨ region.after before = .literal →
  ∃ c, piece = .copy c

section
variable {region : Region} {piece : Piece} {ps qs : List Piece}

theorem quiet_nil : Quiet region [] := by
  intro before piece after h
  simp at h

theorem Quiet.cons (hpiece : region = .comment ∨ region = .literal → ∃ c, piece = .copy c)
    (h : Quiet (region.read piece) ps) : Quiet region (piece :: ps) := by
  intro before p after hsplit hmode
  cases before with
  | nil =>
    obtain ⟨rfl, -⟩ := List.cons.inj hsplit
    exact hpiece hmode
  | cons q before =>
    obtain ⟨rfl, hrest⟩ := List.cons.inj hsplit
    exact h before p after hrest hmode

theorem Quiet.copies (t : Text) (h : Quiet (region.after (t.map .copy)) ps) :
    Quiet region (t.map .copy ++ ps) := by
  induction t generalizing region with
  | nil => exact h
  | cons c t ih => exact .cons (fun _ => ⟨c, rfl⟩) (ih h)

theorem source_copies (t : Text) : (t.map Piece.copy).flatMap Piece.source = t := by
  induction t with
  | nil => rfl
  | cons c t ih => rw [List.map_cons, List.flatMap_cons, ih]; rfl

theorem readDollar_source {chars rest : Text} (h : readDollar chars = some (piece, rest)) :
    '$' :: chars = piece.source ++ rest := by
  unfold readDollar at h
  split at h
  · cases h
    rfl
  · cases h
    rfl
  · rename_i text
    obtain ⟨⟨name, after⟩, hname, heq⟩ := Option.map_eq_some_iff.mp h
    cases heq
    rw [splitOnce_eq_append hname]
    simp [Piece.source, reference]
  · cases h
    rfl

theorem read_of_scans (h : region.scans) {chars rest : Text}
    (hread : readDollar chars = some (piece, rest)) : region.read piece = region := by
  have hnext : region.next '$' = region := by
    cases region with
    | code => rfl
    | comment => cases h
    | basic escaped =>
      cases escaped with
      | true => cases h
      | false => rfl
    | literal => cases h
  unfold readDollar at hread
  split at hread
  · cases hread
    rfl
  · cases hread
    rfl
  · obtain ⟨p, -, heq⟩ := Option.map_eq_some_iff.mp hread
    cases heq
    rfl
  · cases hread
    exact hnext

/-- Inside a comment only the end of the line counts. -/
theorem after_comment {comment : Text} (h : '\n' ∉ comment) :
    Region.comment.after ((comment ++ ['\n']).map .copy) = .code := by
  induction comment with
  | nil => rfl
  | cons c comment ih =>
    rw [List.mem_cons, not_or] at h
    have hnext : Region.comment.next c = .comment := if_neg (Ne.symm h.1)
    rw [List.cons_append, List.map_cons, Region.after, List.foldl_cons, Region.read, hnext]
    exact ih h.2

theorem splitOnce_before {c : Char} {t before rest : Text}
    (h : splitOnce [c] t = some (before, rest)) : c ∉ before := by
  induction t generalizing before with
  | nil => simp [splitOnce] at h
  | cons d t ih =>
    rw [splitOnce] at h
    split at h
    · cases h
      exact List.not_mem_nil
    · rename_i hne
      obtain ⟨p, hp, heq⟩ := Option.map_eq_some_iff.mp h
      cases heq
      rw [List.mem_cons, not_or]
      refine ⟨?_, ih hp⟩
      rintro rfl
      simp at hne

end

/-- The scanner is back in code behind a comment, unless nothing follows it. -/
theorem copyComment_read (chars : Text) :
    (copyComment 0 chars).1 ++ (copyComment 0 chars).2.2 = chars ∧
      ((copyComment 0 chars).2.2 = [] ∨
        Region.comment.after ((copyComment 0 chars).1.map .copy) = .code) := by
  unfold copyComment
  cases hsplit : splitOnce ['\n'] chars with
  | none => exact ⟨List.append_nil chars, .inl rfl⟩
  | some p =>
    refine ⟨?_, .inr (after_comment (splitOnce_before hsplit))⟩
    rw [splitOnce_eq_append hsplit, List.append_assoc]

/-- The pieces are read from the whole text, in order, and nothing in a comment or a literal string
is taken for more than itself. -/
theorem piecesFrom_quiet {n : ℕ} {state : ScanState} {escaped : Bool} {text : Text}
    {ps : List Piece} (hescaped : escaped = true → state = .basicString)
    (h : piecesFrom n state escaped text = some ps) :
    ps.flatMap Piece.source = text ∧ Quiet (state.region escaped) ps := by
  induction n generalizing state escaped text ps with
  | zero =>
    cases text with
    | nil =>
      cases h
      exact ⟨rfl, quiet_nil⟩
    | cons c chars => cases h
  | succ n ih =>
    cases text with
    | nil =>
      cases h
      exact ⟨rfl, quiet_nil⟩
    | cons c chars =>
      rw [piecesFrom] at h
      split_ifs at h with hcomment hdollar
      · obtain ⟨rfl, rfl⟩ := hcomment
        dsimp only at h
        obtain ⟨qs, hqs, rfl⟩ := Option.map_eq_some_iff.mp h
        obtain ⟨hsource, hquiet⟩ := ih hescaped hqs
        obtain ⟨hwhole, hend⟩ := copyComment_read chars
        refine ⟨?_, .copies _ ?_⟩
        · rw [List.flatMap_append, source_copies, hsource, List.cons_append, hwhole]
        · obtain hnil | hcode := hend
          · rw [hnil] at hqs
            have hqs' : qs = [] := by
              cases n <;> cases hqs <;> rfl
            rw [hqs']
            exact quiet_nil
          · have hmode : (ScanState.code.region escaped).after
                (('#' :: (copyComment 0 chars).1).map .copy) = .code := hcode
            rwa [hmode]
      · obtain ⟨hstate, rfl⟩ := hdollar
        have hscans : (state.region escaped).scans := by
          obtain rfl | ⟨rfl, rfl⟩ := hstate <;> rfl
        obtain ⟨⟨piece, rest⟩, hread, h⟩ := Option.bind_eq_some_iff.mp h
        obtain ⟨qs, hqs, rfl⟩ := Option.map_eq_some_iff.mp h
        obtain ⟨hsource, hquiet⟩ := ih hescaped hqs
        refine ⟨?_, .cons ?_ ?_⟩
        · rw [List.flatMap_cons, hsource, readDollar_source hread]
        · rintro (hmode | hmode) <;> rw [hmode] at hscans <;> cases hscans
        · rwa [read_of_scans hscans hread]
      · obtain ⟨qs, hqs, rfl⟩ := Option.map_eq_some_iff.mp h
        obtain ⟨hmode, hnext⟩ := mode_next hescaped hcomment
        obtain ⟨hsource, hquiet⟩ := ih hnext hqs
        rw [hmode] at hquiet
        exact ⟨by rw [List.flatMap_cons, hsource]; rfl, .cons (fun _ => ⟨c, rfl⟩) hquiet⟩

theorem render_none {ps : List Piece} {d : Text} (h : render (fun _ => none) ps = some d) :
    ∀ name, Piece.var name ∉ ps := by
  intro name hmem
  induction ps generalizing d with
  | nil => cases hmem
  | cons piece ps ih =>
    obtain ⟨ds, hds, -⟩ := Option.map_eq_some_iff.mp h
    rw [List.mapM_cons] at hds
    obtain ⟨t, ht, hrest⟩ := Option.bind_eq_some_iff.mp hds
    obtain ⟨ts, hts, -⟩ := Option.bind_eq_some_iff.mp hrest
    obtain rfl | hmem := List.mem_cons.mp hmem
    · cases ht
    · exact ih (d := ts.flatten) (by rw [render, hts]; rfl) hmem

/-- An escaped text expands to itself whatever the environment holds, since no variable is read in
it; and what any text expands to is put together from pieces that do not depend on the environment,
the values as they are, comments and literal strings character by character. -/
theorem dollar_escaping (file : String) :
    (∀ text, byteLen text ≤ maxConfigBytes →
      (∀ env, expandEnv env file (esc .code text) = .ok text) ∧
      ∃ ps, pieces (esc .code text) = some ps ∧ ∀ name, .var name ∉ ps) ∧
    ∀ env text out, expandEnv env file text = .ok out → ∃ ps, pieces text = some ps ∧
      ps.flatMap Piece.source = text ∧ render env ps = some out ∧ Quiet .code ps := by
  have hread {env : Text → Option Text} {text out : Text}
      (h : expandEnv env file text = .ok out) :
      ∃ ps, pieces text = some ps ∧ render env ps = some out := by
    obtain ⟨ps, d, hps, hd, rfl⟩ := expandFrom_ok le_rfl h
    exact ⟨ps, hps, hd⟩
  constructor
  · intro text htext
    refine ⟨fun env => expandEnv_esc htext, ?_⟩
    obtain ⟨ps, hps, hd⟩ := hread (@expandEnv_esc (fun _ => none) file text htext)
    exact ⟨ps, hps, render_none hd⟩
  · intro env text out h
    obtain ⟨ps, hps, hd⟩ := hread h
    obtain ⟨hsource, hquiet⟩ := @piecesFrom_quiet _ .code false _ _
      (fun h => absurd h Bool.false_ne_true) hps
    exact ⟨ps, hps, hsource, hd, hquiet⟩

end Synora.Config
