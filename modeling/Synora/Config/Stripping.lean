import Synora.Config.JobFile

namespace Synora.Config
open Strings Toml

/-! ## Sorting statements in pieces -/

theorem sections_none_own (es : List Expr) : (sections none es).own = [] := by
  induction es with
  | nil => rfl
  | cons e es ih =>
    rw [sections]
    split
    · rfl
    · simp only [Option.map_none, ite_self, reduceCtorEq, ↓reduceIte]
      exact ih

/-- Statements that do not go on with the job before. -/
structure Apart (es : List Expr) : Prop where
  head : ∀ e ∈ es.head?, e.isHeader = true
  foreign : ∀ e ∈ es.takeWhile (!isJob ·), underJobs e = false

theorem Apart.nil : Apart [] := ⟨by simp, by simp⟩

theorem Apart.append {a b : List Expr} (ha : Apart a) (hb : Apart b) : Apart (a ++ b) := by
  cases a with
  | nil => exact hb
  | cons e a =>
    refine ⟨ha.head, fun x hx => ?_⟩
    rw [List.takeWhile_append] at hx
    split at hx
    · rename_i hall
      rcases List.mem_append.mp hx with hx | hx
      · refine ha.foreign x ?_
        rwa [(List.takeWhile_prefix _).eq_of_length hall]
      · exact hb.foreign x hx
    · exact ha.foreign x hx

theorem sections_foreign {es : List Expr} (h : ∀ e ∈ es.takeWhile (!isJob ·), underJobs e = false) :
    sections (some false) es = sections none es := by
  induction es with
  | nil => rfl
  | cons e es ih =>
    rw [sections, sections]
    split
    · rfl
    · rename_i hjob
      rw [List.takeWhile_cons_of_pos (by simpa using hjob), List.forall_mem_cons] at h
      simp only [Option.map_none, Option.map_some, h.1, ite_self, Option.some.injEq,
        Bool.false_eq_true, reduceCtorEq, ↓reduceIte, ih h.2]

theorem sections_apart {es : List Expr} (h : Apart es) (inJob : Option Bool) :
    sections inJob es = sections none es := by
  cases es with
  | nil => rfl
  | cons e es =>
    rw [sections, sections]
    split
    · rfl
    · rename_i hjob
      have hforeign := h.foreign
      rw [List.takeWhile_cons_of_pos (by simpa using hjob), List.forall_mem_cons] at hforeign
      rw [if_pos (h.head e rfl), if_pos (h.head e rfl)]
      cases inJob with
      | none => rfl
      | some b =>
        simp only [Option.map_none, Option.map_some, hforeign.1, Option.some.injEq,
          Bool.false_eq_true, reduceCtorEq, ↓reduceIte, sections_foreign hforeign.2]

theorem sections_append (inJob : Option Bool) (a : List Expr) {b : List Expr} (hb : Apart b) :
    sections inJob (a ++ b) = ⟨(sections inJob a).rest ++ (sections none b).rest,
      (sections inJob a).own, (sections inJob a).jobs ++ (sections none b).jobs⟩ := by
  induction a generalizing inJob with
  | nil =>
    have hown := sections_none_own b
    rw [List.nil_append, sections_apart hb, sections]
    simp only [List.nil_append]
    rw [← hown]
  | cons e a ih =>
    rw [List.cons_append, sections, sections]
    split
    · simp only [ih, List.cons_append]
    · simp only [ih]
      generalize (if e.isHeader then inJob.map fun _ => underJobs e else inJob) = inJob'
      by_cases hin : inJob' = some true
      · simp only [hin, ↓reduceIte]
      · simp only [hin, ↓reduceIte, List.cons_append]

/-- The statements of one job. -/
theorem sections_own {es : List Expr} (hheader : ∀ e ∈ es, e.isHeader → underJobs e = true)
    (hjob : ∀ e ∈ es, isJob e = false) : sections (some true) es = ⟨[], es, []⟩ := by
  induction es with
  | nil => rfl
  | cons e es ih =>
    rw [List.forall_mem_cons] at hheader hjob
    have hin : (if e.isHeader then (some true).map fun _ => underJobs e else some true) =
        some true := by
      split
      · rename_i h
        rw [Option.map_some, hheader.1 h]
      · rfl
    rw [sections, if_neg (by simp [hjob.1])]
    simp only [hin, ↓reduceIte, ih hheader.2 hjob.2]

/-! ## The lines of a part -/

variable {r : Reader} {strict : Bool}

theorem lines_jobsHeader (t : Text) :
    ∃ line, lines (jobsHeader ++ t) = (jobsHeader ++ line) :: (lines t).tail := by
  rcases eq_or_ne t [] with rfl | hne
  · exact ⟨[], rfl⟩
  · have hn : '\n' ∉ jobsHeader := by decide
    have hr : '\r' ∉ jobsHeader := by decide
    obtain ⟨line, ls, hlines, hheader⟩ := lines_indent hn hr hne
    exact ⟨line, by rw [hheader, hlines, List.tail_cons]⟩

/-- A part is a job header, and statements of the lines below. -/
theorem read_part (hr : r.Lawful) {t : Text} {es : List Expr}
    (h : r.readLines strict (lines (jobsHeader ++ t)) = some es) :
    ∃ own, es = .arrayTable [jobsKey] :: own ∧
      ∀ e ∈ own, ∃ line ∈ (lines t).tail, ∃ ls, r.parse (line :: ls) = some e := by
  obtain ⟨line, hlines⟩ := lines_jobsHeader t
  rw [hlines] at h
  obtain ⟨e, own, ls, rfl, hparse, hown⟩ := head_readLines h
  have hheader : jobsHeader <+: trim (jobsHeader ++ line) :=
    prefix_trim (c := '[') (d := ']') (by decide) (by decide) "[jobs]".toList line
  have he := hr.arrayHeader jobsKey _ ls e (by decide) (List.isPrefixOf_iff_prefix.mpr hheader)
    hparse
  exact ⟨own, by rw [he]; rfl, hown⟩

/-- Lines that start no section hold statements of the job. -/
theorem own_of_lines (hr : r.Lawful) {t line : Text} {ls : List Text} {e : Expr}
    (ht : ¬jobsHeader <:+: t) (hline : line ∈ lines t) (hsection : startsSection line = false)
    (hparse : r.parse (line :: ls) = some e) :
    isJob e = false ∧ (e.isHeader → underJobs e = true) := by
  by_cases he : e.isHeader = true
  · obtain ⟨path, rfl⟩ : ∃ path, e = .table (jobsKey :: path) := by
      refine hr.subtable jobsKey line ls e (by decide) ?_ hparse
      have hopen : "[".toList.isPrefixOf (trim line) = true := by
        have hhead := (hr.header line ls e hparse).mp he
        cases htrim : trim line with
        | nil => simp [htrim] at hhead
        | cons c cs =>
          obtain rfl : c = '[' := by simpa [htrim] using hhead
          rfl
      have hnot : jobsHeader.isPrefixOf (trim line) = false := by
        rw [← Bool.not_eq_true, List.isPrefixOf_iff_prefix]
        intro hpre
        exact ht ((hpre.isInfix.trans (infix_trim line)).trans (infix_of_mem_lines hline))
      simp only [startsSection, hopen, hnot, Bool.true_and, Bool.not_false, Bool.and_true,
        Bool.not_eq_false'] at hsection
      exact hsection
    exact ⟨rfl, fun _ => by simp [underJobs]⟩
  · refine ⟨?_, fun h => absurd h he⟩
    cases e <;> simp_all [isJob, Expr.isHeader]

/-! ## Splitting -/

/-- The parts and the headers between them are the text. -/
theorem splitAll_join (pat : Text) (fuel : ℕ) (t : Text) :
    ∃ first parts, splitAll pat fuel t = first :: parts ∧
      t = first ++ parts.flatMap (pat ++ ·) := by
  induction fuel generalizing t with
  | zero => exact ⟨t, [], rfl, (List.append_nil t).symm⟩
  | succ fuel ih =>
    rw [splitAll]
    split
    · exact ⟨t, [], rfl, (List.append_nil t).symm⟩
    · rename_i before rest hsplit
      obtain ⟨first, parts, heq, hrest⟩ := ih rest
      refine ⟨before, first :: parts, by rw [heq], ?_⟩
      rw [splitOnce_eq_append hsplit, List.flatMap_cons, List.append_assoc, ← hrest]

/-- No part holds the pattern. -/
theorem not_infix_of_mem_splitAll {pat part : Text} {fuel : ℕ} {t : Text} (hne : pat ≠ [])
    (hfuel : t.length ≤ fuel) (h : part ∈ splitAll pat fuel t) : ¬pat <:+: part := by
  induction fuel generalizing t with
  | zero =>
    obtain rfl : t = [] := List.length_eq_zero_iff.mp (Nat.le_zero.mp hfuel)
    rw [splitAll, List.mem_singleton] at h
    simpa [h] using hne
  | succ fuel ih =>
    rw [splitAll] at h
    split at h
    · rename_i hsplit
      rw [List.mem_singleton] at h
      rw [h, ← contains_iff, contains, hsplit]
      simp
    · rename_i before rest hsplit
      rcases List.mem_cons.mp h with rfl | h
      · exact not_infix_of_splitOnce hne hsplit
      · refine ih ?_ h
        have hlen := splitOnce_length hsplit
        have hpos := List.length_pos_iff.mpr hne
        omega

/-! ## What follows a deleted job -/

theorem trailingFrom_none (part : Text) {i offset : ℕ} {ls : List Text}
    (h : ∀ line ∈ ls, startsSection line = false) :
    trailingFrom part i offset ls = some none := by
  induction ls generalizing i offset with
  | nil => rfl
  | cons line ls ih =>
    rw [List.forall_mem_cons] at h
    rw [trailingFrom, if_neg (by simp [h.1])]
    exact ih h.2

theorem trailingNonJob_none {part : Text}
    (h : ∀ line ∈ (lines part).tail, startsSection line = false) :
    trailingNonJob part = some none := by
  rw [trailingNonJob]
  cases hlines : lines part with
  | nil => rfl
  | cons line ls =>
    rw [hlines, List.tail_cons] at h
    rw [trailingFrom, if_neg (by simp)]
    exact trailingFrom_none part h

/-- The loop counts one byte for each line end. -/
theorem trailingFrom_append (part : Text) {i offset : ℕ} {ls rest : List Text} (hi : 0 < i)
    (h : ∀ line ∈ ls, startsSection line = false)
    (hlen : offset + (ls.map fun line => byteLen line + 1).sum < byteLen part + 1) :
    trailingFrom part i offset (ls ++ rest) =
      trailingFrom part (i + ls.length) (offset + (ls.map fun line => byteLen line + 1).sum)
        rest := by
  induction ls generalizing i offset with
  | nil => rfl
  | cons line ls ih =>
    rw [List.forall_mem_cons] at h
    rw [List.map_cons, List.sum_cons] at hlen ⊢
    rw [List.cons_append, trailingFrom, if_neg (by simp [h.1])]
    simp only
    rw [if_pos (by omega), ih (by omega) h.2 (by omega), List.length_cons]
    congr 1 <;> omega

theorem trailingNonJob_cut {own blank rest : Text} {line : Text} {ls : List Text}
    (hlines : lines (own ++ (blank ++ rest)) = lines (own ++ blank) ++ line :: ls)
    (hne : lines (own ++ blank) ≠ []) (hrest : rest ≠ [])
    (hbefore : ∀ line ∈ (lines (own ++ blank)).tail, startsSection line = false)
    (hline : startsSection line = true)
    (hoffset : byteLen own = ((lines (own ++ blank)).map fun line => byteLen line + 1).sum) :
    trailingNonJob (own ++ (blank ++ rest)) = some (some (blank ++ rest)) := by
  obtain ⟨first, before, hfirst⟩ := List.exists_cons_of_ne_nil hne
  have hpos : 0 < byteLen rest := by
    obtain ⟨c, cs, rfl⟩ := List.exists_cons_of_ne_nil hrest
    have := c.utf8Size_pos
    rw [byteLen_cons]
    omega
  have hlen : byteLen (own ++ (blank ++ rest)) = byteLen own + byteLen blank + byteLen rest := by
    rw [byteLen_append, byteLen_append, Nat.add_assoc]
  rw [hfirst, List.map_cons, List.sum_cons] at hoffset
  rw [hfirst, List.tail_cons] at hbefore
  rw [trailingNonJob, hlines, hfirst, List.cons_append, trailingFrom, if_neg (by simp)]
  simp only
  rw [if_pos (by omega), trailingFrom_append _ (by omega) hbefore (by omega), trailingFrom,
    if_pos ⟨by omega, hline⟩]
  have heq : 0 + byteLen first + 1 + (before.map fun line => byteLen line + 1).sum =
      byteLen own := by omega
  rw [heq, sliceFrom_append]
  rfl

/-! ## Blank lines -/

/-- A strict reader reads the same where doubled blank lines are dropped. `acc` are the lines that
were read of the statement, `acc'` those that were kept. -/
theorem readFrom_kept (hr : r.Lawful) {m : Mode} {k : ℕ} {b' : Bool} {acc acc' ls : List Text}
    {es : List Expr} (hscan : scanLines .top acc' = some m)
    (htop : m = .top → acc = [] ∧ acc' = []) (hne : m ≠ .top → acc ≠ [])
    (hsame : ∀ c e, c ≠ [] → r.parse (acc ++ c) = some e → r.parse (acc' ++ c) = some e)
    (h : r.readFrom true m (decide (0 < k)) acc ls = some es) :
    r.readFrom false m b' acc' (keptLines k ls) = some es := by
  induction ls generalizing m k b' acc acc' es with
  | nil =>
    have hm : m = .top := by
      by_contra hm
      rw [Reader.readFrom, if_neg (by simpa using hne hm)] at h
      cases h
    obtain ⟨rfl, rfl⟩ := htop hm
    exact h
  | cons line ls ih =>
    rw [Reader.readFrom] at h
    split at h
    · cases h
    rename_i hstrict
    rw [Option.bind_eq_some_iff] at h
    obtain ⟨m', hline, h⟩ := h
    -- the line is kept
    have hkeep {k' : ℕ} (hk : isBlank line = decide (0 < k')) :
        r.readFrom false m b' acc' (line :: keptLines k' ls) = some es := by
      rw [Reader.readFrom, if_neg (by simp), hline, Option.bind_some]
      split at h
      · rename_i hm'
        obtain ⟨e, hparse, h⟩ := Option.bind_eq_some_iff.mp h
        obtain ⟨es', hrest, rfl⟩ := Option.map_eq_some_iff.mp h
        rw [hk] at hrest
        rw [if_pos hm', hsame _ e (by simp) hparse, Option.bind_some,
          ih rfl (fun _ => ⟨rfl, rfl⟩) (fun hm => absurd rfl hm) (fun _ _ _ hc => hc) hrest]
        rfl
      · rename_i hm'
        rw [if_neg hm']
        rw [hk] at h
        refine ih ?_ (fun hm => absurd hm hm') (fun _ => by simp) (fun c e _ hc => ?_) h
        · rw [scanLines_append, hscan, Option.bind_some, scanLines, List.foldlM_cons, hline]
          rfl
        · rw [List.append_assoc] at hc ⊢
          exact hsame _ e (by simp) hc
    rw [keptLines, ← isBlank]
    split
    · rename_i hblank
      split
      · -- a blank line behind another one: not in a string
        have hquote : m.quote = none := by
          have hk : 0 < k := by omega
          simpa [hk, hblank] using hstrict
        obtain rfl := scanLine_blank hquote hblank hline
        have hflag : isBlank line = decide (0 < k + 1) := by simp [hblank]
        split at h
        · rename_i hm
          obtain ⟨rfl, rfl⟩ := htop hm
          obtain ⟨e, hparse, h⟩ := Option.bind_eq_some_iff.mp h
          obtain rfl := hr.blank line e hblank hparse
          obtain ⟨es', hrest, rfl⟩ := Option.map_eq_some_iff.mp h
          rw [hflag] at hrest
          subst hm
          exact ih rfl htop hne hsame hrest
        · rename_i hm
          rw [hflag] at h
          refine ih hscan (fun hm' => absurd hm' hm) (fun _ => by simp) (fun c e hc hp => ?_) h
          rw [List.append_assoc] at hp
          exact hr.gap acc' _ line c e hscan hm hquote hblank hc (hsame _ e (by simp) hp)
      · exact hkeep (by simp [hblank])
    · rename_i hblank
      exact hkeep (by simpa using hblank)

theorem mem_of_mem_keptLines {k : ℕ} {ls : List Text} {line : Text} (h : line ∈ keptLines k ls) :
    line ∈ ls := by
  induction ls generalizing k with
  | nil => exact h
  | cons l ls ih =>
    rw [keptLines] at h
    split at h
    · split at h
      · exact List.mem_cons_of_mem _ (ih h)
      · exact List.mem_cons.mpr ((List.mem_cons.mp h).imp_right ih)
    · exact List.mem_cons.mpr ((List.mem_cons.mp h).imp_right ih)

/-- Collapsing blank lines changes no statement. -/
theorem read_collapse (hr : r.Lawful) {text : Text} {es : List Expr}
    (h : r.readLines true (lines text) = some es) :
    r.read (collapseBlankLines text) = some es := by
  have hlines : lines (collapseBlankLines text) = keptLines 0 (lines text) := by
    refine lines_unlines fun line hline => ?_
    have hmem := mem_of_mem_keptLines hline
    exact ⟨newline_not_mem_lines hmem, return_not_mem h line hmem⟩
  rw [Reader.read, hlines]
  exact readFrom_kept hr rfl (fun _ => ⟨rfl, rfl⟩) (fun hm => absurd rfl hm) (fun _ _ _ hc => hc) h

variable {name : Text}

/-! ## The rewriting, statement by statement -/

variable (r name) in
/-- The statements `es'` are `es` without the jobs of that name. -/
structure Rewritten (es es' : List Expr) (removed : Bool) : Prop where
  rest : (sections none es').rest = (sections none es).rest
  jobs : (sections none es').jobs = (sections none es).jobs.filter (¬Named r name ·)
  removed : removed = true ↔ ∃ job ∈ (sections none es).jobs, Named r name job

namespace Rewritten

theorem same {es : List Expr} (h : ∀ job ∈ (sections none es).jobs, ¬Named r name job) :
    Rewritten r name es es false where
  rest := rfl
  jobs := by
    rw [List.filter_eq_self.mpr]
    exact fun job hjob => decide_eq_true (h job hjob)
  removed := by simpa using h

theorem append {a a' b b' : List Expr} {x y : Bool} (ha : Rewritten r name a a' x)
    (hb : Rewritten r name b b' y) (hapart : Apart b) (hapart' : Apart b') :
    Rewritten r name (a ++ b) (a' ++ b') (x || y) where
  rest := by rw [sections_append _ _ hapart, sections_append _ _ hapart', ha.rest, hb.rest]
  jobs := by
    rw [sections_append _ _ hapart, sections_append _ _ hapart', ha.jobs, hb.jobs,
      List.filter_append]
  removed := by
    rw [Bool.or_eq_true, ha.removed, hb.removed, sections_append _ _ hapart]
    simp only [List.mem_append, or_and_right, exists_or]

/-- A single job that goes. -/
theorem job (hr : r.Lawful) {t : Text} {es : List Expr} (ht : ¬jobsHeader <:+: t)
    (hread : r.read (jobsHeader ++ t) = some es)
    (hlines : ∀ line ∈ (lines t).tail, startsSection line = false)
    (hnamed : ∃ job ∈ (sections none es).jobs, Named r name job) :
    Rewritten r name es [] true := by
  obtain ⟨own, rfl, hown⟩ := read_part hr hread
  have hsort : sections none (.arrayTable [jobsKey] :: own) = ⟨[], [], [own]⟩ := by
    have hstatement (e : Expr) (he : e ∈ own) :
        isJob e = false ∧ (e.isHeader → underJobs e = true) := by
      obtain ⟨line, hline, ls, hparse⟩ := hown e he
      exact own_of_lines hr ht (List.mem_of_mem_tail hline) (hlines line hline) hparse
    rw [sections, if_pos (by simp [isJob]),
      sections_own (fun e he => (hstatement e he).2) fun e he => (hstatement e he).1]
  have hjob : Named r name own := by simpa [hsort] using hnamed
  exact ⟨by rw [hsort]; rfl, by rw [hsort]; simp [hjob, sections], by simpa using hnamed⟩

end Rewritten

theorem apart_part {own : List Expr} : Apart (.arrayTable [jobsKey] :: own) where
  head := by simp [Expr.isHeader]
  foreign := by
    rw [List.takeWhile_cons_of_neg (by simp [isJob])]
    simp

theorem newline_of_closed {t : Text} (h : Closed (jobsHeader ++ t)) : t.getLast? = some '\n' := by
  obtain ⟨hend, -⟩ := h
  have hlast : jobsHeader.getLast? = some ']' := rfl
  have hne : t ≠ [] := by
    rintro rfl
    rw [List.append_nil, hlast] at hend
    rcases hend with hend | hend
    · rw [hend] at hlast
      cases hlast
    · exact absurd hend (by decide)
  rw [List.getLast?_append_of_ne_nil jobsHeader hne] at hend
  exact hend.resolve_left (by simp [hne])

theorem not_section_of_indent {ws line : Text} (hws : ws.all isIndent) (h : line ∈ lines ws) :
    startsSection line = false := by
  have hblank : isBlank (line ++ []) = isBlank [] := isBlank_indent (lines_of_indent hws h)
  have htrim : trim line = [] := by
    rw [List.append_nil] at hblank
    exact List.isEmpty_iff.mp hblank
  simp [startsSection, htrim]

/-- The indent of the next header belongs to no line of the part. -/
theorem lines_part {t indent : Text} (h : Closed (jobsHeader ++ t) ∨ indent = []) :
    lines (t ++ indent) = lines t ++ lines indent := by
  rcases h with h | rfl
  · exact lines_append (Or.inr (newline_of_closed h)) indent
  · simp [lines]

/-- A line that starts a section starts a statement that is a header. -/
theorem head_of_startsSection (hr : r.Lawful) {strict : Bool} {line : Text} {ls : List Text}
    {es : List Expr} (hline : startsSection line = true)
    (h : r.readLines strict (line :: ls) = some es) : ∀ e ∈ es.head?, e.isHeader = true := by
  obtain ⟨e, es', ls', rfl, hparse, -⟩ := head_readLines h
  have hopen : (trim line).head? = some '[' := by
    have hpre : "[".toList <+: trim line := by
      rw [← List.isPrefixOf_iff_prefix]
      rw [startsSection, Bool.and_eq_true, Bool.and_eq_true] at hline
      exact hline.1.1
    obtain ⟨t, ht⟩ := hpre
    rw [← ht]
    rfl
  have hheader := (hr.header line ls' e hparse).mpr hopen
  intro x hx
  cases e with
  | blank | keyval => cases hheader
  | table | arrayTable =>
    cases hx
    rfl

/-- A section behind a deleted job: the part is cut, and the statements are those of the section. -/
theorem cut_step (hr : r.Lawful) {own blank rest indent : Text} {es : List Expr}
    (hcut : Cut r name own blank rest) (ht : ¬jobsHeader <:+: own ++ (blank ++ rest))
    (hindent : indent.all isIndent)
    (hclosed : Closed (jobsHeader ++ (own ++ (blank ++ rest))) ∨ indent = [])
    (hread : r.read (jobsHeader ++ (own ++ (blank ++ rest))) = some es) :
    trailingNonJob (own ++ (blank ++ rest) ++ indent) = some (some (blank ++ (rest ++ indent))) ∧
      ∃ es', Rewritten r name es es' true ∧ Apart es' ∧
        ∀ next ns, Closed (jobsHeader ++ (own ++ (blank ++ rest))) ∨ indent = [] ∧ next = [] →
          r.readLines true (lines next) = some ns →
          r.readLines true (lines (blank ++ (rest ++ indent) ++ next)) = some (es' ++ ns) := by
  obtain ⟨line, ls, hrest, hline⟩ := hcut.follows
  obtain ⟨es', hstrict, hforeign, hjobs⟩ := hcut.rest
  obtain ⟨own', hown, hnamed⟩ := hcut.job
  have hsplit : jobsHeader ++ (own ++ (blank ++ rest)) =
      jobsHeader ++ (own ++ blank) ++ ([] ++ rest) := by
    simp only [List.append_assoc, List.nil_append]
  have hnewline := newline_of_closed hcut.closed
  have hapart : Apart es' := by
    rw [hrest] at hstrict
    exact ⟨head_of_startsSection hr hline hstrict, hforeign⟩
  have hrest' : Closed rest ∨ indent = [] := by
    refine hclosed.imp_left fun h => ?_
    rwa [hsplit, List.nil_append, closed_append hcut.closed] at h
  have hstarts : lines (rest ++ indent) = line :: (ls ++ lines indent) := by
    rcases hrest' with h | rfl
    · rw [lines_append h.1, hrest, List.cons_append]
    · rw [List.append_nil, hrest]
      simp [lines]
  refine ⟨?_, es', ?_, hapart, ?_⟩
  · have hlines : lines (own ++ (blank ++ (rest ++ indent))) =
        lines (own ++ blank) ++ line :: (ls ++ lines indent) := by
      rw [← List.append_assoc, lines_append (Or.inr hnewline), hstarts]
    have hne : lines (own ++ blank) ≠ [] := by
      intro hnil
      obtain ⟨t, hlast⟩ := List.getLast?_eq_some_iff.mp hnewline
      rw [hlast] at hnil
      rcases exists_line t with h | ⟨l, u, rfl, h⟩
      · rw [lines_cons h] at hnil
        cases hnil
      · rw [List.append_assoc, List.cons_append, lines_cons h] at hnil
        cases hnil
    have hne' : rest ++ indent ≠ [] := by
      intro hnil
      rw [hnil] at hstarts
      cases hstarts
    rw [List.append_assoc, List.append_assoc]
    exact trailingNonJob_cut hlines hne hne' hcut.before hline hcut.offset
  · rw [Reader.read, hsplit, readLines_join hr hcut.closed rfl] at hread
    obtain ⟨a, ha, hread⟩ := Option.bind_eq_some_iff.mp hread
    obtain ⟨b, hb, rfl⟩ := Option.map_eq_some_iff.mp hread
    obtain rfl : a = own' := Option.some.inj (ha.symm.trans hown)
    obtain rfl : b = es' := Option.some.inj (hb.symm.trans (readFrom_of_strict hstrict))
    have hfirst : Rewritten r name a [] true := by
      refine Rewritten.job hr (fun hinfix => ht ?_) hown hcut.before hnamed
      rw [← List.append_assoc]
      exact hinfix.trans (List.prefix_append _ _).isInfix
    exact hfirst.append (Rewritten.same hjobs) hapart hapart
  · intro next ns hcase hnext
    have hblank : r.readLines true (lines (blank ++ (rest ++ indent) ++ next)) =
        r.readLines true (lines (rest ++ (indent ++ next))) := by
      have hjoin : r.readLines true (lines (blank ++ ([] ++ (rest ++ (indent ++ next))))) = _ :=
        readLines_join hr hcut.blank.1 rfl
      rw [hcut.blank.2, Option.bind_some, List.nil_append] at hjoin
      rw [List.append_assoc, List.append_assoc, hjoin]
      exact Option.map_id'
    rw [hblank]
    rcases hcase with h | ⟨rfl, rfl⟩
    · rw [hsplit, List.nil_append, closed_append hcut.closed] at h
      rw [readLines_join hr h hindent, hstrict, hnext]
      rfl
    · obtain rfl : ns = [] := by
        cases hnext
        rfl
      rw [List.append_nil, List.append_nil, List.append_nil]
      exact hstrict

/-- What is pushed for a part, read on its own and before the rest. -/
theorem block_step (hr : r.Lawful) {t indent : Text} {es : List Expr} (hblock : Block r name t)
    (ht : ¬jobsHeader <:+: t) (hindent : indent.all isIndent)
    (hclosed : Closed (jobsHeader ++ t) ∨ indent = [])
    (hread : r.read (jobsHeader ++ t) = some es) :
    ∃ kept removed es', (∀ parts, rebuild (needle name) ((t ++ indent) :: parts) =
        (rebuild (needle name) parts).map fun p => (kept ++ p.1, removed || p.2)) ∧
      Rewritten r name es es' removed ∧ Apart es' ∧
      ∀ next ns, Closed (jobsHeader ++ t) ∨ indent = [] ∧ next = [] →
        r.readLines true (lines next) = some ns →
        r.readLines true (lines (kept ++ next)) = some (es' ++ ns) := by
  have hneedle : contains (t ++ indent) (needle name) = contains t (needle name) := by
    refine contains_append fun hmem => ?_
    exact absurd (List.all_eq_true.mp hindent _ hmem) (by decide)
  have hgone (htrail : trailingNonJob (t ++ indent) = some none)
      (hcontains : contains t (needle name) = true) (parts : List Text) :
      rebuild (needle name) ((t ++ indent) :: parts) =
        (rebuild (needle name) parts).map fun p => ([] ++ p.1, true || p.2) := by
    rw [rebuild, if_pos (hneedle.trans hcontains), htrail]
    cases rebuild (needle name) parts <;> rfl
  cases hblock with
  | stays es' hcontains hstrict hjobs =>
    obtain rfl : es = es' := by
      exact Option.some.inj (hread.symm.trans (readFrom_of_strict hstrict))
    refine ⟨jobsHeader ++ (t ++ indent), false, es, fun parts => ?_, Rewritten.same hjobs, ?_, ?_⟩
    · rw [rebuild, if_neg (by simp [hneedle, hcontains])]
      cases rebuild (needle name) parts <;> rfl
    · obtain ⟨own, rfl, -⟩ := read_part hr hread
      exact apart_part
    · rintro next ns (hclosed | ⟨rfl, rfl⟩) hnext
      · rw [List.append_assoc, List.append_assoc, ← List.append_assoc jobsHeader,
          readLines_join hr hclosed hindent, hstrict, hnext]
        rfl
      · obtain rfl : ns = [] := by
          cases hnext
          rfl
        rw [List.append_nil, List.append_nil, List.append_nil]
        exact hstrict
  | goes es' hcontains hread' hnamed hlines =>
    obtain rfl : es = es' := Option.some.inj (hread.symm.trans hread')
    refine ⟨[], true, [], hgone (trailingNonJob_none ?_) hcontains,
      Rewritten.job hr ht hread hlines hnamed, Apart.nil, fun next ns _ hnext => hnext⟩
    rw [lines_part hclosed]
    intro line hline
    cases hls : lines t with
    | nil =>
      rw [hls, List.nil_append] at hline
      exact not_section_of_indent hindent (List.mem_of_mem_tail hline)
    | cons l ls =>
      rw [hls, List.cons_append, List.tail_cons, List.mem_append] at hline
      rw [hls, List.tail_cons] at hlines
      exact hline.elim (hlines line) (not_section_of_indent hindent)
  | cut own blank rest hcontains heq hcut =>
    subst heq
    obtain ⟨htrail, es', hrewritten, hapart, hkept⟩ :=
      cut_step hr hcut ht hindent hclosed hread
    refine ⟨_, true, es', fun parts => ?_, hrewritten, hapart, hkept⟩
    rw [rebuild, if_pos (hneedle.trans hcontains), htrail]
    cases rebuild (needle name) parts <;> rfl

theorem blocks_rebuild (hr : r.Lawful) {parts : List Text} {es : List Expr}
    (hblocks : Blocks r name parts) (hparts : ∀ part ∈ parts, ¬jobsHeader <:+: part)
    (hread : r.read (parts.flatMap (jobsHeader ++ ·)) = some es) :
    ∃ text' removed es', rebuild (needle name) parts = some (text', removed) ∧
      r.readLines true (lines text') = some es' ∧ Rewritten r name es es' removed ∧
      Apart es ∧ Apart es' := by
  induction hblocks generalizing es with
  | nil =>
    obtain rfl : es = [] := by
      cases hread
      rfl
    exact ⟨[], false, [], rfl, rfl, Rewritten.same (by simp [sections]), Apart.nil, Apart.nil⟩
  | last t hblock =>
    rw [List.flatMap_singleton] at hread
    have hindent : ([] : Text).all isIndent := rfl
    obtain ⟨kept, removed, es', hpush, hrewritten, hapart, hkept⟩ :=
      block_step hr hblock (hparts t List.mem_cons_self) hindent (Or.inr rfl) hread
    have hrebuild := hpush []
    have hstrict := hkept [] [] (Or.inr ⟨rfl, rfl⟩) rfl
    rw [List.append_nil] at hrebuild hstrict
    simp only [rebuild, Option.map_some, Bool.or_false, List.append_nil] at hrebuild hstrict
    obtain ⟨own, rfl, -⟩ := read_part hr hread
    exact ⟨kept, removed, es', hrebuild, hstrict, hrewritten, apart_part, hapart⟩
  | cons t indent parts hblock hclosed hindent _ ih =>
    rw [List.forall_mem_cons] at hparts
    have ht : ¬jobsHeader <:+: t := fun h => hparts.1 (h.trans (List.prefix_append _ _).isInfix)
    rw [List.flatMap_cons, Reader.read, List.append_assoc, List.append_assoc,
      ← List.append_assoc jobsHeader, readLines_join hr hclosed hindent] at hread
    obtain ⟨a, ha, hread⟩ := Option.bind_eq_some_iff.mp hread
    obtain ⟨b, hb, rfl⟩ := Option.map_eq_some_iff.mp hread
    obtain ⟨text', removed', b', hrebuild, hstrict, hrewritten', hapart, hapart'⟩ := ih hparts.2 hb
    obtain ⟨kept, removed, a', hpush, hrewritten, hpart, hkept⟩ :=
      block_step hr hblock ht hindent (Or.inl hclosed) ha
    refine ⟨kept ++ text', removed || removed', a' ++ b', ?_, hkept _ _ (Or.inl hclosed) hstrict,
      hrewritten.append hrewritten' hapart hapart', ?_, hpart.append hapart'⟩
    · rw [hpush, hrebuild, Option.map_some]
    · obtain ⟨own, rfl, -⟩ := read_part hr ha
      exact apart_part.append hapart

end Synora.Config
