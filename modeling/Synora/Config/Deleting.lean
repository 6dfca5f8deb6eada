import Synora.Config.Stripping

namespace Synora.Config
open Strings Toml

variable {r : Reader} {name : Text}

/-! ## The rewritten document -/

theorem named_iff {job : List Expr} {table : Table} (h : r.build job = some table) :
    Named r name job ↔ jobName table = some name := by
  rw [Named, h, Option.bind_some]

theorem mapM_build_filter {jobs : List (List Expr)} {tables : List Table}
    (h : jobs.mapM r.build = some tables) :
    (jobs.filter (¬Named r name ·)).mapM r.build =
      some (tables.filter fun job => !decide (jobName job = some name)) := by
  induction jobs generalizing tables with
  | nil =>
    cases h
    rfl
  | cons job jobs ih =>
    rw [List.mapM_cons] at h
    obtain ⟨table, hjob, h⟩ := Option.bind_eq_some_iff.mp h
    obtain ⟨tables', hjobs, h⟩ := Option.bind_eq_some_iff.mp h
    cases h
    have hnamed : Named r name job ↔ _ := named_iff hjob
    by_cases hname : jobName table = some name
    · rw [List.filter_cons_of_neg (by simp [hnamed, hname]),
        List.filter_cons_of_neg (by simp [hname])]
      exact ih hjobs
    · rw [List.filter_cons_of_pos (by simp [hnamed, hname]),
        List.filter_cons_of_pos (by simp [hname]), List.mapM_cons, hjob, ih hjobs]
      rfl

theorem exists_named_iff {jobs : List (List Expr)} {tables : List Table}
    (h : jobs.mapM r.build = some tables) :
    (∃ job ∈ jobs, Named r name job) ↔ ∃ job ∈ tables, jobName job = some name := by
  induction jobs generalizing tables with
  | nil =>
    cases h
    simp
  | cons job jobs ih =>
    rw [List.mapM_cons] at h
    obtain ⟨table, hjob, h⟩ := Option.bind_eq_some_iff.mp h
    obtain ⟨tables', hjobs, h⟩ := Option.bind_eq_some_iff.mp h
    cases h
    rw [List.exists_mem_cons_iff, List.exists_mem_cons_iff, named_iff hjob, ih hjobs]

/-- The document of rewritten statements. -/
theorem document_rewritten {es es' : List Expr} {removed : Bool} {doc : Document}
    (h : Rewritten r name es es' removed) (hdoc : document r es = some doc) :
    document r es' = some (doc.without name) ∧
      (removed = true ↔ ∃ job ∈ doc.jobs, jobName job = some name) := by
  obtain ⟨rest, hrest, hdoc⟩ := Option.bind_eq_some_iff.mp hdoc
  obtain ⟨jobs, hjobs, hdoc⟩ := Option.bind_eq_some_iff.mp hdoc
  split at hdoc
  · cases hdoc
  rename_i hguard
  cases hdoc
  refine ⟨?_, h.removed.trans (exists_named_iff hjobs)⟩
  have hguard' : ¬(!(jobs.filter fun job => !decide (jobName job = some name)).isEmpty &&
      rest.any fun entry => decide (entry.1 = jobsKey)) = true := by
    intro hboth
    rw [Bool.and_eq_true] at hboth
    refine hguard (Bool.and_eq_true_iff.mpr ⟨?_, hboth.2⟩)
    cases jobs with
    | nil => exact hboth.1
    | cons => rfl
  rw [document, h.rest, hrest, h.jobs]
  simp only [Option.bind_eq_bind, Option.bind_some]
  rw [mapM_build_filter hjobs, Option.bind_some, if_neg hguard']
  rfl

theorem stripJobBlocks_eq {text first : Text} {parts : List Text}
    (h : splitAll jobsHeader text.length text = first :: parts) :
    stripJobBlocks text name = (rebuild (needle name) parts).map fun p =>
      if p.2 then some (collapseBlankLines (first ++ p.1)) else none := by
  rw [stripJobBlocks, h]
  cases parts with
  | nil => rfl
  | cons part parts =>
    dsimp only
    cases rebuild (needle name) (part :: parts) <;> rfl

theorem rebuild_untouched {pat : Text} {parts : List Text}
    (h : ∀ part ∈ parts, contains part pat = false) :
    ∃ text, rebuild pat parts = some (text, false) := by
  induction parts with
  | nil => exact ⟨[], rfl⟩
  | cons part parts ih =>
    rw [List.forall_mem_cons] at h
    obtain ⟨text, htext⟩ := ih h.2
    rw [rebuild, if_neg (by simp [h.1]), htext]
    exact ⟨_, rfl⟩

/-- Where the layout is one that the rewriting understands, deleting a job is exact. -/
theorem strip_exact (hr : r.Lawful) {text : Text} {doc : Document}
    (hdoc : denote r text = some doc) (h : Untouched r name text ∨ Tidy r name text) :
    ∃ result, stripJobBlocks text name = some result ∧
      (result = none ↔ ∀ job ∈ doc.jobs, jobName job ≠ some name) ∧
      ∀ text', result = some text' → denote r text' = some (doc.without name) := by
  obtain ⟨first, parts, hsplit, hjoin⟩ := splitAll_join jobsHeader text.length text
  rcases h with ⟨huntouched, hnone⟩ | ⟨lead, indent, parts', lead', hsplit', hlead, hindent,
    hread, hjobs, hblocks⟩
  · rw [hsplit, List.tail_cons] at huntouched
    obtain ⟨text', hrebuild⟩ := rebuild_untouched huntouched
    rw [stripJobBlocks_eq hsplit, hrebuild]
    exact ⟨none, rfl, iff_of_true rfl (hnone doc hdoc), fun _ h => by cases h⟩
  · obtain ⟨rfl, rfl⟩ : first = lead ++ indent ∧ parts = parts' := by
      simpa [hsplit] using hsplit'
    obtain ⟨es, htext, hdoc⟩ := Option.bind_eq_some_iff.mp hdoc
    rw [hjoin, List.append_assoc, Reader.read, readLines_join hr hlead hindent] at htext
    obtain ⟨a, ha, htext⟩ := Option.bind_eq_some_iff.mp htext
    obtain ⟨b, hb, rfl⟩ := Option.map_eq_some_iff.mp htext
    obtain rfl : a = lead' := Option.some.inj (ha.symm.trans (readFrom_of_strict hread))
    have hparts (part : Text) (hmem : part ∈ parts) : ¬jobsHeader <:+: part := by
      have hmem' : part ∈ splitAll jobsHeader text.length text := by
        rw [hsplit]
        exact List.mem_cons_of_mem _ hmem
      exact not_infix_of_mem_splitAll (by decide) le_rfl hmem'
    obtain ⟨text', removed, b', hrebuild, hstrict, hrewritten, hapart, hapart'⟩ :=
      blocks_rebuild hr hblocks hparts hb
    have hall := (Rewritten.same hjobs).append hrewritten hapart hapart'
    obtain ⟨hdoc', hremoved⟩ := document_rewritten hall hdoc
    rw [Bool.false_or] at hremoved
    have hfinal : r.read (collapseBlankLines (lead ++ indent ++ text')) = some (a ++ b') := by
      refine read_collapse hr ?_
      rw [List.append_assoc, readLines_join hr hlead hindent, hread, hstrict]
      rfl
    refine ⟨_, by rw [stripJobBlocks_eq hsplit, hrebuild, Option.map_some], ?_, ?_⟩
    · cases removed with
      | false =>
        refine iff_of_true rfl fun job hjob hname => ?_
        exact absurd (hremoved.mpr ⟨job, hjob, hname⟩) (by decide)
      | true =>
        obtain ⟨job, hjob, hname⟩ := hremoved.mp rfl
        exact iff_of_false (by simp) fun hall => hall job hjob hname
    · intro final hresult
      split at hresult
      · cases hresult
        rw [denote, hfinal, Option.bind_some, hdoc']
      · cases hresult

/-! ## A reader of plain files -/

def isBare (key : Text) : Bool :=
  !key.isEmpty && key.all fun c => c.isAlphanum || c == '_' || c == '-'

/-- Headers of one line, and keys with strings. -/
def plainStatement : Text → Option Expr
  | [] | '#' :: _ => some .blank
  | '[' :: '[' :: cs =>
    match splitOnce "]]".toList cs with
    | some (key, []) => if isBare key then some (.arrayTable [key]) else none
    | _ => none
  | '[' :: cs =>
    match splitOnce "]".toList cs with
    | some (path, []) =>
      if (path.splitOn '.').all isBare then some (.table (path.splitOn '.')) else none
    | _ => none
  | c :: cs =>
    if isWhitespace c then none
    else match splitOnce " = \"".toList (c :: cs) with
      | some (key, value) =>
        match splitOnce "\"".toList value with
        | some (value, []) =>
          if isBare key && !value.contains '\\' then some (.keyval [key] (.string value)) else none
        | _ => none
      | none => none

/-- The entries before the first header, and the tables behind it. -/
def plainTables : List Expr → Option (Table × Table)
  | [] => some ([], [])
  | .keyval [key] value :: es => do
    let (entries, tables) ← plainTables es
    pure ((key, value) :: entries, tables)
  | .table [key] :: es => do
    let (entries, tables) ← plainTables es
    pure ([], (key, .table entries) :: tables)
  | .table [parent, key] :: es =>
    if parent = jobsKey then do
      let (entries, tables) ← plainTables es
      pure ([], (key, .table entries) :: tables)
    else none
  | _ => none

def plainReader : Reader where
  parse
    | [line] => plainStatement (trimStart isIndent line)
    | _ => none
  build es := do
    let (entries, tables) ← plainTables es
    let table := entries ++ tables
    if (table.map Prod.fst).Nodup then some table else none

theorem plain_parse {line : Text} {ls : List Text} {e : Expr}
    (h : plainReader.parse (line :: ls) = some e) :
    ls = [] ∧ plainStatement (trimStart isIndent line) = some e := by
  cases ls with
  | nil => exact ⟨rfl, h⟩
  | cons l ls => cases h

theorem trimStart_trimStart (line : Text) :
    trimStart isWhitespace (trimStart isIndent line) = trimStart isWhitespace line := by
  rw [trimStart, trimStart, trimStart]
  induction line with
  | nil => rfl
  | cons c line ih =>
    by_cases hc : isIndent c = true
    · rw [List.dropWhile_cons_of_pos hc, ih,
        List.dropWhile_cons_of_pos (isWhitespace_of_isIndent hc)]
    · rw [List.dropWhile_cons_of_neg hc]

/-- A statement starts with its first character. -/
theorem plain_cases {t : Text} {e : Expr} (h : plainStatement t = some e) :
    t = [] ∨ ∃ c cs, t = c :: cs ∧ isWhitespace c = false ∧ (e.isHeader = true ↔ c = '[') := by
  unfold plainStatement at h
  split at h
  · exact Or.inl rfl
  · cases h
    exact Or.inr ⟨_, _, rfl, by decide, by simp [Expr.isHeader]⟩
  · refine Or.inr ⟨_, _, rfl, by decide, ?_⟩
    split at h
    · split at h <;> cases h
      simp [Expr.isHeader]
    · cases h
  · refine Or.inr ⟨_, _, rfl, by decide, ?_⟩
    split at h
    · split at h <;> cases h
      simp [Expr.isHeader]
    · cases h
  · rename_i c cs _ _ hopen
    split at h
    · cases h
    rename_i hc
    refine Or.inr ⟨_, _, rfl, by simpa using hc, ?_⟩
    have hne : c ≠ '[' := fun hc => hopen hc
    split at h
    · split at h
      · split at h <;> cases h
        simp [Expr.isHeader, hne]
      · cases h
    · cases h

theorem plain_trim {line : Text} {e : Expr} (h : plainReader.parse [line] = some e) :
    trim line = [] ∧ e = .blank ∨ ∃ c cs, trimStart isIndent line = c :: cs ∧
      trim line <+: c :: cs ∧ (trim line).head? = some c ∧ (e.isHeader = true ↔ c = '[') := by
  have hparse := (plain_parse h).2
  have hstart := trimStart_trimStart line
  rcases plain_cases hparse with hnil | ⟨c, cs, heq, hc, hheader⟩
  · rw [hnil] at hstart hparse
    refine Or.inl ⟨?_, (Option.some.inj hparse).symm⟩
    rw [trim, ← hstart]
    rfl
  · refine Or.inr ⟨c, cs, heq, ?_⟩
    have htrim : trim line = trimEnd isWhitespace (c :: cs) := by
      rw [heq, trimStart, List.dropWhile_cons_of_neg (by simp [hc])] at hstart
      rw [trim, ← hstart]
    obtain ⟨u, hu⟩ := prefix_trimEnd hc [] cs
    refine ⟨?_, ?_, hheader⟩
    · rw [htrim]
      exact List.rdropWhile_prefix _ _
    · rw [htrim]
      simp only [List.nil_append, List.singleton_append] at hu
      rw [← hu]
      rfl

/-- A text that a header starts with. -/
theorem plain_header {line t : Text} {e : Expr} (h : plainReader.parse [line] = some e)
    (ht : t.isPrefixOf (trim line)) (hne : t ≠ []) :
    ∃ u, plainStatement (t ++ u) = some e := by
  rw [List.isPrefixOf_iff_prefix] at ht
  rcases plain_trim h with ⟨hnil, -⟩ | ⟨c, cs, heq, hpre, -, -⟩
  · rw [hnil, List.prefix_nil] at ht
    exact absurd ht hne
  · obtain ⟨u, hu⟩ := ht.trans hpre
    refine ⟨u, ?_⟩
    rw [hu, ← heq]
    exact (plain_parse h).2

theorem not_mem_of_isAlphanum {key : Text} (h : key.all Char.isAlphanum) {c : Char}
    (hc : c.isAlphanum = false) : c ∉ key := fun hmem => by
  rw [List.all_eq_true.mp h c hmem] at hc
  cases hc

theorem plain_table {cs : Text} (h : cs.head? ≠ some '[') :
    plainStatement ('[' :: cs) = match splitOnce "]".toList cs with
      | some (path, []) =>
        if (path.splitOn '.').all isBare then some (.table (path.splitOn '.')) else none
      | _ => none := by
  cases cs with
  | nil => rfl
  | cons c cs =>
    have hc : c ≠ '[' := fun hc => h (congrArg some hc)
    rw [plainStatement]
    exact fun cs' heq => hc (List.cons.inj heq).1

theorem plainReader_lawful : plainReader.Lawful where
  indent ws line ls hws := by
    have htrim : trimStart isIndent (ws ++ line) = trimStart isIndent line := by
      rw [trimStart, trimStart, List.dropWhile_append_of_pos]
      exact List.all_eq_true.mp hws
    cases ls with
    | nil => exact congrArg plainStatement htrim
    | cons l ls => rfl
  empty := rfl
  blank line e hblank h := by
    rcases plain_trim h with ⟨-, he⟩ | ⟨c, cs, -, -, hhead, -⟩
    · exact he
    · rw [isBlank, List.isEmpty_iff] at hblank
      rw [hblank] at hhead
      cases hhead
  gap a m line b e hscan hm _ _ hb h := by
    obtain ⟨l, a, rfl⟩ : ∃ l a', a = l :: a' := by
      cases a with
      | nil => exact absurd (Option.some.inj hscan).symm hm
      | cons l a => exact ⟨l, a, rfl⟩
    rw [List.cons_append] at h
    exact absurd (plain_parse h).1 (by simp)
  header line ls e h := by
    obtain ⟨rfl, -⟩ := plain_parse h
    rcases plain_trim h with ⟨hnil, rfl⟩ | ⟨c, cs, -, -, hhead, hheader⟩
    · simp [hnil, Expr.isHeader]
    · rw [hheader, hhead, Option.some.injEq]
  arrayHeader key line ls e hkey hpre h := by
    obtain ⟨rfl, -⟩ := plain_parse h
    obtain ⟨u, hu⟩ := plain_header h hpre (by simp)
    have hsplit : splitOnce "]]".toList (key ++ ("]]".toList ++ u)) = some (key, u) := by
      have hnot : ']' ∉ key := not_mem_of_isAlphanum hkey (by decide)
      have hclose : "]]".toList = [']', ']'] := rfl
      have hhere : splitOnce [']', ']'] ([']', ']'] ++ u) = some ([], u) := rfl
      rw [hclose, splitOnce_append hnot, hhere, Option.map_some, List.append_nil]
    have hstatement : plainStatement ("[[".toList ++ key ++ "]]".toList ++ u) =
        match splitOnce "]]".toList (key ++ ("]]".toList ++ u)) with
        | some (key, []) => if isBare key then some (.arrayTable [key]) else none
        | _ => none := by
      rw [List.append_assoc, List.append_assoc]
      rfl
    rw [hstatement, hsplit] at hu
    split at hu
    · rename_i heq
      cases heq
      split at hu <;> cases hu
      rfl
    · cases hu
  subtable key line ls e hkey hpre h := by
    obtain ⟨rfl, -⟩ := plain_parse h
    obtain ⟨u, hu⟩ := plain_header h hpre (by simp)
    have hnot (c : Char) (hc : c.isAlphanum = false) (hdot : c ≠ '.') : c ∉ key ++ ['.'] := by
      rw [List.mem_append, not_or, List.mem_singleton]
      exact ⟨not_mem_of_isAlphanum hkey hc, hdot⟩
    have hopen : (key ++ ['.'] ++ u).head? ≠ some '[' := by
      rw [List.head?_append_of_ne_nil _ (by simp)]
      exact fun hhead => hnot '[' (by decide) (by decide) (List.mem_of_mem_head? hhead)
    have hstatement := plain_table hopen
    have hclose : "]".toList = [']'] := rfl
    rw [hclose, splitOnce_append (hnot ']' (by decide) (by decide))] at hstatement
    have hu' : plainStatement ('[' :: (key ++ ['.'] ++ u)) = some e := hu
    rw [hu'] at hstatement
    cases hrest : splitOnce [']'] u with
    | none =>
      rw [hrest] at hstatement
      cases hstatement
    | some p =>
      obtain ⟨path, end_⟩ := p
      rw [hrest, Option.map_some] at hstatement
      have hpath : (key ++ ['.'] ++ path).splitOn '.' = key :: path.splitOn '.' := by
        rw [List.append_assoc, List.singleton_append]
        have hdot : '.' ∉ key := not_mem_of_isAlphanum hkey (by decide)
        exact List.splitOn_append_cons_self_of_not_mem hdot path
      cases end_ with
      | nil =>
        simp only [hpath] at hstatement
        split at hstatement
        · exact ⟨_, Option.some.inj hstatement⟩
        · cases hstatement
      | cons => cases hstatement

/-! ## Files -/

/-- A job with a section behind it, and another job. -/
def mixed : Text :=
  "[[jobs]]\nname = \"a\"\n\n[storage]\nroot = \"/srv\"\n\n[[jobs]]\nname = \"b\"\n".toList

/-- The second job is stored under the name of the first. -/
def neighbours : Text :=
  "[[jobs]]\nname = \"a\"\n\n[[jobs]]\nname = \"b\"\nstorage_name = \"a\"\n".toList

theorem exists_of_any {α : Type} {o : Option α} {P : α → Prop} [DecidablePred P]
    (h : o.any (P ·) = true) : ∃ a, o = some a ∧ P a := by
  cases o with
  | none => cases h
  | some a => exact ⟨a, rfl, of_decide_eq_true h⟩

theorem mixed_cut : Cut plainReader "a".toList "\nname = \"a\"\n\n".toList []
    "[storage]\nroot = \"/srv\"\n\n".toList where
  job := exists_of_any (by decide +kernel)
  closed := by
    refine ⟨?_, ?_⟩ <;> decide +kernel
  before := by decide +kernel
  follows := ⟨"[storage]".toList, ["root = \"/srv\"".toList, []], by decide +kernel,
    by decide +kernel⟩
  offset := by decide +kernel
  blank := ⟨⟨Or.inl rfl, rfl⟩, rfl⟩
  rest := exists_of_any (by decide +kernel)

theorem mixed_tidy : Tidy plainReader "a".toList mixed := by
  refine ⟨[], [], ["\nname = \"a\"\n\n[storage]\nroot = \"/srv\"\n\n".toList,
    "\nname = \"b\"\n".toList], [], ?_, ⟨Or.inl rfl, rfl⟩, rfl, rfl, by simp [sections], ?_⟩
  · decide +kernel
  · have hfirst : Block plainReader "a".toList
        "\nname = \"a\"\n\n[storage]\nroot = \"/srv\"\n\n".toList :=
      .cut _ [] _ (by decide +kernel) (by decide +kernel) mixed_cut
    obtain ⟨es, hread, hjobs⟩ : ∃ es,
        plainReader.readLines true (lines (jobsHeader ++ "\nname = \"b\"\n".toList)) = some es ∧
        ∀ job ∈ (sections none es).jobs, ¬Named plainReader "a".toList job :=
      exists_of_any (by decide +kernel)
    have hsecond : Block plainReader "a".toList "\nname = \"b\"\n".toList :=
      .stays es (by decide +kernel) hread hjobs
    have hclosed : Closed (jobsHeader ++
        "\nname = \"a\"\n\n[storage]\nroot = \"/srv\"\n\n".toList) := by
      refine ⟨?_, ?_⟩ <;> decide +kernel
    exact .cons _ [] _ hfirst hclosed rfl (.last _ hsecond)

theorem strip_exact_mixed : ∃ doc, denote plainReader mixed = some doc ∧
    ∃ result, stripJobBlocks mixed "a".toList = some result ∧
      (result = none ↔ ∀ job ∈ doc.jobs, jobName job ≠ some "a".toList) ∧
      ∀ text', result = some text' → denote plainReader text' = some (doc.without "a".toList) := by
  have hdoc : (denote plainReader mixed).isSome = true := by decide +kernel
  obtain ⟨doc, hdoc⟩ := Option.isSome_iff_exists.mp hdoc
  exact ⟨doc, hdoc, strip_exact plainReader_lawful hdoc (Or.inr mixed_tidy)⟩

/-- The job `b` goes, too. -/
theorem neighbour_deleted : ∃ doc, denote plainReader neighbours = some doc ∧
    ¬∃ result, stripJobBlocks neighbours "a".toList = some result ∧
      (result = none ↔ ∀ job ∈ doc.jobs, jobName job ≠ some "a".toList) ∧
      ∀ text', result = some text' →
        denote plainReader text' = some (doc.without "a".toList) := by
  have hdoc : ∃ doc, denote plainReader neighbours = some doc ∧
      (doc.without "a".toList).jobs.length = 1 := exists_of_any (by decide +kernel)
  have hstrip : stripJobBlocks neighbours "a".toList = some (some []) := by decide +kernel
  have hempty : ∃ doc, denote plainReader [] = some doc ∧ doc.jobs.length = 0 :=
    exists_of_any (by decide +kernel)
  obtain ⟨doc, hdoc, hone⟩ := hdoc
  obtain ⟨doc', hdoc', hzero⟩ := hempty
  refine ⟨doc, hdoc, ?_⟩
  rintro ⟨result, hresult, -, hexact⟩
  rw [hstrip] at hresult
  cases hresult
  have heq := hexact [] rfl
  rw [hdoc'] at heq
  cases heq
  omega

end Synora.Config
