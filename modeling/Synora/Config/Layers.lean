import Synora.Config.Cycles
import Synora.Lib.Runs

namespace Synora.Config
open Strings Mirror Storage

/-! # Layers: what the merged document says -/

/-! ## One document over another -/

namespace Item

/-- The value at a path of keys; a table is none. -/
def leaf : Item → List Text → Option Item
  | .table entries, k :: path => (entries.lookup k).bind (leaf · path)
  | .table _, [] => none
  | item, [] => some item
  | _, _ :: _ => none

/-- Merging this item over another decides the value at the path. -/
def speaks : Item → List Text → Bool
  | .table entries, k :: path => ((entries.lookup k).map (speaks · path)).getD false
  | _, _ => true

/-- No table has two entries with one key. -/
inductive Distinct : Item → Prop
  | value (v : Toml.Value) : Distinct (.value v)
  | arrayOfTables (tables : List Doc) : Distinct (.arrayOfTables tables)
  | table (entries : Doc) (keys : (entries.map Prod.fst).Nodup)
      (items : ∀ e ∈ entries, Distinct e.2) : Distinct (.table entries)

end Item

section
variable {k k' : Text} {d src : Doc} {item old v : Item} {path : List Text}

theorem lookup_eq_table (k : Text) (d : Doc) :
    d.lookup k = (Table.lookup Prod.fst k d).map Prod.snd := by
  induction d with
  | nil => rfl
  | cons e d ih =>
    obtain ⟨k', v⟩ := e
    by_cases h : k' = k
    · subst h
      simp [Table.lookup]
    · have h' : ¬k = k' := fun hk => h hk.symm
      simp only [Table.lookup, List.lookup_cons, List.find?_cons, beq_eq_false_iff_ne.mpr h',
        decide_eq_false h] at ih ⊢
      exact ih

theorem lookup_insert_self : (Doc.insert k v d).lookup k = some v := by
  have h := @Table.lookup_upsert_self (Text × Item) Text _ Prod.fst (k, v) (fun e => (e.1, v)) d
    fun _ => rfl
  rw [lookup_eq_table, Doc.insert, h]
  cases Table.lookup Prod.fst k d <;> rfl

theorem lookup_insert_of_ne (h : k' ≠ k) : (Doc.insert k v d).lookup k' = d.lookup k' := by
  have hother := @Table.lookup_upsert_of_ne (Text × Item) Text _ Prod.fst k' (k, v)
    (fun e => (e.1, v)) d (fun _ => rfl) h
  rw [lookup_eq_table, lookup_eq_table, Doc.insert, hother]

/-- A key of the later table has its item there, merged into what the earlier one has under it. -/
theorem lookup_mergeTable (hkeys : (src.map Prod.fst).Nodup) :
    (mergeTable d src).lookup k =
      ((src.lookup k).map fun v => (d.lookup k).elim v (mergeItem · v)).or (d.lookup k) := by
  induction src generalizing d with
  | nil => rfl
  | cons e src ih =>
    obtain ⟨k', v⟩ := e
    obtain ⟨hfresh, hkeys⟩ := List.nodup_cons.mp hkeys
    rw [mergeTable, ih hkeys, List.lookup_cons]
    by_cases h : k = k'
    · subst h
      have hnone : src.lookup k = none := List.lookup_eq_none_iff.mpr fun e he => by
        simpa using fun hk => hfresh (List.mem_map.mpr ⟨e, he, hk.symm⟩)
      rw [hnone, lookup_insert_self]
      cases d.lookup k <;> simp
    · rw [lookup_insert_of_ne h, beq_eq_false_iff_ne.mpr h]

theorem leaf_of_not_speaks (h : item.speaks path = false) : item.leaf path = none := by
  induction path generalizing item with
  | nil => cases item <;> cases h
  | cons k path ih =>
    cases item with
    | value v => cases h
    | arrayOfTables ts => cases h
    | table entries =>
      rw [Item.speaks] at h
      rw [Item.leaf]
      cases hlook : entries.lookup k with
      | none => rfl
      | some v =>
        rw [hlook] at h
        exact ih h

theorem leaf_of_asTable (h : old.asTable = none) (k : Text) : old.leaf (k :: path) = none := by
  cases old with
  | table entries => cases h
  | value v => rfl
  | arrayOfTables ts => rfl

theorem leaf_eq_ite (item : Item) (path : List Text) :
    item.leaf path = if item.speaks path then item.leaf path else none := by
  cases h : item.speaks path with
  | true => rfl
  | false => exact leaf_of_not_speaks h

theorem leaf_mergeItem (hv : v.Distinct) (old : Item) (path : List Text) :
    (mergeItem old v).leaf path = if v.speaks path then v.leaf path else old.leaf path := by
  induction hv generalizing old path with
  | value v => cases path <;> rfl
  | arrayOfTables ts => cases path <;> rfl
  | table src hkeys _ ih =>
    cases path with
    | nil =>
      cases old with
      | table dst => rfl
      | value v => rfl
      | arrayOfTables ts => rfl
    | cons k path =>
      cases hold : old.asTable with
      | none =>
        rw [mergeItem, hold, leaf_of_asTable hold]
        exact leaf_eq_ite _ _
      | some dst =>
        obtain rfl : old = .table dst := by cases old <;> cases hold; rfl
        rw [mergeItem, hold]
        dsimp only
        rw [Item.leaf, Item.leaf, Item.leaf, Item.speaks, lookup_mergeTable hkeys]
        cases hsrc : src.lookup k with
        | none => simp
        | some v =>
          cases hdst : dst.lookup k with
          | none => simpa using leaf_eq_ite v path
          | some w =>
            obtain ⟨before, behind, hsplit, -⟩ := List.lookup_eq_some_iff.mp hsrc
            simpa using ih (k, v) (by simp [hsplit]) w path

def mergedLeaf (merged : Option Doc) (path : List Text) : Option Item :=
  (Item.table (merged.getD [])).leaf path

theorem leaf_mergeDoc (hsrc : (Item.table src).Distinct) (merged : Option Doc) (path : List Text) :
    mergedLeaf (some (mergeDoc merged src)) path =
      if (Item.table src).speaks path then (Item.table src).leaf path
      else mergedLeaf merged path := by
  cases merged with
  | some d => exact leaf_mergeItem hsrc (.table d) path
  | none =>
    have hempty : mergedLeaf none path = none := by cases path <;> rfl
    rw [hempty]
    exact leaf_eq_ite _ _

/-- A value of the merged document is that of the last document that decides it. -/
theorem leaf_foldl_mergeDoc {docs : List Doc} (hdocs : ∀ d ∈ docs, (Item.table d).Distinct)
    (merged : Option Doc) (path : List Text) :
    mergedLeaf (docs.foldl (fun m d => some (mergeDoc m d)) merged) path =
      ((docs.filter fun d => (Item.table d).speaks path).getLast?.map
        fun d => (Item.table d).leaf path).getD (mergedLeaf merged path) := by
  have hstep : ∀ d ∈ docs, ∀ m, mergedLeaf (some (mergeDoc m d)) path =
      (if (Item.table d).speaks path then some ((Item.table d).leaf path) else none).getD
        (mergedLeaf m path) := by
    intro d hd m
    rw [leaf_mergeDoc (hdocs d hd)]
    split_ifs <;> rfl
  rw [Runs.foldl_last (mergedLeaf · path) hstep, ← List.getLast?_map, ← List.filterMap_eq_map,
    List.filterMap_filter]
  rfl

end

/-! ## The layers of a load -/

/-- What `load_file` takes of one file. -/
structure Layer where
  path : Path
  jobs : List JobEntry
  doc : Doc

def Layer.Of (host : Host) (connectionOnly : Bool) (patterns : List Text) (l : Layer) : Prop :=
  ∃ cached doc, readDocument host l.path (String.ofList (display l.path)) = .ok cached ∧
    extractInclude cached.doc (String.ofList (display l.path)) cached.includeLine =
      .ok (patterns, doc) ∧
    takeJobs host connectionOnly doc (String.ofList (display l.path)) cached.jobLines =
      .ok (l.jobs, l.doc)

/-- The layers of files: of each file its own, and behind it those of the files it includes, pattern
by pattern. -/
inductive Layered (host : Host) (connectionOnly : Bool) : List Path → List Layer → Prop
  | nil : Layered host connectionOnly [] []
  | cons (l : Layer) (patterns : List Text) (files : List (List Path)) (paths : List Path)
      (below rest : List Layer) (hof : l.Of host connectionOnly patterns)
      (hfiles : List.Forall₂ (fun pattern fs => included host l.path pattern = .ok fs)
        patterns files)
      (hbelow : Layered host connectionOnly files.flatten below)
      (hrest : Layered host connectionOnly paths rest) :
      Layered host connectionOnly (l.path :: paths) (l :: (below ++ rest))

namespace Layered
variable {host : Host} {c : Bool} {ps qs : List Path} {ls ls' : List Layer}

theorem append (h : Layered host c ps ls) (h' : Layered host c qs ls') :
    Layered host c (ps ++ qs) (ls ++ ls') := by
  induction h with
  | nil => exact h'
  | cons l patterns files paths below rest hof hfiles hbelow _ _ ih =>
    rw [List.cons_append, List.cons_append, List.append_assoc]
    exact .cons l patterns files _ below _ hof hfiles hbelow ih

theorem flatten {lss : List (List Layer)}
    (h : List.Forall₂ (fun q ls => Layered host c [q] ls) ps lss) :
    Layered host c ps lss.flatten := by
  induction h with
  | nil => exact .nil
  | cons h _ ih => exact h.append ih

theorem of (h : Layered host c ps ls) : ∀ l ∈ ls, ∃ patterns, l.Of host c patterns := by
  induction h with
  | nil => exact List.forall_mem_nil _
  | cons l patterns files paths below rest hof _ _ _ ihbelow ihrest =>
    exact List.forall_mem_cons.mpr ⟨⟨patterns, hof⟩, List.forall_mem_append.mpr ⟨ihbelow, ihrest⟩⟩

end Layered

/-- The state with these layers added. -/
structure Extends (s s' : LoadState) (ls : List Layer) : Prop where
  connectionOnly : s'.connectionOnly = s.connectionOnly
  visits : s'.visits.map Visit.path = s.visits.map Visit.path ++ ls.map Layer.path
  jobs : s'.jobs = s.jobs ++ ls.flatMap Layer.jobs
  merged : s'.merged = (ls.map Layer.doc).foldl (fun m d => some (mergeDoc m d)) s.merged

namespace Extends
variable {s t u : LoadState} {ls ls' : List Layer}

theorem refl (s : LoadState) : Extends s s [] := ⟨rfl, by simp, by simp, rfl⟩

theorem trans (h : Extends s t ls) (h' : Extends t u ls') : Extends s u (ls ++ ls') where
  connectionOnly := h'.connectionOnly.trans h.connectionOnly
  visits := by rw [h'.visits, h.visits, List.map_append, List.append_assoc]
  jobs := by rw [h'.jobs, h.jobs, List.flatMap_append, List.append_assoc]
  merged := by rw [h'.merged, h.merged, List.map_append, List.foldl_append]

end Extends

section
variable {host : Host} {c : Bool} {path : Path} {depth fuel : ℕ} {s s' t : LoadState}
  {patterns : List Text}

/-- A loop adds the layers of its calls. -/
theorem each_extends {α : Type} {f : α → LoadState → Option (Except ConfigError LoadState)}
    {R : α → List Layer → Prop} {as : List α} (hs : s.connectionOnly = c)
    (hf : ∀ a ∈ as, ∀ s t, s.connectionOnly = c → f a s = some (.ok t) →
      ∃ ls, R a ls ∧ Extends s t ls)
    (h : each f as s = some (.ok s')) :
    ∃ below, List.Forall₂ R as below ∧ Extends s s' below.flatten := by
  induction as generalizing s with
  | nil =>
    obtain rfl : s = s' := by simpa [each] using h
    exact ⟨[], .nil, .refl s⟩
  | cons a as ih =>
    obtain ⟨t, ht, hrest⟩ := each_cons_ok.mp h
    obtain ⟨ls, hls, hext⟩ := hf a List.mem_cons_self s t hs ht
    obtain ⟨below, hbelow, hext'⟩ := ih (hext.connectionOnly.trans hs)
      (fun b hb => hf b (List.mem_cons_of_mem _ hb)) hrest
    exact ⟨ls :: below, .cons hls hbelow, hext.trans hext'⟩

/-- Everything `enter` checks and does. -/
theorem enter_eq_ok : enter host path depth s = .ok (t, patterns) ↔
    (depth ≤ maxIncludeDepth ∧ ¬s.onStack path ∧ s.files + 1 ≤ maxConfigFiles) ∧
    ∃ cached doc jobs rest, readDocument host path (String.ofList (display path)) = .ok cached ∧
      saturatingAdd s.bytes (byteLen cached.raw) ≤ maxConfigBytes ∧
      saturatingAdd s.bytes (byteLen cached.expanded) ≤ maxConfigBytes ∧
      extractInclude cached.doc (String.ofList (display path)) cached.includeLine =
        .ok (patterns, doc) ∧
      takeJobs host s.connectionOnly doc (String.ofList (display path)) cached.jobLines =
        .ok (jobs, rest) ∧
      t = { s with
        files := s.files + 1
        bytes := saturatingAdd s.bytes (byteLen cached.expanded)
        stack := path :: s.stack
        jobs := s.jobs ++ jobs
        merged := some (mergeDoc s.merged rest)
        visits := s.visits ++ [⟨path, depth, byteLen cached.expanded⟩] } := by
  constructor
  · intro h
    unfold enter at h
    dsimp only at h
    split_ifs at h with hdepth hstack hfiles
    refine ⟨⟨not_lt.mp hdepth, hstack, not_lt.mp hfiles⟩, ?_⟩
    cases hread : readDocument host path (String.ofList (display path)) with
    | error e =>
      rw [hread] at h
      cases h
    | ok cached =>
      rw [hread] at h
      dsimp only at h
      split_ifs at h with hraw hexpanded
      cases hinclude : extractInclude cached.doc (String.ofList (display path))
          cached.includeLine with
      | error e =>
        rw [hinclude] at h
        cases h
      | ok found =>
        rw [hinclude] at h
        dsimp only at h
        cases hjobs : takeJobs host s.connectionOnly found.2 (String.ofList (display path))
            cached.jobLines with
        | error e =>
          rw [hjobs] at h
          cases h
        | ok taken =>
          rw [hjobs] at h
          cases h
          exact ⟨cached, found.2, taken.1, taken.2, rfl, not_lt.mp hraw, not_lt.mp hexpanded,
            hinclude, hjobs, rfl⟩
  · rintro ⟨⟨hdepth, hstack, hfiles⟩, cached, doc, jobs, rest, hread, hraw, hexpanded, hinclude,
      hjobs, rfl⟩
    unfold enter
    dsimp only
    rw [if_neg (not_lt.mpr hdepth), if_neg hstack, if_neg (not_lt.mpr hfiles), hread]
    dsimp only
    rw [if_neg (not_lt.mpr hraw), if_neg (not_lt.mpr hexpanded), hinclude]
    dsimp only
    rw [hjobs]

theorem enter_layer (h : enter host path depth s = .ok (t, patterns)) :
    ∃ l : Layer, l.path = path ∧ l.Of host s.connectionOnly patterns ∧ Extends s t [l] := by
  obtain ⟨-, cached, doc, jobs, rest, hread, -, -, hinclude, hjobs, rfl⟩ := enter_eq_ok.mp h
  exact ⟨⟨path, jobs, rest⟩, rfl, ⟨cached, doc, hread, hinclude, hjobs⟩, rfl, by simp, by simp, rfl⟩

/-- The layers of the patterns of a file are those of all the files they match. -/
theorem layered_patterns {lss : List (List Layer)}
    (h : List.Forall₂ (fun pattern ls => ∃ fs, included host path pattern = .ok fs ∧
      Layered host c fs ls) patterns lss) :
    ∃ files, List.Forall₂ (fun pattern fs => included host path pattern = .ok fs) patterns files ∧
      Layered host c files.flatten lss.flatten := by
  induction h with
  | nil => exact ⟨[], .nil, .nil⟩
  | cons h _ ih =>
    obtain ⟨fs, hfs, hls⟩ := h
    obtain ⟨files, hfiles, hlayers⟩ := ih
    exact ⟨fs :: files, .cons hfs hfiles, hls.append hlayers⟩

theorem includePattern_extends
    {load : Path → LoadState → Option (Except ConfigError LoadState)}
    (hload : ∀ q s t, s.connectionOnly = c → load q s = some (.ok t) →
      ∃ ls, Layered host c [q] ls ∧ Extends s t ls)
    {pattern : Text} (hs : s.connectionOnly = c)
    (h : includePattern host path load pattern s = some (.ok s')) :
    ∃ ls, (∃ fs, included host path pattern = .ok fs ∧ Layered host c fs ls) ∧
      Extends s s' ls := by
  unfold includePattern at h
  split at h
  · cases h
  · rename_i fs hfs
    obtain ⟨below, hbelow, hext⟩ := each_extends hs (fun q _ => hload q) h
    exact ⟨_, ⟨fs, hfs, .flatten hbelow⟩, hext⟩

theorem loadFile_layered (h : loadFile host fuel path depth s = some (.ok s'))
    (hs : s.connectionOnly = c) : ∃ ls, Layered host c [path] ls ∧ Extends s s' ls := by
  induction fuel generalizing path depth s s' with
  | zero => cases h
  | succ fuel ih =>
    obtain ⟨t, u, patterns, henter, hall, rfl⟩ := loadFile_ok h
    obtain ⟨l, rfl, hof, hext⟩ := enter_layer henter
    obtain ⟨lss, hlss, hext'⟩ := each_extends (hext.connectionOnly.trans hs)
      (fun pattern _ s t hs ht => includePattern_extends
        (fun q s t hs hload => ih hload hs) hs ht) hall
    obtain ⟨files, hfiles, hbelow⟩ := layered_patterns hlss
    have hrun := hext.trans hext'
    refine ⟨l :: (lss.flatten ++ []), .cons l patterns files [] _ [] (hs ▸ hof) hfiles hbelow .nil,
      ?_⟩
    rw [List.append_nil]
    exact ⟨hrun.connectionOnly, hrun.visits, hrun.jobs, hrun.merged⟩

theorem readDocument_parsed {file : String} {cached : CachedDocument}
    (h : readDocument host path file = .ok cached) :
    ∃ text p, host.parse text = .ok p ∧ cached.doc = p.doc := by
  unfold readDocument at h
  split at h
  · cases h
  · split_ifs at h
    split at h
    · cases h
    · split at h
      · cases h
      · rename_i p hp
        cases h
        exact ⟨_, p, hp, rfl⟩

theorem distinct_remove {d : Doc} (k : Text) (h : (Item.table d).Distinct) :
    (Item.table (d.remove k)).Distinct := by
  cases h with
  | table _ hkeys hitems =>
    exact .table _ (hkeys.sublist (List.filter_sublist.map _))
      fun e he => hitems e (List.mem_filter.mp he).1

theorem distinct_empty : (Item.table []).Distinct := .table _ List.nodup_nil (List.forall_mem_nil _)

theorem extractArray_doc {d d' : Doc} {file : String} {lines : List ℕ} {jobs : List JobEntry}
    (h : extractArray host d file lines = .ok (jobs, d')) : d' = d.remove "jobs".toList := by
  unfold extractArray at h
  cases hjobs : d.lookup "jobs".toList with
  | none =>
    rw [hjobs] at h
    cases h
    refine (List.filter_eq_self.mpr fun e he => ?_).symm
    have hne : ¬("jobs".toList == e.1) = true := by
      simpa using List.lookup_eq_none_iff.mp hjobs e he
    rw [decide_eq_true_iff]
    exact fun hk => hne (by simp [hk])
  | some item =>
    rw [hjobs] at h
    dsimp only at h
    split at h
    · cases h
    · cases htables : extractTables host file (lines.head?.getD 0) lines 0 _ with
      | error e =>
        rw [htables] at h
        cases h
      | ok tables =>
        rw [htables] at h
        cases h
        rfl

/-- The document is the same whether the jobs are read or dropped. -/
theorem takeJobs_doc {d d' : Doc} {file : String} {lines : List ℕ} {jobs : List JobEntry}
    (h : takeJobs host c d file lines = .ok (jobs, d')) :
    takeJobs host true d file lines = .ok ([], d') ∧ (c = true → jobs = []) := by
  unfold takeJobs at h ⊢
  cases c with
  | true =>
    cases h
    exact ⟨rfl, fun _ => rfl⟩
  | false =>
    refine ⟨?_, nofun⟩
    rw [if_neg Bool.false_ne_true] at h
    unfold extractJobs at h
    cases harray : extractArray host d file lines with
    | error e =>
      rw [harray] at h
      cases h
    | ok found =>
      obtain ⟨array, rest⟩ := found
      obtain rfl := extractArray_doc harray
      rw [harray] at h
      dsimp only at h
      rw [if_pos rfl]
      dsimp only
      by_cases hprovider : ((d.remove "jobs".toList).lookup "provider".toList).isSome
      · rw [if_pos hprovider] at h ⊢
        split at h
        · cases h
        · cases h
          rfl
      · rw [if_neg hprovider] at h ⊢
        cases h
        rfl

theorem extractInclude_distinct {d d' : Doc} {file : String} {line : ℕ}
    (h : extractInclude d file line = .ok (patterns, d')) (hd : (Item.table d).Distinct) :
    (Item.table d').Distinct := by
  unfold extractInclude at h
  split at h
  · cases h
    exact hd
  · split at h
    · cases h
    · split at h
      · cases h
      · cases h
        exact distinct_remove _ hd

theorem Layer.Of.distinct {l : Layer} (h : l.Of host c patterns)
    (hparse : ∀ text p, host.parse text = .ok p → (Item.table p.doc).Distinct) :
    (Item.table l.doc).Distinct := by
  obtain ⟨cached, doc, hread, hinclude, hjobs⟩ := h
  obtain ⟨text, p, hp, hdoc⟩ := readDocument_parsed hread
  have hrest := extractInclude_distinct hinclude (hdoc ▸ hparse text p hp)
  have hdrop : (if ((doc.remove "jobs".toList).lookup "provider".toList).isSome then []
      else doc.remove "jobs".toList) = l.doc :=
    congrArg Prod.snd (Except.ok.inj (takeJobs_doc hjobs).1)
  rw [← hdrop]
  split
  · exact distinct_empty
  · exact distinct_remove _ hrest

end

/-- A load takes the files in the order in which they include one another, each file before what it
includes; the jobs are those of all of them in that order, and of the files that decide a value of
the merged document the last one has its way. -/
theorem last_layer_wins (host : Host)
    (hparse : ∀ text p, host.parse text = .ok p → (Item.table p.doc).Distinct)
    (fuel : ℕ) (main : Path) (connectionOnly : Bool) (s : LoadState)
    (h : loadFile host fuel main 0 (.start connectionOnly) = some (.ok s)) :
    ∃ ls, Layered host connectionOnly [main] ls ∧ s.visits.map Visit.path = ls.map Layer.path ∧
      s.jobs = ls.flatMap Layer.jobs ∧ ∀ path, mergedLeaf s.merged path =
        ((ls.map Layer.doc).filter fun d => (Item.table d).speaks path).getLast?.bind
          fun d => (Item.table d).leaf path := by
  obtain ⟨ls, hls, hext⟩ := loadFile_layered h rfl
  refine ⟨ls, hls, hext.visits, hext.jobs, fun path => ?_⟩
  have hdistinct : ∀ d ∈ ls.map Layer.doc, (Item.table d).Distinct := by
    intro d hd
    obtain ⟨l, hl, rfl⟩ := List.mem_map.mp hd
    obtain ⟨patterns, hof⟩ := hls.of l hl
    exact hof.distinct hparse
  have hempty : mergedLeaf none path = none := by cases path <;> rfl
  rw [hext.merged, leaf_foldl_mergeDoc hdistinct, LoadState.start, hempty]
  cases ((ls.map Layer.doc).filter fun d => (Item.table d).speaks path).getLast? <;> rfl

/-! ### A main file and what it includes -/

def includedToml : Path := Path.ofText "/etc/jobs.toml".toList

def settings (n : Text) (rest : Doc) : Doc :=
  ("daemon".toList, .table [("max_concurrency".toList, .value (.string n))]) :: rest

/-- `/etc/main.toml` includes `jobs.toml`, and both set a limit. -/
def twoFiles : Host where
  env _ := none
  read p :=
    if p = mainToml then some "main".toList else if p = includedToml then some [] else none
  present p := decide (p = mainToml ∨ p = includedToml)
  canonicalize p := some p
  glob _ := .ok []
  parse t :=
    if t = [] then .ok ⟨settings "2".toList [], [], none, none⟩
    else .ok ⟨settings "1".toList
      [("include".toList, .value (.array [.string "jobs.toml".toList]))], [], none, some 1⟩
  jobOfTable _ := .error []
  jobOfDocument _ := .error []
  root _ := .error []

theorem settings_distinct (n : Text) {rest : Doc} (hfresh : "daemon".toList ∉ rest.map Prod.fst)
    (hkeys : (rest.map Prod.fst).Nodup) (hrest : ∀ e ∈ rest, e.2.Distinct) :
    (Item.table (settings n rest)).Distinct :=
  .table _ (List.nodup_cons.mpr ⟨hfresh, hkeys⟩) (List.forall_mem_cons.mpr
    ⟨.table _ (List.nodup_singleton _) (List.forall_mem_singleton.mpr (.value _)), hrest⟩)

theorem twoFiles_distinct (text : Text) (p : Parsed) (h : twoFiles.parse text = .ok p) :
    (Item.table p.doc).Distinct := by
  unfold twoFiles at h
  dsimp only at h
  split_ifs at h
  · cases h
    exact settings_distinct _ List.not_mem_nil List.nodup_nil (List.forall_mem_nil _)
  · cases h
    exact settings_distinct _ (by decide) (List.nodup_singleton _)
      (List.forall_mem_singleton.mpr (.value _))

theorem last_layer_wins_twoFiles :
    ∃ s, loadFile twoFiles 34 mainToml 0 (.start false) = some (.ok s) ∧
      ∃ ls, Layered twoFiles false [mainToml] ls ∧
        s.visits.map Visit.path = ls.map Layer.path ∧
        s.jobs = ls.flatMap Layer.jobs ∧ ∀ path, mergedLeaf s.merged path =
          ((ls.map Layer.doc).filter fun d => (Item.table d).speaks path).getLast?.bind
            fun d => (Item.table d).leaf path :=
  ⟨_, rfl, last_layer_wins twoFiles twoFiles_distinct 34 mainToml false _ rfl⟩

end Synora.Config
