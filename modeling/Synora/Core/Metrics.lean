import Mathlib.Data.List.Sort
import Mathlib.Data.Prod.Lex
import Synora.Lib.Escape
import Synora.Lib.Exposition

namespace Synora.Core
open Strings Exposition

/-! # Metrics -/

inductive MetricType
  | gauge | counter
deriving DecidableEq, Repr

def MetricType.asStr : MetricType → Text
  | gauge => "gauge".toList
  | counter => "counter".toList

structure Key where
  name : Text
  labels : List (Text × Text)
deriving DecidableEq, Repr

variable {V : Type*}

structure Entry (V : Type*) where
  kind : MetricType
  value : V
deriving DecidableEq, Repr

/-- `f64`, with how it prints. -/
structure Values (V : Type*) where
  zero : V
  add : V → V → V
  display : V → Text

/-- The map, in one of the orders in which it may be iterated. -/
structure Metrics (V : Type*) where
  entries : List (Key × Entry V)
  nodup : (entries.map Prod.fst).Nodup

def Metrics.new : Metrics V := ⟨[], List.nodup_nil⟩

namespace Metrics

def get (m : Metrics V) (key : Key) : Option (Entry V) :=
  (m.entries.find? fun e => decide (e.1 = key)).map Prod.snd

def retain (m : Metrics V) (p : Key → Bool) : Metrics V where
  entries := m.entries.filter fun e => p e.1
  nodup := (List.filter_sublist.map _).nodup m.nodup

def insert (m : Metrics V) (key : Key) (entry : Entry V) : Metrics V where
  entries := (m.retain fun k => decide (k ≠ key)).entries ++ [(key, entry)]
  nodup := by
    rw [List.map_append, List.map_singleton]
    refine List.nodup_append.mpr ⟨(m.retain _).nodup, List.nodup_singleton key, ?_⟩
    rintro k hk _ hkey rfl
    rw [List.mem_singleton] at hkey
    obtain ⟨e, he, rfl⟩ := List.mem_map.mp hk
    exact of_decide_eq_true (List.mem_filter.mp he).2 hkey

end Metrics

/-- By the first text, then by the second. -/
def ByPair {α : Type*} (f : α → Text × Text) (a b : α) : Prop := toLex (f a) ≤ toLex (f b)

instance {α : Type*} (f : α → Text × Text) : DecidableRel (ByPair f) := fun a b =>
  inferInstanceAs (Decidable (toLex (f a) ≤ toLex (f b)))

/-- The key of a series: its labels are sorted, so their order in the call does not matter. -/
def keyOf (name : Text) (labels : List (Text × Text)) : Key :=
  ⟨name, labels.insertionSort (ByPair id)⟩

def Key.hasLabel (key : Key) (name value : Text) : Bool := key.labels.contains (name, value)

/-- A call that changes the registry. -/
inductive Write (V : Type*)
  | setGauge (name : Text) (labels : List (Text × Text)) (value : V)
  | setJobGauge (name job : Text) (labels : List (Text × Text)) (value : V)
  | removeJobMetric (name job : Text)
  | removeJobWorkerMetric (name job worker : Text)
  | removeWorkerMetrics (names : List Text) (worker : Text)
  | incCounter (name : Text) (labels : List (Text × Text)) (delta : V)
  | removeJob (job : Text)

namespace Metrics

def setGauge (m : Metrics V) (name : Text) (labels : List (Text × Text)) (value : V) : Metrics V :=
  m.insert (keyOf name labels) ⟨.gauge, value⟩

def removeJobMetric (m : Metrics V) (name job : Text) : Metrics V :=
  m.retain fun key => !(decide (key.name = name) && key.hasLabel "job".toList job)

def setJobGauge (m : Metrics V) (name job : Text) (labels : List (Text × Text)) (value : V) :
    Metrics V := (m.removeJobMetric name job).setGauge name labels value

def removeJobWorkerMetric (m : Metrics V) (name job worker : Text) : Metrics V :=
  m.retain fun key => !(decide (key.name = name) && key.hasLabel "job".toList job &&
    key.hasLabel "worker".toList worker)

def removeWorkerMetrics (m : Metrics V) (names : List Text) (worker : Text) : Metrics V :=
  m.retain fun key => !(names.contains key.name && key.hasLabel "worker".toList worker)

def incCounter (f64 : Values V) (m : Metrics V) (name : Text) (labels : List (Text × Text))
    (delta : V) : Metrics V :=
  let entry := (m.get (keyOf name labels)).getD ⟨.counter, f64.zero⟩
  m.insert (keyOf name labels) { entry with value := f64.add entry.value delta }

def removeJob (m : Metrics V) (job : Text) : Metrics V :=
  m.retain fun key => !key.hasLabel "job".toList job

def write (f64 : Values V) (m : Metrics V) : Write V → Metrics V
  | .setGauge name labels value => m.setGauge name labels value
  | .setJobGauge name job labels value => m.setJobGauge name job labels value
  | .removeJobMetric name job => m.removeJobMetric name job
  | .removeJobWorkerMetric name job worker => m.removeJobWorkerMetric name job worker
  | .removeWorkerMetrics names worker => m.removeWorkerMetrics names worker
  | .incCounter name labels delta => m.incCounter f64 name labels delta
  | .removeJob job => m.removeJob job

def after (f64 : Values V) (writes : List (Write V)) : Metrics V :=
  writes.foldl (write f64) .new

end Metrics

/-! ## Rendering -/

def escapeLabel (v : Text) : Text :=
  replace "\n".toList "\\n".toList (replace "\"".toList "\\\"".toList
    (replace "\\".toList "\\\\".toList v))

def sampleText (f64 : Values V) (e : Key × Entry V) : Text :=
  e.1.name ++ (if e.1.labels = [] then [] else "\x7b".toList ++ ",".toList.intercalate
    (e.1.labels.map fun p => p.1 ++ "=\"".toList ++ escapeLabel p.2 ++ "\"".toList) ++
      "\x7d".toList) ++ " ".toList ++ f64.display e.2.value

/-- The samples one after the other, with a `TYPE` line where the name changes. -/
def renderFrom (last : Option Text) : List (Text × MetricType × Text) → Text
  | [] => []
  | (name, kind, sample) :: rest =>
    (if last ≠ some name then
      "# TYPE ".toList ++ name ++ " ".toList ++ kind.asStr ++ "\n".toList else []) ++
      sample ++ "\n".toList ++ renderFrom (some name) rest

/-- `Metrics::render`, with the entries in the order of the iteration. -/
def render (f64 : Values V) (entries : List (Key × Entry V)) : Text :=
  renderFrom none ((entries.map fun e => (e.1.name, e.2.kind, sampleText f64 e)).insertionSort
    (ByPair fun s => (s.1, s.2.2)))

/-! ## What a write leaves -/

/-- The series a write sets. -/
def Write.key : Write V → Option Key
  | .setGauge name labels _ => some (keyOf name labels)
  | .setJobGauge name _ labels _ => some (keyOf name labels)
  | .incCounter name labels _ => some (keyOf name labels)
  | _ => none

/-- Names of metrics and labels are identifiers. -/
def Write.Named : Write V → Prop
  | .setGauge name labels _ => isName isMetricChar name ∧ ∀ p ∈ labels, isName isLabelChar p.1
  | .setJobGauge name _ labels _ =>
    isName isMetricChar name ∧ ∀ p ∈ labels, isName isLabelChar p.1
  | .incCounter name labels _ => isName isMetricChar name ∧ ∀ p ∈ labels, isName isLabelChar p.1
  | _ => True

structure Key.Valid (key : Key) : Prop where
  name : isName isMetricChar key.name
  labels : ∀ p ∈ key.labels, isName isLabelChar p.1
  sorted : key.labels.Pairwise (ByPair id)

section
variable {α : Type*} (f : α → Text × Text)

instance : Std.Total (ByPair f) := ⟨fun _ _ => le_total _ _⟩

instance : IsTrans α (ByPair f) := ⟨fun _ _ _ h h' => le_trans h h'⟩

end

variable {f64 : Values V} {m : Metrics V} {name : Text} {labels : List (Text × Text)}

theorem keyOf_valid (h : isName isMetricChar name ∧ ∀ p ∈ labels, isName isLabelChar p.1) :
    (keyOf name labels).Valid where
  name := h.1
  labels p hp := h.2 p ((List.mem_insertionSort (ByPair id)).mp hp)
  sorted := List.pairwise_insertionSort (ByPair id) labels

namespace Metrics

theorem mem_retain {p : Key → Bool} {e : Key × Entry V} (h : e ∈ (m.retain p).entries) :
    e ∈ m.entries := List.mem_of_mem_filter h

theorem mem_insert {key : Key} {entry : Entry V} {e : Key × Entry V}
    (h : e ∈ (m.insert key entry).entries) : e ∈ m.entries ∨ e.1 = key := by
  obtain h | h := List.mem_append.mp h
  · exact .inl (mem_retain h)
  · exact .inr (congrArg Prod.fst (List.mem_singleton.mp h))

/-- Every series after a write was there before, or the write has set it. -/
theorem mem_write {w : Write V} {e : Key × Entry V} (h : e ∈ (m.write f64 w).entries) :
    e ∈ m.entries ∨ w.key = some e.1 := by
  cases w with
  | setGauge name labels value =>
    exact (mem_insert h).imp_right fun hkey => congrArg some hkey.symm
  | setJobGauge name job labels value =>
    exact (mem_insert h).imp mem_retain fun hkey => congrArg some hkey.symm
  | removeJobMetric name job => exact .inl (mem_retain h)
  | removeJobWorkerMetric name job worker => exact .inl (mem_retain h)
  | removeWorkerMetrics names worker => exact .inl (mem_retain h)
  | incCounter name labels delta =>
    exact (mem_insert h).imp_right fun hkey => congrArg some hkey.symm
  | removeJob job => exact .inl (mem_retain h)

end Metrics

theorem Write.Named.key_valid {w : Write V} (h : w.Named) {key : Key} (hkey : w.key = some key) :
    key.Valid := by
  cases w with
  | setGauge name labels value => exact Option.some.inj hkey ▸ keyOf_valid h
  | setJobGauge name job labels value => exact Option.some.inj hkey ▸ keyOf_valid h
  | incCounter name labels delta => exact Option.some.inj hkey ▸ keyOf_valid h
  | removeJobMetric name job => cases hkey
  | removeJobWorkerMetric name job worker => cases hkey
  | removeWorkerMetrics names worker => cases hkey
  | removeJob job => cases hkey

namespace Metrics

theorem after_valid {writes : List (Write V)} (h : ∀ w ∈ writes, w.Named) :
    ∀ e ∈ (after f64 writes).entries, e.1.Valid := by
  induction writes using List.reverseRecOn with
  | nil => exact fun _ he => absurd he List.not_mem_nil
  | append_singleton writes w ih =>
    intro e he
    rw [after, List.foldl_append] at he
    obtain he | hkey := mem_write he
    · exact ih (fun x hx => h x (List.mem_append_left _ hx)) e he
    · exact (h w (by simp)).key_valid hkey

/-- What is left of the job's series in one metric is the one just set. -/
theorem setJobGauge_series (m : Metrics V) (name job : Text) {labels : List (Text × Text)}
    (value : V) (hjob : ("job".toList, job) ∈ labels) :
    (m.setJobGauge name job labels value).entries.filter
        (fun e => decide (e.1.name = name) && e.1.hasLabel "job".toList job) =
      [(keyOf name labels, ⟨.gauge, value⟩)] := by
  have hkey : (keyOf name labels).hasLabel "job".toList job := by
    rw [Key.hasLabel, List.contains_iff_mem]
    exact (List.mem_insertionSort (ByPair id)).mpr hjob
  have hnone : ((m.removeJobMetric name job).retain
      fun k => decide (k ≠ keyOf name labels)).entries.filter
      (fun e => decide (e.1.name = name) && e.1.hasLabel "job".toList job) = [] := by
    rw [List.filter_eq_nil_iff]
    intro e he
    have hgone := (List.mem_filter.mp (mem_retain he)).2
    rw [Bool.not_eq_true'] at hgone
    rw [hgone]
    exact Bool.false_ne_true
  change (((m.removeJobMetric name job).retain _).entries ++ _).filter _ = _
  rw [List.filter_append, hnone, List.nil_append, List.filter_singleton, hkey, Bool.and_true]
  simp [keyOf]

end Metrics

/-! ## What is rendered -/

def sampleOf (f64 : Values V) (e : Key × Entry V) : Sample :=
  ⟨e.1.name, e.1.labels, f64.display e.2.value⟩

/-- The samples of one metric under their `TYPE` line. -/
structure Family where
  name : Text
  kind : MetricType
  samples : List Sample
deriving DecidableEq, Repr

def Family.sampleLines (fam : Family) : List Line := fam.samples.map .sample

def Family.lines (fam : Family) : List Line := .typed fam.name fam.kind.asStr :: fam.sampleLines

/-- Entries that follow each other under one name make a family, of the kind of the first. -/
def families (f64 : Values V) : List (Key × Entry V) → List Family
  | [] => []
  | e :: es =>
    match families f64 es with
    | [] => [⟨e.1.name, e.2.kind, [sampleOf f64 e]⟩]
    | fam :: fams =>
      if fam.name = e.1.name then ⟨e.1.name, e.2.kind, sampleOf f64 e :: fam.samples⟩ :: fams
      else ⟨e.1.name, e.2.kind, [sampleOf f64 e]⟩ :: fam :: fams

/-- The lines that are still to come when the samples of `last` have begun. -/
def linesFrom (last : Option Text) : List Family → List Line
  | [] => []
  | fam :: fams =>
    (if last = some fam.name then fam.sampleLines else fam.lines) ++ fams.flatMap Family.lines

def written (ls : List Line) : Text := ls.flatMap fun line => line.text ++ ['\n']

theorem written_append (ls ls' : List Line) : written (ls ++ ls') = written ls ++ written ls' :=
  List.flatMap_append

/-- The three replacements do not see each other's work. -/
theorem escapeLabel_eq (v : Text) : escapeLabel v = v.flatMap escapeChar := by
  unfold escapeLabel
  change replace ['\n'] _ (replace ['"'] _ (replace ['\\'] _ v)) = _
  rw [replace_singleton, replace_singleton, replace_singleton, List.flatMap_assoc,
    List.flatMap_assoc]
  apply List.flatMap_congr
  intro c _
  unfold escapeChar
  by_cases hslash : c = '\\'
  · subst hslash
    rfl
  rw [if_neg hslash, if_neg hslash, List.flatMap_singleton]
  by_cases hquote : c = '"'
  · subst hquote
    rfl
  rw [if_neg hquote, if_neg hquote, List.flatMap_singleton]
  rfl

theorem sampleText_eq (f64 : Values V) (e : Key × Entry V) :
    sampleText f64 e = (sampleOf f64 e).text := by
  have hlabels : (e.1.labels.map fun p => p.1 ++ "=\"".toList ++ escapeLabel p.2 ++ "\"".toList) =
      e.1.labels.map Sample.labelText := by
    apply List.map_congr_left
    intro p _
    rw [escapeLabel_eq, Sample.labelText]
  rw [sampleText, hlabels]
  rfl

theorem families_cons (e : Key × Entry V) (es : List (Key × Entry V)) :
    families f64 (e :: es) =
      match families f64 es with
      | [] => [⟨e.1.name, e.2.kind, [sampleOf f64 e]⟩]
      | fam :: fams =>
        if fam.name = e.1.name then ⟨e.1.name, e.2.kind, sampleOf f64 e :: fam.samples⟩ :: fams
        else ⟨e.1.name, e.2.kind, [sampleOf f64 e]⟩ :: fam :: fams := rfl

/-- The next entry either opens a family or joins the one that follows. -/
theorem linesFrom_cons (last : Option Text) (e : Key × Entry V) (es : List (Key × Entry V)) :
    linesFrom last (families f64 (e :: es)) =
      (if last = some e.1.name then [] else [.typed e.1.name e.2.kind.asStr]) ++
        .sample (sampleOf f64 e) :: linesFrom (some e.1.name) (families f64 es) := by
  rw [families_cons]
  rcases families f64 es with _ | ⟨fam, fams⟩
  · dsimp only
    rw [linesFrom, linesFrom]
    split_ifs <;> rfl
  · dsimp only
    by_cases hname : fam.name = e.1.name
    · rw [if_pos hname, linesFrom, linesFrom, if_pos (congrArg some hname.symm)]
      split_ifs <;> rfl
    · rw [if_neg hname, linesFrom, linesFrom, if_neg (fun h => hname (Option.some.inj h).symm)]
      split_ifs <;> rfl

/-- The loop writes the families of the entries, line after line. -/
theorem renderFrom_eq (last : Option Text) (es : List (Key × Entry V)) :
    renderFrom last (es.map fun e => (e.1.name, e.2.kind, sampleText f64 e)) =
      written (linesFrom last (families f64 es)) := by
  induction es generalizing last with
  | nil => rfl
  | cons e es ih =>
    rw [List.map_cons, renderFrom, ih, linesFrom_cons, written_append, sampleText_eq]
    by_cases hlast : last = some e.1.name
    · rw [if_neg (not_not.mpr hlast), if_pos hlast]
      simp only [written, List.flatMap_cons, Line.text_sample, List.append_assoc]
      rfl
    · rw [if_pos hlast, if_neg hlast]
      simp only [written, List.flatMap_cons, Line.text_sample, Line.text_typed, List.append_assoc]
      rfl

theorem linesFrom_none (fams : List Family) : linesFrom none fams = fams.flatMap Family.lines := by
  cases fams <;> rfl

theorem families_samples (es : List (Key × Entry V)) :
    (families f64 es).flatMap Family.samples = es.map (sampleOf f64) := by
  induction es with
  | nil => rfl
  | cons e es ih =>
    rw [families_cons, List.map_cons, ← ih]
    rcases families f64 es with _ | ⟨fam, fams⟩
    · rfl
    · dsimp only
      split_ifs <;> rfl

/-- Each family holds samples, all under its name, which some entry has. -/
theorem families_named (es : List (Key × Entry V)) : ∀ fam ∈ families f64 es,
    fam.samples ≠ [] ∧ (∀ s ∈ fam.samples, s.name = fam.name) ∧ ∃ e ∈ es, e.1.name = fam.name := by
  induction es with
  | nil => exact fun _ h => absurd h List.not_mem_nil
  | cons e es ih =>
    have hlone : ∀ s ∈ [sampleOf f64 e], s.name = e.1.name := by
      intro s hs
      rw [List.mem_singleton.mp hs]
      rfl
    have hmore (fam : Family) (h : ∃ x ∈ es, x.1.name = fam.name) :
        ∃ x ∈ e :: es, x.1.name = fam.name :=
      h.imp fun x hx => ⟨List.mem_cons_of_mem e hx.1, hx.2⟩
    rw [families_cons]
    rcases hfams : families f64 es with _ | ⟨fam, fams⟩
    · intro x hx
      rw [List.mem_singleton.mp hx]
      exact ⟨List.cons_ne_nil _ _, hlone, e, List.mem_cons_self, rfl⟩
    · rw [hfams] at ih
      obtain ⟨⟨hne, hsamples, hentry⟩, hrest⟩ := List.forall_mem_cons.mp ih
      dsimp only
      split_ifs with hname
      · refine List.forall_mem_cons.mpr ⟨⟨List.cons_ne_nil _ _, ?_, e, List.mem_cons_self, rfl⟩, ?_⟩
        · rw [List.forall_mem_cons]
          exact ⟨rfl, fun s hs => (hsamples s hs).trans hname⟩
        · exact fun x hx => ⟨(hrest x hx).1, (hrest x hx).2.1, hmore x (hrest x hx).2.2⟩
      · refine List.forall_mem_cons.mpr
          ⟨⟨List.cons_ne_nil _ _, hlone, e, List.mem_cons_self, rfl⟩, ?_⟩
        exact fun x hx => ⟨(ih x hx).1, (ih x hx).2.1, hmore x (ih x hx).2.2⟩

/-- Sorted entries have no two families of one name. -/
theorem families_sorted {es : List (Key × Entry V)}
    (h : es.Pairwise fun a b => a.1.name ≤ b.1.name) :
    ((families f64 es).map Family.name).Pairwise (· < ·) := by
  induction es with
  | nil => exact .nil
  | cons e es ih =>
    obtain ⟨hle, hes⟩ := List.pairwise_cons.mp h
    have hfams := ih hes
    have hnames : ∀ fam ∈ families f64 es, e.1.name ≤ fam.name := by
      intro fam hfam
      obtain ⟨x, hx, hname⟩ := (families_named es fam hfam).2.2
      exact hname ▸ hle x hx
    rw [families_cons]
    rcases hsplit : families f64 es with _ | ⟨fam, fams⟩
    · exact List.pairwise_singleton _ _
    · rw [hsplit] at hfams hnames
      obtain ⟨hfirst, -⟩ := List.forall_mem_cons.mp hnames
      dsimp only
      split_ifs with hname
      · rw [List.map_cons] at hfams ⊢
        rwa [hname] at hfams
      · have hlt : e.1.name < fam.name := lt_of_le_of_ne hfirst (Ne.symm hname)
        rw [List.map_cons]
        refine List.pairwise_cons.mpr ⟨?_, hfams⟩
        rw [List.map_cons, List.forall_mem_cons]
        rw [List.map_cons, List.pairwise_cons] at hfams
        exact ⟨hlt, fun n hn => hlt.trans (hfams.1 n hn)⟩

/-- What stands in a sorted list of samples, by name and text. -/
def samplePair (f64 : Values V) (e : Key × Entry V) : Text × Text := (e.1.name, sampleText f64 e)

theorem render_eq (f64 : Values V) (entries : List (Key × Entry V)) :
    render f64 entries =
      written ((families f64 (entries.insertionSort (ByPair (samplePair f64)))).flatMap
        Family.lines) := by
  have hsort := List.map_insertionSort (ByPair (samplePair f64))
    (ByPair fun s : Text × MetricType × Text => (s.1, s.2.2))
    (fun e : Key × Entry V => (e.1.name, e.2.kind, sampleText f64 e)) entries
    fun _ _ _ _ => Iff.rfl
  rw [render, ← hsort, renderFrom_eq, linesFrom_none]

theorem sort_names (f64 : Values V) (entries : List (Key × Entry V)) :
    (entries.insertionSort (ByPair (samplePair f64))).Pairwise
      fun a b => a.1.name ≤ b.1.name := by
  refine (List.pairwise_insertionSort (ByPair (samplePair f64)) entries).imp ?_
  intro a b h
  exact (Prod.Lex.toLex_le_toLex.mp h).elim le_of_lt fun h => h.1.le

theorem sampleOf_valid {e : Key × Entry V} (he : e.1.Valid)
    (hdisplay : ∀ v, IsToken (f64.display v)) : (sampleOf f64 e).Valid :=
  ⟨he.name, he.labels, hdisplay _⟩

theorem asStr_mem (kind : MetricType) : kind.asStr ∈ kinds := by
  cases kind <;> decide

theorem families_valid {es : List (Key × Entry V)} (h : ∀ e ∈ es, e.1.Valid)
    (hdisplay : ∀ v, IsToken (f64.display v)) :
    ∀ line ∈ (families f64 es).flatMap Family.lines, line.Valid := by
  intro line hline
  obtain ⟨fam, hfam, hline⟩ := List.mem_flatMap.mp hline
  obtain ⟨-, -, e, he, hname⟩ := families_named es fam hfam
  obtain rfl | hline := List.mem_cons.mp hline
  · exact ⟨hname ▸ (h e he).name, asStr_mem fam.kind⟩
  · obtain ⟨s, hs, rfl⟩ := List.mem_map.mp hline
    have hmem : s ∈ es.map (sampleOf f64) := by
      rw [← families_samples]
      exact List.mem_flatMap.mpr ⟨fam, hfam, hs⟩
    obtain ⟨x, hx, rfl⟩ := List.mem_map.mp hmem
    exact sampleOf_valid (h x hx) hdisplay

/-- What is rendered after any writes reads back as the series of the registry, whatever order the
map is iterated in: one family of lines for each metric, a `TYPE` line before its samples. -/
theorem render_lossless (f64 : Values V) (writes : List (Write V)) (entries : List (Key × Entry V))
    (hnamed : ∀ w ∈ writes, w.Named) (hdisplay : ∀ v, IsToken (f64.display v))
    (horder : entries.Perm (Metrics.after f64 writes).entries) :
    (∃ fams : List Family, parse (render f64 entries) = some (fams.flatMap Family.lines) ∧
      (fams.map Family.name).Nodup ∧
      (∀ fam ∈ fams, fam.samples ≠ [] ∧ ∀ s ∈ fam.samples, s.name = fam.name) ∧
      (fams.flatMap Family.samples).Perm
        ((Metrics.after f64 writes).entries.map (sampleOf f64))) ∧
      ((Metrics.after f64 writes).entries.map Prod.fst).Nodup ∧
      (∀ e ∈ (Metrics.after f64 writes).entries, e.1.labels.Pairwise (ByPair id)) ∧
      ∀ name job labels value, ("job".toList, job) ∈ labels →
        (Metrics.after f64 (writes ++ [.setJobGauge name job labels value])).entries.filter
          (fun e => decide (e.1.name = name) && e.1.hasLabel "job".toList job) =
        [(keyOf name labels, ⟨.gauge, value⟩)] := by
  have hvalid := @Metrics.after_valid V f64 writes hnamed
  have hsorted := List.perm_insertionSort (ByPair (samplePair f64)) entries
  refine ⟨⟨families f64 (entries.insertionSort (ByPair (samplePair f64))), ?_, ?_, ?_, ?_⟩,
    (Metrics.after f64 writes).nodup, fun e he => (hvalid e he).sorted, ?_⟩
  · rw [render_eq]
    refine parse_text (families_valid (fun e he => hvalid e ?_) hdisplay)
    exact horder.mem_iff.mp (hsorted.mem_iff.mp he)
  · exact (families_sorted (sort_names f64 entries)).imp fun h => h.ne
  · exact fun fam hfam => ⟨(families_named _ fam hfam).1, (families_named _ fam hfam).2.1⟩
  · rw [families_samples]
    exact (hsorted.trans horder).map _
  · intro name job labels value hjob
    rw [Metrics.after, List.foldl_append]
    exact Metrics.setJobGauge_series _ name job value hjob

/-- A digit that is counted on. -/
def digits : Values (Fin 10) := ⟨0, (· + ·), fun d => [Char.ofNat (0x30 + d)]⟩

theorem render_lossless_job :
    let entries := (Metrics.after digits [.setJobGauge "synora_job_status".toList "a\"b".toList
      [("worker".toList, "local".toList), ("job".toList, "a\"b".toList)] 6]).entries
    ∃ fams : List Family, parse (render digits entries) = some (fams.flatMap Family.lines) ∧
      (fams.flatMap Family.samples).Perm (entries.map (sampleOf digits)) := by
  intro entries
  obtain ⟨⟨fams, hparse, -, -, hsamples⟩, -⟩ := render_lossless digits [.setJobGauge
    "synora_job_status".toList "a\"b".toList
    [("worker".toList, "local".toList), ("job".toList, "a\"b".toList)] 6] entries
    (by
      intro w hw
      rw [List.mem_singleton.mp hw]
      exact ⟨by decide, by decide⟩)
    (by
      intro d
      have hall : ∀ d : Fin 10, digits.display d ≠ [] ∧
          ∀ c ∈ digits.display d, isBlank c = false ∧ c ≠ '\n' ∧ c ≠ '{' := by decide
      exact hall d)
    (List.Perm.refl _)
  exact ⟨fams, hparse, hsamples⟩

end Synora.Core
