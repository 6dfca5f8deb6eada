import Synora.Mirror.Inside
import Synora.Mirror.Taken

namespace Synora.Mirror
open Strings Utf8

/-! ## The files that downloads write -/

/-- `partial_path(dest)`: the whole path is displayed. -/
def partialOf (dest : Path) : Path := partialPath (dest.map fun n => .text n.display)

/-- No two downloads share a destination or a temporary file, and none of them writes to the
destination of another through its temporary file. -/
def FilesDisjoint (plan : Plan) : Prop :=
  (plan.downloads.flatMap fun d => [d.2, partialOf d.2]).Pairwise fun p q => ¬p.Same q

def isPlainName (s : Text) : Bool := !decide (s = [] ∨ s = ".".toList)

/-- The names of a relative path: its segments without the empty ones and the dots. -/
def plainNames (t : Text) : List Text := (segments t).filter isPlainName

/-- The entries that the planner downloads. -/
def toDownload (env : Env) (taken : List (DirectoryWork × Entry)) : List (DirectoryWork × Entry) :=
  taken.filter fun x => (downloadOf env x).isSome

/-- Two entries that name different files, neither of them named like the temporary file of the
other. A storage path that is not UTF-8 is displayed as another one, below which no destination
lies. -/
def Apart (storage : Path) (x y : DirectoryWork × Entry) : Prop :=
  plainNames (relOf x.1 x.2) ≠ plainNames (relOf y.1 y.2) ∧
    ((∀ n ∈ storage, n.toStr.isSome) →
      plainNames (relOf x.1 x.2) ≠ plainNames (relOf y.1 y.2 ++ ".partial".toList) ∧
      plainNames (relOf y.1 y.2) ≠ plainNames (relOf x.1 x.2 ++ ".partial".toList))

/-! ## Names and temporary names -/

/-- A slash-free text behind a path lengthens its last segment. -/
theorem segments_append {t u : Text} (hu : '/' ∉ u) :
    ∃ init last, segments t = init ++ [last] ∧ segments (t ++ u) = init ++ [last ++ u] := by
  induction t with
  | nil => exact ⟨[], [], rfl, by rw [List.nil_append, segments, List.splitOn_eq_singleton hu]; rfl⟩
  | cons c t ih =>
    obtain ⟨init, last, ht, htu⟩ := ih
    unfold segments at ht htu ⊢
    rw [List.cons_append, List.splitOn_cons_eq_if_modifyHead, List.splitOn_cons_eq_if_modifyHead,
      ht, htu]
    split
    · exact ⟨[] :: init, last, rfl, rfl⟩
    · cases init with
      | nil => exact ⟨[], c :: last, rfl, rfl⟩
      | cons i init => exact ⟨(c :: i) :: init, last, rfl, rfl⟩

theorem isPlainName_temp (s : Text) : isPlainName (s ++ ".partial".toList) := by
  have hlen : 8 ≤ (s ++ ".partial".toList).length := by
    rw [List.length_append]
    exact Nat.le_add_left 8 _
  simp only [isPlainName, Bool.not_eq_true', decide_eq_false_iff_not]
  rintro (h | h)
  · rw [h] at hlen
    exact absurd hlen (by decide)
  · rw [h] at hlen
    exact absurd hlen (by decide)

/-- The last segment counts as a name of the path only when it is plain, and always as part of the
temporary name. -/
theorem plainNames_temp (t : Text) : ∃ init last, segments t = init ++ [last] ∧
    plainNames t = init.filter isPlainName ++ [last].filter isPlainName ∧
    segments (t ++ ".partial".toList) = init ++ [last ++ ".partial".toList] ∧
    plainNames (t ++ ".partial".toList) =
      init.filter isPlainName ++ [last ++ ".partial".toList] := by
  obtain ⟨init, last, ht, htu⟩ := segments_append (t := t) (u := ".partial".toList) (by decide)
  refine ⟨init, last, ht, ?_, htu, ?_⟩
  · rw [plainNames, ht, List.filter_append]
  · rw [plainNames, htu, List.filter_append,
      List.filter_cons_of_pos (isPlainName_temp last), List.filter_nil]

/-- Files with one temporary file are one file. -/
theorem plainNames_of_temp {t u : Text}
    (h : plainNames (t ++ ".partial".toList) = plainNames (u ++ ".partial".toList)) :
    plainNames t = plainNames u := by
  obtain ⟨init, last, -, ht, -, htp⟩ := plainNames_temp t
  obtain ⟨init', last', -, hu, -, hup⟩ := plainNames_temp u
  rw [htp, hup] at h
  obtain ⟨hinit, hlast⟩ := List.append_inj' h rfl
  obtain rfl : last = last' := List.append_cancel_right (List.singleton_inj.mp hlast)
  rw [ht, hu, hinit]

theorem plainNames_ne_temp (t : Text) : plainNames t ≠ plainNames (t ++ ".partial".toList) := by
  obtain ⟨init, last, -, ht, -, htp⟩ := plainNames_temp t
  rw [ht, htp]
  intro h
  have hlast := List.append_cancel_left h
  have hmem : last ++ ".partial".toList ∈ [last].filter isPlainName := by
    rw [hlast]
    exact List.mem_cons_self
  have hlen := congrArg List.length (List.mem_singleton.mp (List.mem_filter.mp hmem).1)
  rw [List.length_append] at hlen
  change last.length + 8 = last.length at hlen
  omega

/-! ## Below the storage directory -/

/-- The part of a joined path that the storage directory gives. -/
def stem (storage : Path) : Path :=
  if storage.getLast? = some (.text []) then storage.dropLast else storage

theorem destOf_eq {env : Env} {w : DirectoryWork} {e : Entry} (hrel : SafeText (relOf w e)) :
    destOf env w e = stem env.storage ++ Path.ofText (relOf w e) := by
  have habs := ofText_relative hrel.nonempty hrel.relative
  unfold destOf Path.join stem
  rw [habs]
  split_ifs <;> simp_all

theorem normal_ofText (t : Text) : Path.normal (Path.ofText t) = (plainNames t).map .text := by
  unfold Path.normal Path.ofText plainNames
  rw [List.filter_map]
  congr 2
  funext s
  simp [OsName.isNormal, isPlainName]

/-- The temporary file stands below the displayed storage directory. -/
theorem partialOf_append (base : Path) (t : Text) :
    partialOf (base ++ Path.ofText t) =
      base.map (fun n => .text n.display) ++ Path.ofText (t ++ ".partial".toList) := by
  obtain ⟨init, last, ht, -, htp, -⟩ := plainNames_temp t
  unfold partialOf partialPath Path.ofText
  rw [ht, htp]
  simp [← List.append_assoc, OsName.display]

theorem isAbsolute_append {base rel : Path} (hne : rel ≠ []) (habs : Path.isAbsolute rel = false) :
    Path.isAbsolute (base ++ rel) = decide (base.head? = some (.text [])) := by
  match base with
  | [] => simpa using habs
  | .other b :: base => simp [Path.isAbsolute]
  | .text (c :: cs) :: base => simp [Path.isAbsolute]
  | .text [] :: base =>
    obtain ⟨n, ns, hn⟩ := List.exists_cons_of_ne_nil (List.append_ne_nil_of_right_ne_nil base hne)
    rw [List.cons_append, hn]
    rfl

/-- Neither a safe path nor its temporary name is absolute. -/
theorem ofText_safe {t : Text} (ht : SafeText t) : Path.isAbsolute (Path.ofText t) = false ∧
    Path.isAbsolute (Path.ofText (t ++ ".partial".toList)) = false := by
  refine ⟨ofText_relative ht.nonempty ht.relative, ofText_relative (by simp) ?_⟩
  obtain ⟨c, cs, rfl⟩ := List.exists_cons_of_ne_nil ht.nonempty
  exact ht.relative

section
variable {t u : Text}

/-- Two destinations, or two temporary files, are one exactly when their names agree. -/
theorem same_append_iff {base : Path} (ht : Path.isAbsolute (Path.ofText t) = false)
    (hu : Path.isAbsolute (Path.ofText u) = false) :
    Path.Same (base ++ Path.ofText t) (base ++ Path.ofText u) ↔ plainNames t = plainNames u := by
  have hne (v : Text) : Path.ofText v ≠ [] := by simp [Path.ofText]
  unfold Path.Same
  rw [isAbsolute_append (hne t) ht, isAbsolute_append (hne u) hu, Path.normal_append,
    Path.normal_append, normal_ofText, normal_ofText, List.append_cancel_left_eq]
  simp only [true_and]
  exact (List.map_injective_iff.mpr fun _ _ h => OsName.text.inj h).eq_iff

theorem map_display_of_text {base : Path} (h : ∀ n ∈ base, n.toStr.isSome) :
    base.map (fun n => .text n.display) = base := by
  conv_rhs => rw [← List.map_id base]
  apply List.map_congr_left
  intro n hn
  cases n with
  | text t => rfl
  | other b => cases h _ hn

/-- A destination is a temporary file only below a storage path that is displayed as it is. -/
theorem same_partial_iff {base : Path} (ht : Path.isAbsolute (Path.ofText t) = false)
    (hu : Path.isAbsolute (Path.ofText u) = false) :
    Path.Same (base ++ Path.ofText t) (base.map (fun n => .text n.display) ++ Path.ofText u) ↔
      (∀ n ∈ base, n.toStr.isSome) ∧ plainNames t = plainNames u := by
  by_cases htext : ∀ n ∈ base, n.toStr.isSome
  · rw [map_display_of_text htext, same_append_iff ht hu]
    exact (and_iff_right htext).symm
  · refine ⟨fun h => absurd h.2 ?_, fun h => absurd h.1 htext⟩
    -- A segment that is not UTF-8 is a name of the destination, and never one of what is displayed.
    simp only [not_forall] at htext
    obtain ⟨n, hn, hother⟩ := htext
    cases n with
    | text t => exact absurd rfl hother
    | other b =>
      intro heq
      have hmem : OsName.other b ∈ Path.normal (base ++ Path.ofText t) :=
        List.mem_filter.mpr ⟨List.mem_append_left _ hn, rfl⟩
      rw [heq] at hmem
      rcases List.mem_append.mp (List.mem_filter.mp hmem).1 with h | h
      · obtain ⟨_, -, h⟩ := List.mem_map.mp h
        cases h
      · obtain ⟨_, -, h⟩ := List.mem_map.mp h
        cases h

end

theorem stem_text_iff (storage : Path) :
    (∀ n ∈ stem storage, n.toStr.isSome) ↔ ∀ n ∈ storage, n.toStr.isSome := by
  unfold stem
  split
  · rename_i hlast
    have hempty : (OsName.text []).toStr.isSome := rfl
    rw [← List.dropLast_append_getLast? _ hlast]
    simp only [List.dropLast_concat, List.mem_append, List.mem_singleton, or_imp, forall_and,
      forall_eq, hempty, and_true]
  · rfl

/-- What two downloads write is apart exactly when their entries are. -/
theorem apart_iff {env : Env} {x y : DirectoryWork × Entry} (hx : SafeText (relOf x.1 x.2))
    (hy : SafeText (relOf y.1 y.2)) :
    (∀ p ∈ [destOf env x.1 x.2, partialOf (destOf env x.1 x.2)],
      ∀ q ∈ [destOf env y.1 y.2, partialOf (destOf env y.1 y.2)], ¬p.Same q) ↔
      Apart env.storage x y := by
  have hsymm (p q : Path) : p.Same q ↔ q.Same p := by
    unfold Path.Same
    rw [eq_comm, @eq_comm _ p.normal]
  rw [destOf_eq hx, destOf_eq hy, partialOf_append, partialOf_append]
  simp only [List.forall_mem_cons, List.not_mem_nil, false_imp_iff, implies_true, and_true]
  obtain ⟨hx, hxp⟩ := ofText_safe hx
  obtain ⟨hy, hyp⟩ := ofText_safe hy
  rw [same_append_iff hx hy, same_partial_iff hx hyp, same_append_iff hxp hyp, hsymm,
    same_partial_iff hy hxp, stem_text_iff]
  unfold Apart
  constructor
  · rintro ⟨⟨hnames, hxy⟩, hyx, -⟩
    exact ⟨hnames, fun htext => ⟨fun h => hxy ⟨htext, h⟩, fun h => hyx ⟨htext, h⟩⟩⟩
  · rintro ⟨hnames, htemp⟩
    exact ⟨⟨hnames, fun h => (htemp h.1).1 h.2⟩, fun h => (htemp h.1).2 h.2,
      fun h => hnames (plainNames_of_temp h)⟩

theorem own_apart {env : Env} {x : DirectoryWork × Entry} (hx : SafeText (relOf x.1 x.2)) :
    ¬(destOf env x.1 x.2).Same (partialOf (destOf env x.1 x.2)) := by
  obtain ⟨habs, htemp⟩ := ofText_safe hx
  rw [destOf_eq hx, partialOf_append, same_partial_iff habs htemp]
  exact fun h => plainNames_ne_temp _ h.2

theorem downloads_eq {env : Env} (taken : List (DirectoryWork × Entry)) :
    (taken.filterMap (downloadOf env)).map Prod.snd =
      (toDownload env taken).map fun x => destOf env x.1 x.2 := by
  induction taken with
  | nil => rfl
  | cons x taken ih =>
    unfold toDownload at ih ⊢
    rw [List.filterMap_cons, List.filter_cons]
    by_cases hx : x.2.kind = .file ∧ localMatches env (destOf env x.1 x.2) x.2 = false
    · have hdown : downloadOf env x = some (join x.1.url x.2.path, destOf env x.1 x.2) := if_pos hx
      simp [hdown, ih]
    · have hdown : downloadOf env x = none := if_neg hx
      simp [hdown, ih]

/-- Downloads write disjoint files exactly when no two of the planned files agree after dropping
the dots and the empty segments, and none of them is named like another one's temporary file. -/
theorem files_disjoint_iff (env : Env) (baseUrl : Text) (depth : ℕ) (events : List Event)
    (c : Crawl) (plan : Plan) (h : planInner env baseUrl depth events = some (.ok (c, plan))) :
    FilesDisjoint plan ↔
      (toDownload env (takenUp env (c.items env))).Pairwise (Apart env.storage) := by
  have hsafe : ∀ x ∈ toDownload env (takenUp env (c.items env)), SafeText (relOf x.1 x.2) := by
    intro x hx
    have htaken := (List.mem_filter.mp hx).1
    have hworks := planInner_works (J := SafeWork)
      (fun w e hw he => Or.inr (hw.relOf he.2.1).trimmed) (Or.inl rfl) h
    exact (hworks.2 x htaken).relOf (mem_takenUp htaken).2.1
  have hdown : plan.downloads.map Prod.snd =
      (toDownload env (takenUp env (c.items env))).map fun x => destOf env x.1 x.2 := by
    rw [(finish_eq (planInner_run h).2).1, (planInner_reflects h).downloads, downloads_eq]
  have hfiles : (plan.downloads.flatMap fun d => [d.2, partialOf d.2]) =
      (toDownload env (takenUp env (c.items env))).flatMap fun x =>
        [destOf env x.1 x.2, partialOf (destOf env x.1 x.2)] := by
    rw [← List.flatMap_map Prod.snd (fun p => [p, partialOf p]), hdown, List.flatMap_map]
  unfold FilesDisjoint
  rw [hfiles, List.pairwise_flatMap]
  have hown : ∀ x ∈ toDownload env (takenUp env (c.items env)),
      [destOf env x.1 x.2, partialOf (destOf env x.1 x.2)].Pairwise fun p q => ¬p.Same q :=
    fun x hx => List.pairwise_pair.mpr (own_apart (hsafe x hx))
  rw [and_iff_right hown]
  exact List.Pairwise.iff_of_mem fun hx hy => apart_iff (hsafe _ hx) (hsafe _ hy)

theorem files_disjoint_iff_plainPage :
    ∃ c plan, planInner (mirrorEnv .nginx .nil) "http://m/".toList 3
        [.joined 0 (.fetched plainPage)] = some (.ok (c, plan)) ∧
      plan.downloads.map Prod.snd = [Path.ofText "/srv/x".toList, Path.ofText "/srv/y".toList] ∧
      (FilesDisjoint plan ↔ (toDownload (mirrorEnv .nginx .nil) (takenUp (mirrorEnv .nginx .nil)
        (c.items (mirrorEnv .nginx .nil)))).Pairwise (Apart (Path.ofText "/srv".toList))) := by
  have heval : (planned (mirrorEnv .nginx .nil) "http://m/".toList 3
      [.joined 0 (.fetched plainPage)]).map (fun p => p.2.downloads.map Prod.snd) =
      some [Path.ofText "/srv/x".toList, Path.ofText "/srv/y".toList] := by decide +kernel
  obtain ⟨⟨c, plan⟩, hp, hdown⟩ := Option.map_eq_some_iff.mp heval
  have h := planInner_of_planned hp
  exact ⟨c, plan, h, hdown, files_disjoint_iff _ _ _ _ c plan h⟩

/-- A page that lists one file under two spellings. -/
def twicePage : Bytes := encode "<a href=\"x\">x</a><a href=\"./x\">x</a>".toList

/-- Both spellings are downloaded, at the same time and through the same temporary file. -/
theorem spellings_collide :
    ¬∀ (env : Env) (baseUrl : Text) (depth : ℕ) (events : List Event) (c : Crawl) (plan : Plan),
      planInner env baseUrl depth events = some (.ok (c, plan)) → FilesDisjoint plan := by
  intro hall
  have heval : (planned (mirrorEnv .nginx .nil) "http://m/".toList 3
      [.joined 0 (.fetched twicePage)]).map (fun p => decide
        ((p.2.downloads.flatMap fun d => [d.2, partialOf d.2]).Pairwise fun p q => ¬p.Same q)) =
      some false := by decide +kernel
  obtain ⟨⟨c, plan⟩, hp, hpair⟩ := Option.map_eq_some_iff.mp heval
  exact of_decide_eq_false hpair (hall _ _ _ _ c plan (planInner_of_planned hp))

end Synora.Mirror
