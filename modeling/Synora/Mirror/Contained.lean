import Synora.Mirror.PlanSpec

namespace Synora.Mirror
open Strings Utf8

/-! ## Relative texts -/

/-- A non-empty relative path without a `..` segment. -/
structure SafeText (t : Text) : Prop where
  nonempty : t ≠ []
  relative : t.head? ≠ some '/'
  inside : "..".toList ∉ segments t

theorem safeText_of_isSafeRel {t : Text} (h : isSafeRel t) : SafeText t := by
  simp only [isSafeRel, Bool.and_eq_true, Bool.not_eq_true', List.isEmpty_eq_false_iff,
    decide_eq_false_iff_not] at h
  obtain ⟨⟨⟨hne, -⟩, hrel⟩, hin⟩ := h
  refine ⟨hne, ?_, hin⟩
  intro hh
  cases t with
  | nil => cases hh
  | cons c cs =>
    obtain rfl : c = '/' := by simpa using hh
    simp [List.isPrefixOf] at hrel

/-- Trailing slashes do not matter. -/
theorem SafeText.trimmed {t : Text} (h : SafeText t) : SafeText (trimEnd isSlash t) := by
  have hpre : trimEnd isSlash t <+: t := List.rdropWhile_prefix isSlash t
  obtain ⟨k, hk⟩ := segments_trimEnd t
  cases ht : trimEnd isSlash t with
  | nil =>
    -- Only slashes: then the text starts with one.
    exfalso
    rw [trimEnd, List.rdropWhile_eq_nil_iff] at ht
    obtain ⟨c, cs, rfl⟩ := List.exists_cons_of_ne_nil h.nonempty
    have hc : isSlash c := ht c List.mem_cons_self
    apply h.relative
    simpa [isSlash] using hc
  | cons c cs =>
    rw [ht] at hpre hk
    refine ⟨by simp, ?_, ?_⟩
    · obtain ⟨post, rfl⟩ := hpre
      simpa using h.relative
    · intro hin
      apply h.inside
      rw [hk]
      exact List.mem_append_left _ hin

theorem SafeText.slash {t u : Text} (ht : SafeText t) (hu : SafeText u) :
    SafeText (t ++ "/".toList ++ u) := by
  obtain ⟨c, cs, rfl⟩ := List.exists_cons_of_ne_nil ht.nonempty
  refine ⟨by simp, by simpa using ht.relative, ?_⟩
  have hs : segments ((c :: cs) ++ "/".toList ++ u) = segments (c :: cs) ++ segments u := by
    rw [List.append_assoc]
    exact segments_slash (c :: cs) u
  rw [hs, List.mem_append]
  rintro (h | h)
  · exact ht.inside h
  · exact hu.inside h

/-! ## Contained paths -/

/-- The storage directory joined with a non-empty relative path without `..` segments. -/
def Contained (storage p : Path) : Prop :=
  ∃ rel : Path, rel ≠ [] ∧ rel ≠ [.text []] ∧ rel.isAbsolute = false ∧ .text "..".toList ∉ rel ∧
    p = storage.join rel

theorem ofText_relative {t : Text} (hne : t ≠ []) (h : t.head? ≠ some '/') :
    Path.isAbsolute (Path.ofText t) = false := by
  obtain ⟨c, cs, rfl⟩ := List.exists_cons_of_ne_nil hne
  have hc : (c == '/') = false := by
    simpa using fun hc : c = '/' => h (by simp [hc])
  obtain ⟨s, ss, hs⟩ := List.exists_cons_of_ne_nil (segments_ne_nil cs)
  rw [segments] at hs
  rw [Path.ofText, segments, List.splitOn_cons_eq_if_modifyHead, hc, hs]
  cases ss <;> rfl

theorem contained_ofText {t : Text} (storage : Path) (h : SafeText t) :
    Contained storage (storage.join (Path.ofText t)) := by
  refine ⟨Path.ofText t, ?_, ?_, ?_, ?_, rfl⟩
  · simp [Path.ofText]
  · intro hnil
    apply h.nonempty
    have hs : segments t = [[]] := by
      cases hseg : segments t with
      | nil => exact absurd hseg (segments_ne_nil t)
      | cons s ss =>
        rw [Path.ofText, hseg] at hnil
        simpa using hnil
    rw [← unsegments_segments t, hs]
    rfl
  · exact ofText_relative h.nonempty h.relative
  · intro hin
    obtain ⟨s, hs, heq⟩ := List.mem_map.mp hin
    apply h.inside
    rw [← OsName.text.inj heq]
    exact hs

theorem contained_entries {rel : List OsName} (storage : Path) (hne : rel ≠ [])
    (h : ∀ n ∈ rel, n.isEntry) : Contained storage (storage.join rel) := by
  refine ⟨rel, hne, ?_, ?_, ?_, rfl⟩
  · rintro rfl
    have hempty := h (.text []) List.mem_cons_self
    cases hempty
  · obtain ⟨n, ns, rfl⟩ := List.exists_cons_of_ne_nil hne
    have hn := h n List.mem_cons_self
    cases n with
    | other bytes => rfl
    | text t =>
      cases t with
      | nil => cases hn
      | cons c cs => rfl
  · intro hin
    have hdots := h _ hin
    cases hdots

/-! ## Every planned path -/

/-- The directories of the queue: the root, or a safe path below it. -/
def SafeWork (w : DirectoryWork) : Prop := w.rel = [] ∨ SafeText w.rel

theorem SafeWork.relOf {w : DirectoryWork} {e : Entry} (hw : SafeWork w)
    (he : isSafeRel e.path) : SafeText (relOf w e) := by
  have hsafe := safeText_of_isSafeRel he
  unfold Mirror.relOf
  rcases hw with hw | hw
  · rw [if_pos (by simp [hw])]
    exact hsafe
  · rw [if_neg (by simpa using hw.nonempty)]
    exact hw.slash hsafe

theorem SafeWork.manifestKey {w : DirectoryWork} (hw : SafeWork w) :
    SafeText (manifestKey w) := by
  have hxml : SafeText "repomd.xml".toList := ⟨by decide, by decide, by decide⟩
  unfold Mirror.manifestKey
  rcases hw with hw | hw
  · rw [if_pos (by simp [hw])]
    exact hxml
  · rw [if_neg (by simpa using hw.nonempty)]
    have h := hw.trimmed.slash hxml
    rwa [List.append_assoc] at h

/-- What the crawl plans stays inside the storage directory. -/
structure PlanContained (storage : Path) (p : Plan) : Prop where
  downloads : ∀ d ∈ p.downloads, Contained storage d.2
  symlinks : ∀ l ∈ p.symlinks, Contained storage l.1
  targets : ∀ l ∈ p.symlinks, SafeText l.2
  manifests : ∀ m ∈ p.manifests, Contained storage m.1

theorem enqueue_contained {env : Env} {w : DirectoryWork} {e : Entry} {c : Crawl}
    (hw : SafeWork w) (he : isSafeRel e.path) (h : PlanContained env.storage c.plan) :
    PlanContained env.storage (Crawl.enqueue env w e c).plan := by
  have hrel := hw.relOf he
  unfold Crawl.enqueue
  cases e.kind with
  | dir =>
    dsimp only
    split
    · exact ⟨h.downloads, h.symlinks, h.targets, h.manifests⟩
    · exact h
  | file =>
    have hnew : ∀ d ∈ c.plan.downloads ++
        [(join w.url e.path, env.storage.join (Path.ofText (relOf w e)))],
        Contained env.storage d.2 := by
      intro d hd
      rcases List.mem_append.mp hd with hd | hd
      · exact h.downloads d hd
      · rw [List.mem_singleton.mp hd]
        exact contained_ofText env.storage hrel
    dsimp only
    cases e.size with
    | none =>
      split
      · exact ⟨h.downloads, h.symlinks, h.targets, h.manifests⟩
      · exact ⟨hnew, h.symlinks, h.targets, h.manifests⟩
    | some size =>
      split
      · exact ⟨h.downloads, h.symlinks, h.targets, h.manifests⟩
      · exact ⟨hnew, h.symlinks, h.targets, h.manifests⟩
  | symlink =>
    refine ⟨h.downloads, fun l hl => ?_, fun l hl => ?_, h.manifests⟩
    · rcases List.mem_append.mp hl with hl | hl
      · exact h.symlinks l hl
      · rw [List.mem_singleton.mp hl]
        exact contained_ofText env.storage hrel.trimmed
    · rcases List.mem_append.mp hl with hl | hl
      · exact h.targets l hl
      · rw [List.mem_singleton.mp hl]
        -- The listed target when it is safe, else the entry's own name.
        have hown := (safeText_of_isSafeRel he).trimmed
        dsimp only
        split
        · rename_i target _
          split
          · rename_i hsafe
            exact safeText_of_isSafeRel hsafe
          · exact hown
        · exact hown

theorem contained_keeps (env : Env) :
    Keeps env SafeWork fun p _ => PlanContained env.storage p where
  enqueue _ _ _ _ hw he _ h := enqueue_contained hw he h
  queue _ _ hw he := Or.inr (hw.relOf he).trimmed
  repeated _ _ _ h := h
  incomplete _ _ h := ⟨h.downloads, h.symlinks, h.targets, h.manifests⟩
  manifest w p _ body hw h := by
    refine ⟨h.downloads, h.symlinks, h.targets, fun m hm => ?_⟩
    rcases List.mem_append.mp hm with hm | hm
    · exact h.manifests m hm
    · rw [List.mem_singleton.mp hm]
      exact contained_ofText env.storage hw.manifestKey

section
variable {env : Env} {baseUrl : Text} {depth : ℕ} {events : List Event} {c : Crawl} {plan : Plan}

theorem crawl_contained (h : planInner env baseUrl depth events = some (.ok (c, plan))) :
    PlanContained env.storage c.plan := by
  obtain ⟨hrun, -⟩ := planInner_run h
  exact (run_keeps (contained_keeps env) ⟨⟨by simp [Crawl.start, Plan.default],
    by simp [Crawl.start, Plan.default], by simp [Crawl.start, Plan.default],
    by simp [Crawl.start, Plan.default]⟩, by simp [Crawl.start, SafeWork]⟩ hrun).1

/-- What is deleted comes from the walk. -/
theorem mem_extras (h : planInner env baseUrl depth events = some (.ok (c, plan))) {d : Path}
    (hd : d ∈ plan.deletes ++ plan.deleteDirs) :
    ∃ v, walk (isExcluded env.ext env.excludes) env.root = some v ∧
      ∃ x ∈ v.files ++ v.dirs, d = env.storage.join x := by
  obtain ⟨hrun, hfin⟩ := planInner_run h
  obtain ⟨hdel, hdirs⟩ := run_deletes hrun
  obtain ⟨-, -, -, -, ⟨h1, h2, -⟩ | ⟨v, hv, -, -, -, h1, h2⟩⟩ := finish_eq hfin
  · rw [h1, h2, hdel, hdirs] at hd
    cases hd
  · refine ⟨v, hv, ?_⟩
    rw [h1, h2] at hd
    rcases List.mem_append.mp hd with hd | hd
    · obtain ⟨x, hx, rfl⟩ := List.mem_map.mp hd
      exact ⟨x, List.mem_append_left _ (List.mem_filter.mp hx).1, rfl⟩
    · rw [localExtras, List.mem_insertionSort] at hd
      obtain ⟨x, hx, rfl⟩ := List.mem_map.mp hd
      exact ⟨x, List.mem_append_right _ (List.mem_filter.mp hx).1, rfl⟩

/-- What the planner deletes is made of directory entries. -/
theorem extras_contained (h : planInner env baseUrl depth events = some (.ok (c, plan))) :
    ∀ d ∈ plan.deletes ++ plan.deleteDirs, Contained env.storage d := by
  intro d hd
  obtain ⟨v, hv, x, hx, rfl⟩ := mem_extras h hd
  have hn := walk_named _ hv x hx
  exact contained_entries env.storage hn.1 hn.2.1

end

/-- Whatever upstream answers and whatever the storage holds, every planned path is the storage
directory joined with a non-empty relative path without `..`, and so is every link target
relative and without `..`. -/
theorem planned_paths_contained (env : Env) (baseUrl : Text) (depth : ℕ) (events : List Event)
    (c : Crawl) (plan : Plan) (h : planInner env baseUrl depth events = some (.ok (c, plan))) :
    (∀ d ∈ plan.downloads, Contained env.storage d.2) ∧
    (∀ l ∈ plan.symlinks, Contained env.storage l.1) ∧
    (∀ m ∈ plan.manifests, Contained env.storage m.1) ∧
    (∀ d ∈ plan.deletes, Contained env.storage d) ∧
    (∀ d ∈ plan.deleteDirs, Contained env.storage d) ∧
    ∀ l ∈ plan.symlinks, l.2.head? ≠ some '/' ∧ "..".toList ∉ segments l.2 := by
  have hkept := crawl_contained h
  obtain ⟨hdel, hdirs⟩ := List.forall_mem_append.mp (extras_contained h)
  obtain ⟨hd, hs, hm, -, -⟩ := finish_eq (planInner_run h).2
  refine ⟨hd ▸ hkept.downloads, hs ▸ hkept.symlinks, hm ▸ hkept.manifests, hdel, hdirs, ?_⟩
  intro l hl
  have ht := hkept.targets l (hs ▸ hl)
  exact ⟨ht.relative, ht.inside⟩

/-- A mirror under `/srv` that deletes, with nothing excluded. -/
def mirrorEnv (parser : IndexParser) (children : Children) : Env where
  ext := ⟨fun _ => none, fun _ => none, fun _ => none, fun _ _ => none, fun _ => false,
    fun _ _ => false⟩
  parser := parser
  storage := Path.ofText "/srv".toList
  excludes := []
  threads := 5
  delete := true
  metadata := fun _ => none
  root := .dir true children

/-- A storage directory that holds one regular file. -/
def oneFile (name : Text) (h : (OsName.text name).isEntry) : Children :=
  .cons ⟨.text name, h⟩ .file .nil

def hostilePage : Bytes := encode
  "<a href=\"%2e%2e/x\">x</a><a href=\"a/b\">b</a><a href=\"l\">l@</a>".toList

theorem planned_paths_contained_hostile :
    ∃ c plan, planInner (mirrorEnv .nginx (oneFile "old".toList rfl)) "http://m/".toList 3
        [.joined 0 (.fetched hostilePage)] = some (.ok (c, plan)) ∧
      plan.downloads.map Prod.snd = [Path.ofText "/srv/a/b".toList] ∧
      plan.deletes = [Path.ofText "/srv/old".toList] ∧
      (∀ d ∈ plan.downloads, Contained (Path.ofText "/srv".toList) d.2) ∧
      ∀ d ∈ plan.deletes, Contained (Path.ofText "/srv".toList) d := by
  have heval : (planned (mirrorEnv .nginx (oneFile "old".toList rfl)) "http://m/".toList 3
      [.joined 0 (.fetched hostilePage)]).map (fun p => (p.2.downloads.map Prod.snd, p.2.deletes)) =
      some ([Path.ofText "/srv/a/b".toList], [Path.ofText "/srv/old".toList]) := by decide +kernel
  obtain ⟨⟨c, plan⟩, hp, hpaths⟩ := Option.map_eq_some_iff.mp heval
  have h := planInner_of_planned hp
  have hc := planned_paths_contained _ _ _ _ c plan h
  exact ⟨c, plan, h, (Prod.ext_iff.mp hpaths).1, (Prod.ext_iff.mp hpaths).2, hc.1, hc.2.2.2.1⟩

end Synora.Mirror
