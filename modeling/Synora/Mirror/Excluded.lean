import Synora.Mirror.Taken

namespace Synora.Mirror
open Strings Utf8

/-! ## Excluded paths -/

/-- What the glob crate's patterns have in common: a valid and non-empty one that matches the empty
text is made of `*` and `**`, and matches every text without a slash. -/
def GlobStars (ext : Externals) : Prop :=
  ∀ pattern t, pattern ≠ [] → ext.globValid pattern → ext.globMatches pattern [] → '/' ∉ t →
    ext.globMatches pattern t

/-- The key is excluded, or lies below an excluded one. -/
def Protected (env : Env) (key : Text) : Prop :=
  ∃ p, p ≠ [] ∧ isExcluded env.ext env.excludes p ∧
    (key = p ∨ ∃ q, key = p ++ "/".toList ++ q)

/-! ## What lies below an excluded path -/

/-- Behind a path that is not made of slashes only, trimming keeps the path and cuts what follows
it before, or at, a slash. -/
theorem trimSlashes_slash {p : Text} (q : Text) (hp : trimSlashes p ≠ []) :
    trimSlashes (p ++ "/".toList ++ q) = trimSlashes p ∨
      ∃ rest, trimSlashes (p ++ "/".toList ++ q) = trimSlashes p ++ '/' :: rest := by
  unfold trimSlashes at hp ⊢
  unfold trimStart trimEnd at hp ⊢
  generalize hd : p.dropWhile isSlash = d at hp ⊢
  have hdrop : (p ++ "/".toList ++ q).dropWhile isSlash = d ++ "/".toList ++ q := by
    have hne : d ≠ [] := by
      rintro rfl
      exact hp rfl
    rw [List.append_assoc, List.dropWhile_append, hd, if_neg (by simpa using hne),
      List.append_assoc]
  rw [hdrop]
  obtain ⟨r, c, hr⟩ : ∃ r c, d.rdropWhile isSlash = r ++ [c] :=
    ⟨_, _, (List.dropLast_append_getLast hp).symm⟩
  have hc : isSlash c = false := by
    have hlast := List.rdropWhile_last_not isSlash d hp
    simpa [hr] using hlast
  have hsplit : d = r ++ [c] ++ d.rtakeWhile isSlash := by
    rw [← hr, List.rdropWhile_append_rtakeWhile]
  have hslashes : ∀ x ∈ d.rtakeWhile isSlash, x = '/' := fun x hx => by
    simpa [isSlash] using List.mem_rtakeWhile_imp hx
  generalize d.rtakeWhile isSlash = b at hsplit hslashes
  have heq : d ++ "/".toList ++ q = r ++ [c] ++ (b ++ '/' :: q) := by
    rw [hsplit]
    simp
  rw [hr, heq]
  obtain ⟨v, hv⟩ := prefix_trimEnd hc r (b ++ '/' :: q)
  have hvpre : v <+: b ++ '/' :: q := by
    have h := List.rdropWhile_prefix isSlash (r ++ [c] ++ (b ++ '/' :: q))
    rw [trimEnd] at hv
    rw [← hv] at h
    exact (List.prefix_append_right_inj _).mp h
  rw [trimEnd] at hv
  rw [← hv]
  cases v with
  | nil => exact Or.inl (List.append_nil _)
  | cons x v =>
    right
    have hx : x = '/' := by
      cases b with
      | nil => exact (List.cons_prefix_cons.mp hvpre).1
      | cons y b =>
        rw [(List.cons_prefix_cons.mp hvpre).1]
        exact hslashes y List.mem_cons_self
    exact ⟨v, by rw [hx]⟩

theorem mem_ancestry {t part : Text} :
    part ∈ ancestry t ↔ part = t ∨ ∃ rest, t = part ++ '/' :: rest := by
  unfold ancestry
  simp only [List.mem_append, List.mem_map, List.mem_filter, List.mem_range, List.mem_singleton,
    decide_eq_true_eq]
  rw [or_comm]
  refine or_congr_right ⟨?_, ?_⟩
  · rintro ⟨i, ⟨hi, hslash⟩, rfl⟩
    refine ⟨t.drop (i + 1), ?_⟩
    rw [List.getElem?_eq_getElem hi, Option.some.injEq] at hslash
    rw [← hslash, List.getElem_cons_drop, List.take_append_drop]
  · rintro ⟨rest, rfl⟩
    exact ⟨part.length, ⟨by simp, by simp⟩, by simp⟩

/-- What a pattern excludes it excludes with everything below. -/
theorem excluded_below {ext : Externals} {excludes : List ExcludePattern} {s t : Text}
    (hs : isExcluded ext excludes s) (hst : trimSlashes t = trimSlashes s ∨
      ∃ rest, trimSlashes t = trimSlashes s ++ '/' :: rest) : isExcluded ext excludes t := by
  unfold isExcluded at hs ⊢
  dsimp only at hs ⊢
  rcases hst with hst | ⟨rest, hst⟩
  · rw [hst]
    exact hs
  · rw [hst]
    rw [List.any_eq_true] at hs ⊢
    obtain ⟨e, he, hs⟩ := hs
    refine ⟨e, he, ?_⟩
    simp only [Bool.or_eq_true, Bool.and_eq_true, decide_eq_true_eq, Option.any_eq_true,
      List.any_eq_true] at hs ⊢
    rcases hs with (hs | ⟨tail, htail, hslash⟩) | ⟨hglob, part, hpart, hmatch⟩
    · left; right
      refine ⟨'/' :: rest, stripPrefix_eq_some_iff.mpr ?_, rfl⟩
      rw [hs]
    · left; right
      refine ⟨tail ++ '/' :: rest, stripPrefix_eq_some_iff.mpr ?_, ?_⟩
      · rw [stripPrefix_eq_some_iff.mp htail, List.append_assoc]
      · obtain ⟨u, rfl⟩ := List.isPrefixOf_iff_prefix.mp hslash
        rfl
    · right
      refine ⟨hglob, part, ?_, hmatch⟩
      rw [mem_ancestry] at hpart ⊢
      right
      rcases hpart with rfl | ⟨tail, htail⟩
      · exact ⟨rest, rfl⟩
      · exact ⟨tail ++ '/' :: rest, by rw [htail]; simp⟩

/-- Slashes alone are excluded by stars only, and these exclude everything. -/
theorem excluded_of_slashes {ext : Externals} (hglob : GlobStars ext) {raw : List Text} {p : Text}
    (hp : trimSlashes p = []) (h : isExcluded ext (withExcludes ext raw) p) (t : Text) :
    isExcluded ext (withExcludes ext raw) t := by
  unfold isExcluded at h ⊢
  rw [List.any_eq_true] at h ⊢
  obtain ⟨e, he, h⟩ := h
  refine ⟨e, he, ?_⟩
  obtain ⟨pre, hpre, rfl⟩ := List.mem_map.mp he
  have hne : pre ≠ [] := by simpa using (List.mem_filter.mp hpre).2
  simp only [hp, Bool.or_eq_true, Bool.and_eq_true, decide_eq_true_eq, Option.any_eq_true,
    List.any_eq_true] at h ⊢
  rcases h with (h | ⟨rest, hrest, -⟩) | ⟨hvalid, part, hpart, hmatch⟩
  · exact absurd h.symm hne
  · have hnil := stripPrefix_eq_some_iff.mp hrest
    exact absurd (List.append_eq_nil_iff.mp hnil.symm).1 hne
  · right
    have hempty : part = [] := by
      rcases mem_ancestry.mp hpart with rfl | ⟨rest, hrest⟩
      · rfl
      · simp at hrest
    rw [hempty] at hmatch
    obtain ⟨first, hfirst, hmem⟩ : ∃ first, '/' ∉ first ∧ first ∈ ancestry (trimSlashes t) := by
      generalize trimSlashes t = u
      by_cases hslash : '/' ∈ u
      · obtain ⟨first, rest, rfl, hfirst⟩ := List.eq_append_cons_of_mem hslash
        exact ⟨first, hfirst, mem_ancestry.mpr (Or.inr ⟨rest, rfl⟩)⟩
      · exact ⟨u, hslash, mem_ancestry.mpr (Or.inl rfl)⟩
    exact ⟨hvalid, first, hmem, hglob _ _ hne hvalid hmatch hfirst⟩

/-- A path below an excluded one is excluded. -/
theorem isExcluded_slash {ext : Externals} (hglob : GlobStars ext) {raw : List Text} {p : Text}
    (h : isExcluded ext (withExcludes ext raw) p) (q : Text) :
    isExcluded ext (withExcludes ext raw) (p ++ "/".toList ++ q) := by
  by_cases hp : trimSlashes p = []
  · exact excluded_of_slashes hglob hp h _
  · exact excluded_below h (trimSlashes_slash q hp)

theorem not_protected {env : Env} (hglob : GlobStars env.ext) {raw : List Text}
    (hraw : env.excludes = withExcludes env.ext raw) {key : Text}
    (h : ¬isExcluded env.ext env.excludes key) : ¬Protected env key := by
  rintro ⟨p, -, hp, rfl | ⟨q, rfl⟩⟩
  · exact h hp
  · rw [hraw] at hp h
    exact h (isExcluded_slash hglob hp q)

/-! ## The local walk -/

/-- No path of the walk leads through an excluded directory below `rel`. -/
def Walk.Open (excluded : Text → Bool) (rel : List OsName) (w : Walk) : Prop :=
  ∀ x ∈ w.files ++ w.dirs, rel <+: x ∧
    ∀ p, rel <+: p → p <+: x → p ≠ rel → excluded (relStr p) = false

section
variable {excluded : Text → Bool} {rel : List OsName}

theorem Walk.Open.append {v w : Walk} (hv : v.Open excluded rel) (hw : w.Open excluded rel) :
    (v.append w).Open excluded rel := Walk.forall_append hv hw

theorem Walk.open_empty : Walk.Open excluded rel ⟨[], []⟩ := by simp [Open]

/-- The path of a directory entry itself. -/
theorem Walk.open_self {w : Walk} (h : w.files ++ w.dirs = [rel]) : w.Open excluded rel := by
  intro x hx
  rw [h, List.mem_singleton] at hx
  subst hx
  exact ⟨List.prefix_rfl, fun p hp hpx hne => absurd (hpx.eq_of_length_le hp.length_le) hne⟩

/-- One level up, the name of the level is not excluded either. -/
theorem Walk.Open.up {w : Walk} {name : OsName} (hw : w.Open excluded (rel ++ [name]))
    (hname : w.files ++ w.dirs ≠ [] → excluded (relStr (rel ++ [name])) = false) :
    w.Open excluded rel := by
  intro x hx
  obtain ⟨hpre, hopen⟩ := hw x hx
  refine ⟨(List.prefix_append rel [name]).trans hpre, fun p hp hpx hne => ?_⟩
  have hlen : (rel ++ [name]).length ≤ p.length := by
    have hlt : rel.length < p.length :=
      lt_of_le_of_ne hp.length_le fun heq => hne (hp.eq_of_length heq).symm
    rw [List.length_append, List.length_singleton]
    omega
  by_cases hself : p = rel ++ [name]
  · rw [hself]
    exact hname (List.ne_nil_of_mem hx)
  · exact hopen p (List.prefix_of_prefix_length_le hpre hpx hlen) hpx hself

mutual

theorem walkNode_open {rel : List OsName} {node : Node} {p : Walk × Walk}
    (h : walkNode excluded rel node = some p) :
    p.1.Open excluded rel ∧ p.2.Open excluded rel ∧
      (excluded (relStr rel) = false ∨ p = (⟨[], []⟩, ⟨[], []⟩)) := by
  cases node with
  | file | symlink =>
    simp only [walkNode] at h
    split at h
    · cases h
      exact ⟨Walk.open_empty, Walk.open_empty, Or.inr rfl⟩
    · rename_i hex
      cases h
      exact ⟨Walk.open_self rfl, Walk.open_empty, Or.inl (Bool.eq_false_iff.mpr hex)⟩
  | special =>
    cases h
    exact ⟨Walk.open_empty, Walk.open_empty, Or.inr rfl⟩
  | dir readable children =>
    simp only [walkNode] at h
    split at h
    · cases h
      exact ⟨Walk.open_empty, Walk.open_empty, Or.inr rfl⟩
    rename_i hex
    split at h
    · obtain ⟨q, hq, rfl⟩ := Option.map_eq_some_iff.mp h
      have hc := walkChildren_open hq
      exact ⟨Walk.open_self rfl, hc.1.append hc.2, Or.inl (Bool.eq_false_iff.mpr hex)⟩
    · cases h

theorem walkChildren_open {rel : List OsName} {children : Children} {p : Walk × Walk}
    (h : walkChildren excluded rel children = some p) :
    p.1.Open excluded rel ∧ p.2.Open excluded rel := by
  cases children with
  | nil =>
    cases h
    exact ⟨Walk.open_empty, Walk.open_empty⟩
  | cons name node rest =>
    simp only [walkChildren, Option.bind_eq_bind, Option.bind_eq_some_iff] at h
    obtain ⟨q, hq, q', hq', h⟩ := h
    cases h
    obtain ⟨h1, h2, hname⟩ := walkNode_open hq
    obtain ⟨h1', h2'⟩ := walkChildren_open hq'
    have hup {w : Walk} (hw : w = q.1 ∨ w = q.2) (hne : w.files ++ w.dirs ≠ []) :
        excluded (relStr (rel ++ [name.name])) = false := by
      rcases hname with hname | rfl
      · exact hname
      · rcases hw with rfl | rfl <;> exact absurd rfl hne
    exact ⟨(h1.up (hup (Or.inl rfl))).append h1', h2'.append (h2.up (hup (Or.inr rfl)))⟩

end

/-- No file or directory of the walk is excluded, and none lies below an excluded one. -/
theorem walk_open {root : Node} {w : Walk} (h : walk excluded root = some w) {x p : List OsName}
    (hx : x ∈ w.files ++ w.dirs) (hp : p <+: x) (hne : p ≠ []) :
    excluded (relStr p) = false := by
  have hopen : w.Open excluded [] := by
    cases root with
    | dir readable children =>
      cases readable with
      | false => cases h
      | true =>
        obtain ⟨q, hq, rfl⟩ := Option.map_eq_some_iff.mp h
        have hc := walkChildren_open hq
        exact hc.1.append hc.2
    | _ => cases h
  exact (hopen x hx).2 p List.nil_prefix hp hne

end

/-! ## The plan -/

section
variable {env : Env} {raw : List Text} {baseUrl : Text} {depth : ℕ} {events : List Event}
  {c : Crawl} {plan : Plan}

theorem work_not_protected (hglob : GlobStars env.ext)
    (hraw : env.excludes = withExcludes env.ext raw)
    (h : Runs.exec (Crawl.next env) (.start baseUrl depth) events = some c) :
    ∀ w ∈ (c.fill env).works, ¬Protected env w.rel := by
  refine exec_works (J := fun w => ¬Protected env w.rel) ?_ (start_works ?_) h
  · exact fun w e _ he => not_protected hglob hraw he.2.2
  · rintro ⟨p, hp, -, hnil | ⟨q, hq⟩⟩
    · exact hp hnil.symm
    · simp at hq

/-- The planned entries are listed under keys that are not excluded. -/
theorem planned_not_protected (hglob : GlobStars env.ext)
    (hraw : env.excludes = withExcludes env.ext raw)
    (h : planInner env baseUrl depth events = some (.ok (c, plan))) :
    (∀ d ∈ plan.downloads, ∃ w e, .entry w e ∈ c.items env ∧
      d = (join w.url e.path, destOf env w e) ∧ ¬Protected env (keyOf w e)) ∧
    ∀ l ∈ plan.symlinks, ∃ w e, .entry w e ∈ c.items env ∧
      l.1 = env.storage.join (Path.ofText (keyOf w e)) ∧ ¬Protected env (keyOf w e) := by
  obtain ⟨hdown, hlink, -⟩ := finish_eq (planInner_run h).2
  have href := planInner_reflects h
  constructor
  · intro d hd
    rw [hdown, href.downloads, List.mem_filterMap] at hd
    obtain ⟨x, hx, hd⟩ := hd
    obtain ⟨hitem, -, hex⟩ := mem_takenUp hx
    refine ⟨x.1, x.2, hitem, ?_, not_protected hglob hraw hex⟩
    unfold downloadOf at hd
    split at hd
    · exact (Option.some.inj hd).symm
    · cases hd
  · intro l hl
    rw [hlink] at hl
    have hl := List.mem_map_of_mem (f := Prod.fst) hl
    rw [href.symlinks, List.mem_filterMap] at hl
    obtain ⟨x, hx, hl⟩ := hl
    obtain ⟨hitem, -, hex⟩ := mem_takenUp hx
    refine ⟨x.1, x.2, hitem, ?_, not_protected hglob hraw hex⟩
    unfold linkOf at hl
    split at hl
    · exact (Option.some.inj hl).symm
    · cases hl

theorem extras_not_excluded (h : planInner env baseUrl depth events = some (.ok (c, plan)))
    {p q : List OsName} (hp : p ≠ []) (hentry : ∀ n ∈ p ++ q, n.isEntry)
    (hex : isExcluded env.ext env.excludes (relStr p)) :
    ∀ d ∈ plan.deletes ++ plan.deleteDirs, ¬d.Same (env.storage.join (p ++ q)) := by
  intro d hd hsame
  obtain ⟨v, hv, x, hx, rfl⟩ := mem_extras h hd
  obtain ⟨-, hnames, -⟩ := walk_named _ hv x hx
  have heq := Path.join_normal_inj env.storage (isAbsolute_of_entries hnames)
    (isAbsolute_of_entries hentry) hsame.2
  rw [normal_of_entries hnames, normal_of_entries hentry] at heq
  have hopen := walk_open hv hx (p := p) (by rw [heq]; exact List.prefix_append p q) hp
  rw [hex] at hopen
  cases hopen

end

/-- The glob crate on patterns that are literal but for a leading `*`. -/
def starGlob : Text → Text → Bool
  | '*' :: suffix, t => suffix.isSuffixOf t && !decide ('/' ∈ t)
  | pattern, t => decide (pattern = t)

def globExt : Externals := ⟨fun _ => none, fun _ => none, fun _ => none, fun _ _ => none,
  fun _ => true, starGlob⟩

theorem globExt_stars : GlobStars globExt := by
  intro pattern t hne hvalid hempty ht
  change starGlob pattern [] = true at hempty
  show starGlob pattern t = true
  unfold starGlob at hempty ⊢
  split at hempty
  · rename_i suffix
    have hsuffix : suffix = [] := by simpa using hempty
    simp [hsuffix, ht]
  · exact absurd (of_decide_eq_true hempty) hne

/-- A mirror that leaves out `pool` and the images. -/
def excludingEnv : Env := { mirrorEnv .nginx
    (.cons ⟨.text "keep.iso".toList, rfl⟩ .file (.cons ⟨.text "old".toList, rfl⟩ .file .nil)) with
  ext := globExt
  excludes := withExcludes globExt ["/pool/".toList, "*.iso".toList] }

def poolPage : Bytes := encode
  "<a href=\"pool/\">pool/</a><a href=\"a.iso\">a.iso</a><a href=\"x\">x</a>".toList

end Synora.Mirror
