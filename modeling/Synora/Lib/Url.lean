import Synora.Lib.Text

namespace Synora.Url
open Strings

/-- A URL reference in the generic syntax, less its scheme and its authority. -/
structure Parts where
  path : Text
  query : Option Text
  fragment : Option Text
deriving DecidableEq, Repr

/-- What stands before a separator, and what stands behind it. -/
def cut (c : Char) (t : Text) : Text × Option Text :=
  match splitOnce [c] t with
  | some (before, rest) => (before, some rest)
  | none => (t, none)

/-- What stands behind `scheme:`, if there is a scheme. -/
def afterScheme (t : Text) : Text :=
  let rest := t.dropWhile fun c => decide (c ≠ ':' ∧ c ≠ '/')
  if t.head? ≠ some ':' ∧ rest.head? = some ':' then rest.tail else t

/-- What stands behind `//authority`, if there is an authority. -/
def afterAuthority : Text → Text
  | '/' :: '/' :: rest => rest.dropWhile fun c => decide (c ≠ '/')
  | t => t

/-- The path of a URL without query and fragment. -/
def pathOf (t : Text) : Text := afterAuthority (afterScheme t)

/-- A fragment begins at the first `#`, a query at the first `?` before it. -/
def split (url : Text) : Parts :=
  let (rest, fragment) := cut '#' url
  let (hier, query) := cut '?' rest
  ⟨pathOf hier, query, fragment⟩

/-- No query and no fragment. -/
def Plain (url : Text) : Prop := '?' ∉ url ∧ '#' ∉ url

instance (url : Text) : Decidable (Plain url) := inferInstanceAs (Decidable (_ ∧ _))

theorem cut_of_not_mem {c : Char} {t : Text} (h : c ∉ t) : cut c t = (t, none) := by
  have hnone : splitOnce [c] t = none := by
    cases hsplit : splitOnce [c] t with
    | none => rfl
    | some p =>
      rw [splitOnce_eq_append hsplit] at h
      simp at h
  rw [cut, hnone]

theorem cut_snd_eq_none {c : Char} {t : Text} : (cut c t).2 = none ↔ c ∉ t := by
  constructor
  · intro h hmem
    obtain ⟨u, v, rfl, hu⟩ := List.eq_append_cons_of_mem hmem
    rw [cut, splitOnce_singleton hu] at h
    cases h
  · intro h
    rw [cut_of_not_mem h]

theorem split_of_plain {url : Text} (h : Plain url) : split url = ⟨pathOf url, none, none⟩ := by
  unfold split
  rw [cut_of_not_mem h.2]
  dsimp only
  rw [cut_of_not_mem h.1]

theorem plain_iff {url : Text} :
    Plain url ↔ (split url).query = none ∧ (split url).fragment = none := by
  constructor
  · intro h
    rw [split_of_plain h]
    exact ⟨rfl, rfl⟩
  · rintro ⟨hquery, hfragment⟩
    have hhash : '#' ∉ url := cut_snd_eq_none.mp hfragment
    unfold split at hquery
    rw [cut_of_not_mem hhash] at hquery
    exact ⟨cut_snd_eq_none.mp hquery, hhash⟩

theorem plain_append {t u : Text} : Plain (t ++ u) ↔ Plain t ∧ Plain u := by
  unfold Plain
  simp only [List.mem_append, not_or]
  exact ⟨fun h => ⟨⟨h.1.1, h.2.1⟩, h.1.2, h.2.2⟩, fun h => ⟨⟨h.1.1, h.2.1⟩, h.1.2, h.2.2⟩⟩

theorem plain_flatMap {α : Type} {l : List α} {f : α → Text} :
    Plain (l.flatMap f) ↔ ∀ x ∈ l, Plain (f x) := by
  induction l with
  | nil => simp [Plain]
  | cons x l ih => rw [List.flatMap_cons, plain_append, ih, List.forall_mem_cons]

theorem plain_cons {c : Char} (hq : c ≠ '?') (hf : c ≠ '#') {t : Text} :
    Plain (c :: t) ↔ Plain t := by
  unfold Plain
  rw [List.mem_cons, List.mem_cons, or_iff_right (Ne.symm hq), or_iff_right (Ne.symm hf)]

/-! ## Paths that are extended -/

theorem trimEnd_append_slashes {s : Text} (h : ∀ c ∈ s, isSlash c) (t : Text) :
    trimEnd isSlash (t ++ s) = trimEnd isSlash t := by
  unfold trimEnd List.rdropWhile
  rw [List.reverse_append, List.dropWhile_append_of_pos (by simpa using h)]

theorem trimEnd_append_of_not_mem {u : Text} (hne : u ≠ []) (h : '/' ∉ u) (t : Text) :
    trimEnd isSlash (t ++ u) = t ++ u := by
  obtain ⟨w, c, rfl⟩ := (List.eq_nil_or_concat' u).resolve_left hne
  have hc : ¬isSlash c := by
    intro hslash
    apply h
    rw [← of_decide_eq_true hslash]
    simp
  rw [← List.append_assoc, trimEnd, List.rdropWhile_concat_neg isSlash _ c hc]

theorem exists_slashes (t : Text) : ∃ s, t = trimEnd isSlash t ++ s ∧ ∀ c ∈ s, c = '/' := by
  refine ⟨t.rtakeWhile isSlash, List.rdropWhile_append_rtakeWhile.symm, ?_⟩
  intro c hc
  have hslash : isSlash c = true := List.mem_rtakeWhile_imp hc
  exact of_decide_eq_true hslash

/-- A text keeps its end when a longer one does. -/
theorem trimEnd_of_append {t u : Text} (h : trimEnd isSlash (t ++ u) = t ++ u) :
    trimEnd isSlash u = u := by
  unfold trimEnd at h ⊢
  rw [List.rdropWhile_eq_self_iff] at h ⊢
  intro hu
  have hlast := h (List.append_ne_nil_of_right_ne_nil t hu)
  rwa [List.getLast_append_of_ne_nil _ hu] at hlast

theorem dropWhile_append_slash {p : Char → Bool} (hp : p '/' = false) {s : Text}
    (hs : ∀ c, s.head? = some c → c = '/') (t : Text) :
    (t ++ s).dropWhile p = t.dropWhile p ++ s := by
  rw [List.dropWhile_append]
  split
  · rename_i hnil
    rw [List.isEmpty_iff.mp hnil, List.nil_append]
    cases s with
    | nil => rfl
    | cons c s =>
      rw [hs c rfl, List.dropWhile_cons_of_neg (by simp [hp])]
  · rfl

/-- A scheme ends before the first slash. -/
theorem afterScheme_append {s : Text} (hs : ∀ c, s.head? = some c → c = '/') (t : Text) :
    afterScheme (t ++ s) = afterScheme t ++ s := by
  unfold afterScheme
  dsimp only
  rw [dropWhile_append_slash (by rfl) hs]
  cases hrest : t.dropWhile fun c => decide (c ≠ ':' ∧ c ≠ '/') with
  | nil =>
    have hcolon : ([] ++ s).head? ≠ some ':' := fun h => absurd (hs _ h) (by decide)
    rw [if_neg fun h => hcolon h.2, if_neg fun h => by cases h.2]
  | cons c rest =>
    have hne : t ≠ [] := fun hnil => by
      rw [hnil] at hrest
      cases hrest
    rw [List.cons_append, List.head?_append_of_ne_nil _ hne, List.head?_cons, List.head?_cons,
      List.tail_cons, List.tail_cons, ← apply_ite (· ++ s)]

theorem suffix_afterScheme (t : Text) : afterScheme t <:+ t := by
  unfold afterScheme
  dsimp only
  split
  · exact (List.tail_suffix _).trans (List.dropWhile_suffix _)
  · exact List.suffix_refl t

/-- An authority ends before the next slash. -/
theorem afterAuthority_append {t : Text} (ht : trimEnd isSlash t = t) (hne : t ≠ []) {s : Text}
    (hs : ∀ c, s.head? = some c → c = '/') : afterAuthority (t ++ s) = afterAuthority t ++ s := by
  match t with
  | [] => exact absurd rfl hne
  | [c] =>
    have hc : c ≠ '/' := by
      rintro rfl
      cases ht
    simp [afterAuthority, hc]
  | c :: d :: rest =>
    by_cases hslash : c = '/' ∧ d = '/'
    · obtain ⟨rfl, rfl⟩ := hslash
      exact dropWhile_append_slash (by rfl) hs rest
    · rw [List.cons_append, List.cons_append, afterAuthority, afterAuthority]
      · rfl
      · simpa using hslash
      · simpa using hslash

theorem suffix_afterAuthority (t : Text) : afterAuthority t <:+ t := by
  unfold afterAuthority
  split
  · rename_i rest
    exact (List.dropWhile_suffix _).trans ((List.suffix_cons '/' rest).trans
      (List.suffix_cons '/' _))
  · exact List.suffix_refl t

/-- What is put behind a URL is put behind its path. -/
theorem pathOf_join (base : Text) {x : Text} (hx : x.head? ≠ some '/') :
    pathOf (trimEnd isSlash base ++ '/' :: x) =
      trimEnd isSlash (pathOf base) ++ '/' :: x := by
  obtain ⟨s, hbase, hs⟩ := exists_slashes base
  have htight : trimEnd isSlash (trimEnd isSlash base) = trimEnd isSlash base :=
    List.rdropWhile_idempotent isSlash base
  generalize trimEnd isSlash base = t at hbase htight ⊢
  subst hbase
  have hhead : ∀ c, s.head? = some c → c = '/' := fun c hc => hs c (List.mem_of_head? hc)
  have hcons : ∀ c, ('/' :: x).head? = some c → c = '/' := by simp
  unfold pathOf
  rw [afterScheme_append hhead, afterScheme_append hcons]
  obtain ⟨scheme, hscheme⟩ := suffix_afterScheme t
  have htail : trimEnd isSlash (afterScheme t) = afterScheme t := by
    rw [← hscheme] at htight
    exact trimEnd_of_append htight
  by_cases hnil : afterScheme t = []
  · rw [hnil, List.nil_append, List.nil_append]
    have hslashes : trimEnd isSlash (afterAuthority s) = [] := by
      apply List.rdropWhile_eq_nil_iff.mpr
      intro c hc
      exact decide_eq_true (hs c ((suffix_afterAuthority s).mem hc))
    rw [hslashes, List.nil_append]
    cases x with
    | nil => rfl
    | cons c x =>
      have hc : c ≠ '/' := by simpa using hx
      rw [afterAuthority]
      simpa using hc
  · obtain ⟨host, hhost⟩ := suffix_afterAuthority (afterScheme t)
    rw [afterAuthority_append htail hnil hhead, afterAuthority_append htail hnil hcons,
      trimEnd_append_slashes fun c hc => decide_eq_true (hs c hc)]
    have hpath : trimEnd isSlash (afterAuthority (afterScheme t)) =
        afterAuthority (afterScheme t) := by
      rw [← hhost] at htail
      exact trimEnd_of_append htail
    rw [hpath]

example : split "https://mirror.example/pub/a?b#c".toList =
    ⟨"/pub/a".toList, some "b".toList, some "c".toList⟩ := by decide

end Synora.Url
