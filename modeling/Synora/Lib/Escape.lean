import Synora.Lib.Text

namespace Synora.Strings

/-! ## Replacing every occurrence -/

section Replace

variable {pat new t u : Text}

theorem replaceFrom_length (t u : Text) :
    replaceFrom pat new t.length (t ++ u) = replaceFrom pat new 0 u := by
  induction t with
  | nil => rfl
  | cons c t ih => exact ih

theorem replace_hit (h : pat ≠ []) (u : Text) :
    replace pat new (pat ++ u) = new ++ replace pat new u := by
  obtain ⟨c, rest, rfl⟩ := List.exists_cons_of_ne_nil h
  have hpre : List.isPrefixOf (c :: rest) (c :: (rest ++ u)) = true :=
    List.isPrefixOf_iff_prefix.mpr (List.prefix_append (c :: rest) u)
  show replaceFrom _ _ 0 (c :: (rest ++ u)) = _
  rw [replaceFrom, if_pos hpre]
  exact congrArg (new ++ ·) (replaceFrom_length rest u)

theorem replace_miss {c : Char} (h : ¬pat <+: c :: t) :
    replace pat new (c :: t) = c :: replace pat new t := by
  show replaceFrom _ _ 0 (c :: t) = _
  rw [replaceFrom, if_neg (by rwa [List.isPrefixOf_iff_prefix])]
  rfl

/-- Text without the first character of the pattern is passed over. -/
theorem replace_append {c : Char} (h : c ∉ t) (u : Text) :
    replace (c :: pat) new (t ++ u) = t ++ replace (c :: pat) new u := by
  induction t with
  | nil => rfl
  | cons d t ih =>
    rw [List.mem_cons, not_or] at h
    rw [List.cons_append, replace_miss (by simp [h.1]), ih h.2]
    rfl

/-- A pattern of one character is replaced character by character. -/
theorem replace_singleton (c : Char) (t : Text) :
    replace [c] new t = t.flatMap fun d => if d = c then new else [d] := by
  induction t with
  | nil => rfl
  | cons d t ih =>
    rw [List.flatMap_cons, ← ih]
    by_cases hd : d = c
    · subst hd
      rw [if_pos rfl]
      exact replace_hit (List.cons_ne_nil d []) t
    · rw [if_neg hd, replace_miss (by simp [Ne.symm hd])]
      rfl

/-- A text is taken apart as `replace` reads it. -/
theorem replace_induction {P : Text → Prop} (h : pat ≠ []) (nil : P [])
    (hit : ∀ u, P u → P (pat ++ u)) (miss : ∀ c u, ¬pat <+: c :: u → P u → P (c :: u)) :
    ∀ t, P t := by
  intro t
  induction hn : t.length using Nat.strong_induction_on generalizing t with
  | _ n ih =>
    subst hn
    by_cases hpre : pat <+: t
    · obtain ⟨u, rfl⟩ := hpre
      have hpos := List.length_pos_iff.mpr h
      exact hit u (ih u.length (by rw [List.length_append]; omega) u rfl)
    · cases t with
      | nil => exact nil
      | cons c u => exact miss c u hpre (ih u.length (by simp) u rfl)

theorem replace_of_absent (h : ¬pat <:+: t) : replace pat new t = t := by
  induction t with
  | nil => rfl
  | cons c t ih =>
    rw [List.infix_cons_iff, not_or] at h
    rw [replace_miss h.1, ih h.2]

/-- A character that the pattern lacks splits what is replaced. -/
theorem replace_split {c : Char} (hne : pat ≠ []) (hc : c ∉ pat) (u v : Text) :
    replace pat new (u ++ c :: v) = replace pat new u ++ c :: replace pat new v := by
  induction u using replace_induction hne with
  | nil =>
    refine replace_miss fun hpre => ?_
    obtain ⟨d, rest, rfl⟩ := List.exists_cons_of_ne_nil hne
    rw [List.cons_prefix_cons] at hpre
    exact hc (hpre.1 ▸ List.mem_cons_self)
  | hit u ih =>
    rw [List.append_assoc, replace_hit hne, ih, replace_hit hne, List.append_assoc]
  | miss d u hpre ih =>
    have hmiss : ¬pat <+: d :: (u ++ c :: v) := by
      intro h
      have hwhole : d :: u ++ [c] <+: d :: (u ++ c :: v) := ⟨v, by simp⟩
      rcases Nat.lt_or_ge (d :: u).length pat.length with hlt | hle
      · have hlong : (d :: u ++ [c]).length ≤ pat.length := by
          rw [List.length_append, List.length_singleton]
          omega
        exact hc ((List.prefix_of_prefix_length_le hwhole h hlong).mem (by simp))
      · exact hpre (List.prefix_of_prefix_length_le h (List.prefix_append (d :: u) (c :: v)) hle)
    rw [List.cons_append, replace_miss hmiss, ih, replace_miss hpre, List.cons_append]

theorem length_replace_le (hne : pat ≠ []) (hlt : new.length ≤ pat.length) (t : Text) :
    (replace pat new t).length ≤ t.length := by
  induction t using replace_induction hne with
  | nil => exact le_rfl
  | hit u ih =>
    rw [replace_hit hne, List.length_append, List.length_append]
    omega
  | miss c u hpre ih =>
    rw [replace_miss hpre, List.length_cons, List.length_cons]
    omega

theorem length_replace_lt (hlt : new.length < pat.length) (h : pat <:+: t) :
    (replace pat new t).length < t.length := by
  have hne : pat ≠ [] := List.length_pos_iff.mp (by omega)
  induction t using replace_induction hne with
  | nil => exact absurd (List.eq_nil_of_infix_nil h) hne
  | hit u ih =>
    have hle := length_replace_le hne hlt.le u
    rw [replace_hit hne, List.length_append, List.length_append]
    omega
  | miss c u hpre ih =>
    have hrest := ih ((List.infix_cons_iff.mp h).resolve_left hpre)
    rw [replace_miss hpre, List.length_cons, List.length_cons]
    omega

/-- A replacement by something shorter shows. -/
theorem replace_eq_self_iff (hlt : new.length < pat.length) :
    replace pat new t = t ↔ ¬pat <:+: t := by
  refine ⟨fun heq h => ?_, replace_of_absent⟩
  have hlen := length_replace_lt hlt h
  rw [heq] at hlen
  omega

end Replace

/-! ## Names behind a mark -/

/-- A character with a name is written as the mark and its name. -/
def escape (mark : Char) (names : List (Char × Text)) (c : Char) : Text :=
  match names.lookup c with
  | some name => mark :: name
  | none => [c]

/-- The names are taken back one after the other. -/
def unescape (mark : Char) (names : List (Char × Text)) (t : Text) : Text :=
  names.foldl (fun t p => replace (mark :: p.2) [p.1] t) t

/-- No other name can be read as this one. -/
def Distinct (mark : Char) (name : Text) (names : List (Char × Text)) : Prop :=
  name ≠ [] ∧ ∀ p ∈ names, p.1 ≠ mark ∧ mark ∉ p.2 ∧ p.2 ≠ [] ∧ p.2.head? ≠ name.head?

instance (mark : Char) (name : Text) (names : List (Char × Text)) :
    Decidable (Distinct mark name names) := inferInstanceAs (Decidable (_ ∧ _))

/-- Each name is distinct from those that follow, and uses no character that has a name. -/
def Separate (mark : Char) : List (Char × Text) → Prop
  | [] => True
  | (c, name) :: names => c ≠ mark ∧ names.lookup c = none ∧
      (∀ d ∈ name, d ≠ mark ∧ d ≠ c ∧ names.lookup d = none) ∧ Distinct mark name names ∧
      Separate mark names

instance decidableSeparate (mark : Char) : ∀ names, Decidable (Separate mark names)
  | [] => .isTrue trivial
  | (c, name) :: names =>
    have := decidableSeparate mark names
    inferInstanceAs (Decidable (c ≠ mark ∧ names.lookup c = none ∧
      (∀ d ∈ name, d ≠ mark ∧ d ≠ c ∧ names.lookup d = none) ∧ Distinct mark name names ∧
      Separate mark names))

section Escape

variable {mark c : Char} {name t : Text} {names : List (Char × Text)}

theorem mem_of_lookup {d : Char} (h : names.lookup d = some name) : (d, name) ∈ names := by
  obtain ⟨l₁, l₂, rfl, -⟩ := List.lookup_eq_some_iff.mp h
  exact List.mem_append_right l₁ List.mem_cons_self

theorem lookup_cons_of_ne {d : Char} (h : d ≠ c) :
    ((c, name) :: names).lookup d = names.lookup d := by
  rw [List.lookup_cons, beq_false_of_ne h]

theorem escape_cons_of_ne {d : Char} (h : d ≠ c) :
    escape mark ((c, name) :: names) d = escape mark names d := by
  rw [escape, escape, lookup_cons_of_ne h]

theorem not_prefix_of_distinct (h : Distinct mark name names) {p : Char × Text} (hp : p ∈ names)
    (u : Text) : ¬name <+: p.2 ++ u := by
  obtain ⟨hne, hall⟩ := h
  obtain ⟨-, -, hnil, hhead⟩ := hall p hp
  obtain ⟨a, rest, hname⟩ := List.exists_cons_of_ne_nil hne
  obtain ⟨b, rest', hother⟩ := List.exists_cons_of_ne_nil hnil
  rw [hname, hother] at hhead
  rw [hname, hother, List.cons_append, List.cons_prefix_cons]
  exact fun hpre => hhead (congrArg some hpre.1.symm)

/-- A character with another name, or without one, is passed over. -/
theorem replace_escape {new u : Text} (h : Distinct mark name names) {d : Char} (hd : d ≠ mark) :
    replace (mark :: name) new (escape mark names d ++ u) =
      escape mark names d ++ replace (mark :: name) new u := by
  unfold escape
  rcases hlookup : names.lookup d with _ | other
  · exact replace_append (by simpa using hd.symm) u
  · have hp := mem_of_lookup hlookup
    show replace _ _ (mark :: (other ++ u)) = _
    rw [replace_miss, replace_append (h.2 _ hp).2.1]
    · rfl
    · rw [List.cons_prefix_cons]
      exact fun hpre => not_prefix_of_distinct h hp u hpre.2

theorem lookup_mark (h : Distinct mark name names) : names.lookup mark = none := by
  rw [List.lookup_eq_none_iff]
  intro p hp
  simpa using ((h.2 p hp).1).symm

/-- Where the mark has a name too, that name is taken back without a trace. -/
theorem replace_mark (h : Distinct mark name names) (t : Text) :
    replace (mark :: name) [mark] (t.flatMap (escape mark ((mark, name) :: names))) =
      t.flatMap (escape mark names) := by
  induction t with
  | nil => rfl
  | cons d t ih =>
    rw [List.flatMap_cons, List.flatMap_cons]
    by_cases hd : d = mark
    · subst hd
      have hself : escape d ((d, name) :: names) d = d :: name := by simp [escape]
      have hplain : escape d names d = [d] := by simp [escape, lookup_mark h]
      rw [hself, replace_hit (by simp), ih, hplain]
    · rw [escape_cons_of_ne hd, replace_escape h hd, ih]

/-- Plain characters are read off an escaped text. -/
theorem prefix_flatMap_escape (h : ∀ d ∈ name, d ≠ mark ∧ names.lookup d = none) (t : Text) :
    name <+: t.flatMap (escape mark names) ↔ name <+: t := by
  induction name generalizing t with
  | nil => simp
  | cons a rest ih =>
    obtain ⟨⟨hmark, hplain⟩, hrest⟩ := List.forall_mem_cons.mp h
    cases t with
    | nil => simp
    | cons d t =>
      rw [List.flatMap_cons, List.cons_prefix_cons]
      unfold escape
      rcases hlookup : names.lookup d with _ | other
      · show a :: rest <+: d :: t.flatMap (escape mark names) ↔ _
        rw [List.cons_prefix_cons, ih hrest]
      · refine iff_of_false (fun hpre => hmark ?_) fun hpre => ?_
        · exact (List.cons_prefix_cons.mp hpre).1
        · rw [← hpre.1, hplain] at hlookup
          cases hlookup

/-- What stands for one character is taken back, along with what looked so from the start. -/
theorem replace_flatMap_escape (hc : c ≠ mark) (hnew : names.lookup c = none)
    (hplain : ∀ d ∈ name, d ≠ mark ∧ d ≠ c ∧ names.lookup d = none)
    (h : Distinct mark name names) (t : Text) :
    replace (mark :: name) [c] (t.flatMap (escape mark ((c, name) :: names))) =
      (replace (mark :: name) [c] t).flatMap (escape mark names) := by
  have hmark : escape mark ((c, name) :: names) mark = [mark] := by
    rw [escape_cons_of_ne hc.symm, escape, lookup_mark h]
  have hself : escape mark ((c, name) :: names) c = mark :: name := by simp [escape]
  have hgone : escape mark names c = [c] := by simp [escape, hnew]
  have hname : ∀ d ∈ name, d ≠ mark ∧ ((c, name) :: names).lookup d = none := by
    intro d hd
    obtain ⟨hdm, hdc, hnone⟩ := hplain d hd
    exact ⟨hdm, (lookup_cons_of_ne hdc).trans hnone⟩
  have hverbatim : name.flatMap (escape mark ((c, name) :: names)) = name := by
    rw [List.flatMap_congr (g := fun d => [d]), List.flatMap_singleton']
    intro d hd
    rw [escape, (hname d hd).2]
  induction t using replace_induction (List.cons_ne_nil mark name) with
  | nil => rfl
  | hit u ih =>
    rw [List.flatMap_append, List.flatMap_cons, hmark, hverbatim, List.singleton_append,
      replace_hit (List.cons_ne_nil mark name), replace_hit (List.cons_ne_nil mark name), ih,
      List.flatMap_append, List.flatMap_singleton, hgone]
  | miss d u hpre ih =>
    rw [List.flatMap_cons, replace_miss hpre, List.flatMap_cons]
    by_cases hdc : d = c
    · subst hdc
      rw [hself, replace_hit (List.cons_ne_nil mark name), ih, hgone]
    · by_cases hdm : d = mark
      · subst hdm
        have hbare : escape d names d = [d] := by rw [escape, lookup_mark h]
        rw [hmark, hbare, List.singleton_append, replace_miss, ih]
        · rfl
        · rw [List.cons_prefix_cons, prefix_flatMap_escape hname]
          rwa [List.cons_prefix_cons] at hpre
      · rw [escape_cons_of_ne hdc, replace_escape h hdm, ih]

/-- Taking all names back from an escaped text is as taking them back from the text itself. -/
theorem unescape_flatMap_escape (h : Separate mark names) (t : Text) :
    unescape mark names (t.flatMap (escape mark names)) = unescape mark names t := by
  induction names generalizing t with
  | nil =>
    have hid : escape mark [] = fun c => [c] := rfl
    rw [hid, List.flatMap_singleton']
  | cons p names ih =>
    obtain ⟨hc, hnew, hplain, hdistinct, hrest⟩ := h
    have hstep := replace_flatMap_escape hc hnew hplain hdistinct t
    exact (congrArg (unescape mark names) hstep).trans (ih hrest _)

theorem length_unescape_le (h : ∀ p ∈ names, p.2 ≠ []) (t : Text) :
    (unescape mark names t).length ≤ t.length := by
  induction names generalizing t with
  | nil => exact le_rfl
  | cons p names ih =>
    obtain ⟨hp, hrest⟩ := List.forall_mem_cons.mp h
    exact (ih hrest _).trans (length_replace_le (List.cons_ne_nil mark p.2) (by simp) t)

/-- Nothing is taken back from a text exactly where none of the names occurs. -/
theorem unescape_eq_self_iff (h : ∀ p ∈ names, p.2 ≠ []) :
    unescape mark names t = t ↔ ∀ p ∈ names, ¬mark :: p.2 <:+: t := by
  induction names with
  | nil => simp [unescape]
  | cons p names ih =>
    obtain ⟨hp, hrest⟩ := List.forall_mem_cons.mp h
    have hlt : [p.1].length < (mark :: p.2).length := by
      simpa using List.length_pos_iff.mpr hp
    rw [List.forall_mem_cons]
    show unescape mark names (replace (mark :: p.2) [p.1] t) = t ↔ _
    constructor
    · intro heq
      have hfree : ¬mark :: p.2 <:+: t := by
        intro hin
        have hshrunk := length_replace_lt hlt hin
        have hle : (unescape mark names (replace (mark :: p.2) [p.1] t)).length ≤ _ :=
          length_unescape_le hrest _
        rw [heq] at hle
        omega
      rw [replace_of_absent hfree] at heq
      exact ⟨hfree, (ih hrest).mp heq⟩
    · rintro ⟨hfree, hnone⟩
      rw [replace_of_absent hfree]
      exact (ih hrest).mpr hnone

end Escape

end Synora.Strings
