import Mathlib.Data.List.Infix
import Mathlib.Tactic.Common

/-! Directory trees with symbolic links: how paths are resolved in them, and the calls that change
them. -/

namespace Synora.FileTree

/-- A segment of a path. -/
inductive Seg (N : Type)
  | here
  | up
  | name (n : N)
deriving DecidableEq, Repr

/-- What a symbolic link leads to. -/
structure Link (N : Type) where
  absolute : Bool
  segs : List (Seg N)
deriving DecidableEq, Repr

inductive Inode (N : Type)
  | file
  | dir
  /-- Sockets, pipes and devices. -/
  | special
  | symlink (target : Link N)
deriving DecidableEq, Repr

/-- A place, by the directories that lead to it from the root. -/
abbrev Place (N : Type) := List N

structure Tree (N : Type) where
  node : Place N → Option (Inode N)
  /-- All places that are taken. -/
  places : List (Place N)
  mem_places : ∀ {p : Place N}, node p ≠ none → p ∈ places
  root : node [] = some .dir
  parent : ∀ {p : Place N} {n : N}, node (p ++ [n]) ≠ none → node p = some .dir

variable {N : Type}

def isLink : Option (Inode N) → Bool
  | some (.symlink _) => true
  | _ => false

namespace Tree

/-- Everything above a taken place is a directory. -/
theorem dir_of_below (t : Tree N) {p q : Place N} (h : t.node (p ++ q) ≠ none) (hq : q ≠ []) :
    t.node p = some .dir := by
  induction q using List.reverseRecOn with
  | nil => exact absurd rfl hq
  | append_singleton q n ih =>
    rw [← List.append_assoc] at h
    have hdir := t.parent h
    cases q with
    | nil => simpa using hdir
    | cons m q => exact ih (by rw [hdir]; simp) (by simp)

/-- Nothing is below a place that is not a directory. -/
theorem eq_of_isBelow (t : Tree N) {p x : Place N} (hp : t.node p ≠ some .dir)
    (hx : t.node x ≠ none) (h : p <+: x) : x = p := by
  obtain ⟨q, rfl⟩ := h
  cases q with
  | nil => simp
  | cons n q => exact absurd (t.dir_of_below hx (by simp)) hp

variable [DecidableEq N]

/-- The tree that holds its root alone. -/
def bare (N : Type) [DecidableEq N] : Tree N where
  node p := if p = [] then some .dir else none
  places := [[]]
  mem_places := by simp
  root := rfl
  parent := by simp

/-! ## Changes -/

/-- A free place in a directory is taken. -/
def add (t : Tree N) (i : Inode N) (d : Place N) (n : N)
    (h : t.node d = some .dir ∧ t.node (d ++ [n]) = none) : Tree N where
  node x := if x = d ++ [n] then some i else t.node x
  places := (d ++ [n]) :: t.places
  mem_places := by
    intro p hp
    split at hp
    · simp [*]
    · exact List.mem_cons_of_mem _ (t.mem_places hp)
  root := by simp [t.root]
  parent := by
    intro p m hp
    have hne : d ≠ d ++ [n] := by simp
    split at hp
    · rename_i heq
      obtain ⟨rfl, -⟩ := List.append_inj' heq rfl
      rw [if_neg hne]
      exact h.1
    · have hdir := t.parent hp
      rw [if_neg]
      · exact hdir
      · rintro rfl
        rw [h.2] at hdir
        cases hdir

/-- A place is freed, with all below it. -/
def drop (t : Tree N) (p : Place N) (h : p ≠ []) : Tree N where
  node x := if p <+: x then none else t.node x
  places := t.places
  mem_places := by
    intro x hx
    split at hx
    · exact absurd rfl hx
    · exact t.mem_places hx
  root := by simp [h, t.root]
  parent := by
    intro x n hx
    split at hx
    · exact absurd rfl hx
    · rename_i hpre
      rw [if_neg fun hp => hpre (hp.trans (List.prefix_append _ _))]
      exact t.parent hx

/-- A place moves, with all below it. -/
def move (t : Tree N) (p : Place N) (d : Place N) (n : N)
    (h : p ≠ [] ∧ t.node d = some .dir ∧ ¬p <+: d ++ [n]) : Tree N where
  node x :=
    if d ++ [n] <+: x then t.node (p ++ x.drop (d ++ [n]).length)
    else if p <+: x then none
    else t.node x
  places := t.places ++ t.places.map fun x => d ++ [n] ++ x.drop p.length
  mem_places := by
    intro x hx
    rw [List.mem_append]
    split at hx
    · rename_i hpre
      obtain ⟨s, rfl⟩ := hpre
      rw [List.drop_left] at hx
      refine Or.inr (List.mem_map.mpr ⟨p ++ s, t.mem_places hx, ?_⟩)
      rw [List.drop_left]
    · split at hx
      · exact absurd rfl hx
      · exact Or.inl (t.mem_places hx)
  root := by simp [h.1, t.root]
  parent := by
    intro x m hx
    split at hx
    · rename_i hpre
      rcases List.prefix_concat_iff.mp hpre with heq | hin
      · obtain ⟨rfl, -⟩ := List.append_inj' heq rfl
        have hup : ¬d ++ [n] <+: d := fun hp => by
          have hlen := hp.length_le
          rw [List.length_append, List.length_singleton] at hlen
          omega
        rw [if_neg hup, if_neg fun hp => h.2.2 (hp.trans (List.prefix_append _ _))]
        exact h.2.1
      · rw [if_pos hin]
        obtain ⟨s, rfl⟩ := hin
        rw [List.append_assoc (d ++ [n]), List.drop_left, ← List.append_assoc] at hx
        rw [List.drop_left]
        exact t.parent hx
    · rename_i hpre
      split at hx
      · exact absurd rfl hx
      · rename_i hsrc
        rw [if_neg fun hp => hpre (hp.trans (List.prefix_append _ _)),
          if_neg fun hp => hsrc (hp.trans (List.prefix_append _ _))]
        exact t.parent hx

/-! ## Calls -/

/-- `mkdir`, `symlink` and the creation of a file. -/
def make (t : Tree N) (i : Inode N) (d : Place N) (n : N) : Option (Tree N) :=
  if h : t.node d = some .dir ∧ t.node (d ++ [n]) = none then some (t.add i d n h) else none

def unlink (t : Tree N) (p : Place N) : Option (Tree N) :=
  if h : p ≠ [] ∧ t.node p ≠ none ∧ t.node p ≠ some .dir then some (t.drop p h.1) else none

def isEmpty (t : Tree N) (p : Place N) : Bool :=
  t.places.all fun x => !decide (p <+: x ∧ x ≠ p ∧ t.node x ≠ none)

def rmdir (t : Tree N) (p : Place N) : Option (Tree N) :=
  if h : p ≠ [] ∧ t.node p = some .dir ∧ t.isEmpty p then some (t.drop p h.1) else none

/-- What stands at `p` may take the place `q`. -/
def replaces (t : Tree N) (p q : Place N) : Bool :=
  match t.node p, t.node q with
  | none, _ => false
  | some _, none => true
  | some .dir, some .dir => t.isEmpty q
  | some .dir, some _ => false
  | some _, some .dir => false
  | some _, some _ => true

def rename (t : Tree N) (p d : Place N) (n : N) : Option (Tree N) :=
  if p = d ++ [n] then if t.node p = none then none else some t
  else if h : p ≠ [] ∧ t.node d = some .dir ∧ ¬p <+: d ++ [n] then
    if t.replaces p (d ++ [n]) then some (t.move p d n h) else none
  else none

/-- No link stands where none was. -/
def NoNewLinks (t t' : Tree N) : Prop := ∀ x, isLink (t'.node x) → isLink (t.node x)

section

variable {t t' : Tree N} {p d x : Place N} {n : N}

theorem node_make {i : Inode N} (h : t.make i d n = some t') :
    t'.node x = if x = d ++ [n] then some i else t.node x := by
  unfold make at h
  split at h
  · cases h
    rfl
  · cases h

/-- A new entry leaves all others as they are. -/
theorem make_keeps {i j : Inode N} (h : t.make i d n = some t') (hx : t.node x = some j) :
    t'.node x = some j := by
  rw [node_make h, if_neg]
  · exact hx
  · rintro rfl
    unfold make at h
    split at h
    · rename_i hfree
      rw [hfree.2] at hx
      cases hx
    · cases h

theorem noNewLinks_make {i : Inode N} (hi : isLink (some i) = false)
    (h : t.make i d n = some t') : NoNewLinks t t' := by
  intro x hx
  rw [node_make h] at hx
  split at hx
  · rw [hi] at hx
    cases hx
  · exact hx

theorem node_unlink (h : t.unlink p = some t') :
    t'.node x = if p <+: x then none else t.node x := by
  unfold unlink at h
  split at h
  · cases h
    rfl
  · cases h

theorem noNewLinks_unlink (h : t.unlink p = some t') : NoNewLinks t t' := by
  intro x hx
  rw [node_unlink h] at hx
  split at hx
  · cases hx
  · exact hx

/-- Directories survive the removal of a file. -/
theorem unlink_keeps_dir (h : t.unlink p = some t') (hx : t.node x = some .dir) :
    t'.node x = some .dir := by
  rw [node_unlink h, if_neg]
  · exact hx
  · intro hpre
    unfold unlink at h
    split at h
    · rename_i hp
      obtain rfl := t.eq_of_isBelow hp.2.2 (by rw [hx]; simp) hpre
      exact hp.2.2 hx
    · cases h

theorem eq_of_isEmpty (h : t.isEmpty p) (hx : t.node x ≠ none) (hpre : p <+: x) : x = p := by
  simp only [isEmpty, List.all_eq_true, Bool.not_eq_true', decide_eq_false_iff_not] at h
  by_contra hne
  exact h x (t.mem_places hx) ⟨hpre, hne, hx⟩

theorem rename_cases (h : t.rename p d n = some t') :
    t' = t ∨ t.replaces p (d ++ [n]) ∧ ∀ x, t'.node x =
      if d ++ [n] <+: x then t.node (p ++ x.drop (d ++ [n]).length)
      else if p <+: x then none else t.node x := by
  unfold rename at h
  split at h
  · split at h
    · cases h
    · cases h
      exact Or.inl rfl
  · split at h
    · split at h
      · rename_i hrep
        cases h
        exact Or.inr ⟨hrep, fun _ => rfl⟩
      · cases h
    · cases h

/-- A move of what holds no link. -/
theorem noNewLinks_rename (h : t.rename p d n = some t')
    (hp : ∀ x, p <+: x → isLink (t.node x) = false) : NoNewLinks t t' := by
  intro x hx
  rcases rename_cases h with rfl | ⟨-, hnode⟩
  · exact hx
  · rw [hnode] at hx
    split at hx
    · rw [hp _ (List.prefix_append _ _)] at hx
      cases hx
    · split at hx
      · cases hx
      · exact hx

/-- Directories survive a move of something else. -/
theorem rename_keeps_dir (h : t.rename p d n = some t') (hp : ¬p <+: x)
    (hx : t.node x = some .dir) : t'.node x = some .dir := by
  rcases rename_cases h with rfl | ⟨hrep, hnode⟩
  · exact hx
  · have htaken : t.node x ≠ none := by rw [hx]; simp
    rw [hnode, if_neg hp]
    split
    · rename_i hpre
      -- the new name is taken by a directory: it is empty, and replaced by one
      have hdir : t.node (d ++ [n]) = some .dir := by
        by_contra hne
        exact hne (t.eq_of_isBelow hne htaken hpre ▸ hx)
      have hempty : t.node p = some .dir ∧ t.isEmpty (d ++ [n]) := by
        rw [replaces, hdir] at hrep
        split at hrep <;> simp_all
      rw [t.eq_of_isEmpty hempty.2 htaken hpre, List.drop_length, List.append_nil]
      exact hempty.1
    · exact hx

end

/-! ## Paths -/

/-- The directory that segments lead to from `cur`; a link is handed to `follow`. -/
def descend (t : Tree N) (follow : Place N → List (Seg N) → Option (Place N)) :
    Place N → List (Seg N) → Option (Place N)
  | cur, [] => if t.node cur = some .dir then some cur else none
  | cur, .here :: rest => descend t follow cur rest
  | cur, .up :: rest =>
    if t.node cur = some .dir then descend t follow cur.dropLast rest else none
  | cur, .name n :: rest =>
    match t.node (cur ++ [n]) with
    | none => none
    | some (.symlink l) => follow (if l.absolute then [] else cur) (l.segs ++ rest)
    | some _ => descend t follow (cur ++ [n]) rest

/-- The directory at a path that leads through at most so many links. -/
def dirAt (t : Tree N) : ℕ → Place N → List (Seg N) → Option (Place N)
  | 0 => t.descend fun _ _ => none
  | links + 1 => t.descend (t.dirAt links)

/-- More links than this in one path are an error (`ELOOP`). -/
def maxLinks : ℕ := 40

/-- The entry that a path names, as its directory and its name there. -/
def locate (t : Tree N) (cur : Place N) (segs : List (Seg N)) : Option (Place N × N) :=
  match segs.getLast? with
  | some (.name n) => (t.dirAt maxLinks cur segs.dropLast).map (·, n)
  | _ => none

/-- `lstat` -/
def lstat (t : Tree N) (cur : Place N) (segs : List (Seg N)) : Option (Inode N) :=
  match segs.getLast? with
  | some (.name n) => (t.dirAt maxLinks cur segs.dropLast).bind fun d => t.node (d ++ [n])
  | _ => (t.dirAt maxLinks cur segs).bind t.node

/-- Where `open` ends up, which follows a link at the end of its path. -/
def openAt (t : Tree N) : ℕ → Place N → List (Seg N) → Option (Place N × N)
  | 0, _, _ => none
  | links + 1, cur, segs => do
    let (d, n) ← t.locate cur segs
    match t.node (d ++ [n]) with
    | some (.symlink l) => t.openAt links (if l.absolute then [] else d) l.segs
    | _ => pure (d, n)

omit [DecidableEq N] in
/-- The names among the segments. -/
def names (segs : List (Seg N)) : List N :=
  segs.filterMap fun
    | .name n => some n
    | _ => none

theorem descend_of_clear (t : Tree N) (follow : Place N → List (Seg N) → Option (Place N))
    {cur : Place N} {segs : List (Seg N)} (hup : .up ∉ segs)
    (h : ∀ q, q ≠ [] → q <+: names segs → isLink (t.node (cur ++ q)) = false) :
    t.descend follow cur segs =
      if t.node (cur ++ names segs) = some .dir then some (cur ++ names segs) else none := by
  induction segs generalizing cur with
  | nil => simp [descend, names]
  | cons s segs ih =>
    rw [List.mem_cons, not_or] at hup
    cases s with
    | here => exact ih hup.2 h
    | up => exact absurd rfl hup.1
    | name n =>
      have hnames : names (.name n :: segs) = n :: names segs := rfl
      rw [hnames] at h ⊢
      have happ : cur ++ n :: names segs = cur ++ [n] ++ names segs := by simp
      have hhead : isLink (t.node (cur ++ [n])) = false := h [n] (by simp) (by simp)
      have hrest : t.descend follow (cur ++ [n]) segs =
          if t.node (cur ++ [n] ++ names segs) = some .dir then some (cur ++ [n] ++ names segs)
          else none := by
        refine ih hup.2 fun q _ hpre => ?_
        rw [List.append_assoc]
        exact h ([n] ++ q) (by simp) (by simpa using hpre)
      rw [happ, descend]
      split
      · rename_i hnone
        rw [if_neg]
        intro hdir
        cases hs : names segs with
        | nil => rw [hs, List.append_nil, hnone] at hdir; cases hdir
        | cons m ms =>
          rw [hs] at hdir
          have habove := t.dir_of_below (p := cur ++ [n]) (q := m :: ms) (by rw [hdir]; simp)
            (by simp)
          rw [hnone] at habove
          cases habove
      · rename_i hlink
        rw [hlink] at hhead
        cases hhead
      · exact hrest

/-- A path with no link on it leads where it says. -/
theorem dirAt_of_clear (t : Tree N) (links : ℕ) {cur : Place N} {segs : List (Seg N)}
    (hup : .up ∉ segs)
    (h : ∀ q, q ≠ [] → q <+: names segs → isLink (t.node (cur ++ q)) = false) :
    t.dirAt links cur segs =
      if t.node (cur ++ names segs) = some .dir then some (cur ++ names segs) else none := by
  cases links with
  | zero => exact descend_of_clear t _ hup h
  | succ links => exact descend_of_clear t _ hup h

end Tree

end Synora.FileTree
