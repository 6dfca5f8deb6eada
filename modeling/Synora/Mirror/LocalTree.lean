import Mathlib.Data.List.Sort
import Synora.Mirror.Listing

namespace Synora.Mirror
open Strings Utf8

/-! ## Paths -/

/-- A segment of an operating-system path: text, or bytes that are not UTF-8. -/
inductive OsName
  | text (t : Text)
  | other (bytes : Bytes)
deriving DecidableEq, Repr

def OsName.toStr : OsName → Option Text
  | .text t => some t
  | .other _ => none

/-- A path, lexically: what stands between its slashes. -/
abbrev Path := List OsName

def Path.ofText (t : Text) : Path := (segments t).map .text

/-- The path starts with a slash. -/
def Path.isAbsolute : Path → Bool
  | .text [] :: _ :: _ => true
  | _ => false

/-- `Path::join`: an absolute path replaces the base. -/
def Path.join (base rel : Path) : Path :=
  if isAbsolute rel then rel
  else if base.getLast? = some (.text []) then base.dropLast ++ rel
  else base ++ rel

def OsName.isNormal (n : OsName) : Bool := !decide (n = .text [] ∨ n = .text ".".toList)

/-- The path as the file system reads it: empty and `.` segments name nothing. -/
def Path.normal (p : Path) : List OsName := p.filter OsName.isNormal

/-- `components().count()` -/
def Path.components (p : Path) : ℕ :=
  (if isAbsolute p ∨ p.head? = some (.text ".".toList) then 1 else 0) + p.normal.length

theorem Path.normal_append (p q : Path) : Path.normal (p ++ q) = p.normal ++ q.normal :=
  List.filter_append p q

/-- Below a base, relative paths are told apart by their own segments. -/
theorem Path.join_normal_inj (base : Path) {p q : Path} (hp : isAbsolute p = false)
    (hq : isAbsolute q = false) (h : (base.join p).normal = (base.join q).normal) :
    p.normal = q.normal := by
  unfold Path.join at h
  rw [hp, hq] at h
  simp only [Bool.false_eq_true, if_false] at h
  split at h
  · rw [normal_append, normal_append] at h
    exact List.append_cancel_left h
  · rw [normal_append, normal_append] at h
    exact List.append_cancel_left h

/-- Two spellings of one place. -/
def Path.Same (p q : Path) : Prop := isAbsolute p = isAbsolute q ∧ p.normal = q.normal

instance (p q : Path) : Decidable (p.Same q) := inferInstanceAs (Decidable (_ ∧ _))

/-- `rel.to_str().unwrap_or_default()` -/
def relStr (rel : List OsName) : Text := ((rel.mapM OsName.toStr).map unsegments).getD []

/-! ## Excludes -/

structure ExcludePattern where
  pre : Text
  /-- `glob::Pattern::new(&pre).is_ok()` -/
  glob : Bool
deriving DecidableEq, Repr

def trimSlashes (t : Text) : Text := trimEnd isSlash (trimStart isSlash t)

def withExcludes (ext : Externals) (excludes : List Text) : List ExcludePattern :=
  ((excludes.map trimSlashes).filter fun t => !t.isEmpty).map fun pre => ⟨pre, ext.globValid pre⟩

/-- The leading parts of a path, and the path itself. -/
def ancestry (rel : Text) : List Text :=
  ((List.range rel.length).filter fun i => decide (rel[i]? = some '/')).map rel.take ++ [rel]

def isExcluded (ext : Externals) (excludes : List ExcludePattern) (rel : Text) : Bool :=
  let rel := trimSlashes rel
  excludes.any fun e =>
    decide (rel = e.pre) ||
      ((stripPrefix e.pre rel).any fun rest => "/".toList.isPrefixOf rest) ||
      (e.glob && (ancestry rel).any fun part => ext.globMatches e.pre part)

/-! ## The storage directory -/

/-- What a directory entry can be called. -/
def OsName.isEntry : OsName → Bool
  | .text t => !decide (t = [] ∨ t = ".".toList ∨ t = "..".toList ∨ '/' ∈ t)
  | .other _ => true

structure FileName where
  name : OsName
  valid : name.isEntry

mutual

inductive Node
  | file
  | symlink
  /-- Sockets, pipes and devices. -/
  | special
  | dir (readable : Bool) (children : Children)

inductive Children
  | nil
  | cons (name : FileName) (node : Node) (rest : Children)

end

/-- The files and directories of a walk, relative to the storage directory. -/
structure Walk where
  files : List (List OsName)
  dirs : List (List OsName)
deriving DecidableEq, Repr

def Walk.append (v w : Walk) : Walk := ⟨v.files ++ w.files, v.dirs ++ w.dirs⟩

/-- Every path of the walk is made of directory entries, one per level, and is not excluded. -/
def Walk.Named (excluded : Text → Bool) (w : Walk) : Prop :=
  ∀ x ∈ w.files ++ w.dirs, x ≠ [] ∧ (∀ n ∈ x, n.isEntry) ∧ excluded (relStr x) = false

section
variable {excluded : Text → Bool}

theorem Walk.named_empty : Walk.Named excluded ⟨[], []⟩ := by simp [Named]

theorem Walk.named_file {rel : List OsName} (hne : rel ≠ []) (hrel : ∀ n ∈ rel, n.isEntry)
    (hex : ¬excluded (relStr rel)) : Walk.Named excluded ⟨[rel], []⟩ := by
  simpa [Named] using ⟨hne, hrel, Bool.eq_false_iff.mpr hex⟩

theorem Walk.named_dir {rel : List OsName} (hne : rel ≠ []) (hrel : ∀ n ∈ rel, n.isEntry)
    (hex : ¬excluded (relStr rel)) : Walk.Named excluded ⟨[], [rel]⟩ := by
  simpa [Named] using ⟨hne, hrel, Bool.eq_false_iff.mpr hex⟩

/-- What holds of all paths of two walks holds of their paths together. -/
theorem Walk.forall_append {P : List OsName → Prop} {v w : Walk}
    (hv : ∀ x ∈ v.files ++ v.dirs, P x) (hw : ∀ x ∈ w.files ++ w.dirs, P x) :
    ∀ x ∈ (v.append w).files ++ (v.append w).dirs, P x := by
  intro x hx
  simp only [Walk.append, List.mem_append] at hx
  rcases hx with (hx | hx) | (hx | hx)
  · exact hv x (List.mem_append_left _ hx)
  · exact hw x (List.mem_append_left _ hx)
  · exact hv x (List.mem_append_right _ hx)
  · exact hw x (List.mem_append_right _ hx)

theorem Walk.Named.append {v w : Walk} (hv : v.Named excluded) (hw : w.Named excluded) :
    (v.append w).Named excluded := Walk.forall_append hv hw

end

section
variable (excluded : Text → Bool)

mutual

/-- What a directory entry adds to its own level and to what lies below; `none` is a read
error. -/
def walkNode (rel : List OsName) : Node → Option (Walk × Walk)
  | .file | .symlink =>
    if excluded (relStr rel) then some (⟨[], []⟩, ⟨[], []⟩) else some (⟨[rel], []⟩, ⟨[], []⟩)
  | .special => some (⟨[], []⟩, ⟨[], []⟩)
  | .dir readable children =>
    if excluded (relStr rel) then some (⟨[], []⟩, ⟨[], []⟩)
    else if readable then
      (walkChildren rel children).map fun p => (⟨[], [rel]⟩, p.1.append p.2)
    else none

/-- The directories of a level are popped off the stack in reverse. -/
def walkChildren (rel : List OsName) : Children → Option (Walk × Walk)
  | .nil => some (⟨[], []⟩, ⟨[], []⟩)
  | .cons name node rest => do
    let p ← walkNode (rel ++ [name.name]) node
    let q ← walkChildren rel rest
    some (p.1.append q.1, q.2.append p.2)

end

/-- The walk of `local_extras` over everything that is not excluded. -/
def walk : Node → Option Walk
  | .dir true children => (walkChildren excluded [] children).map fun p => p.1.append p.2
  | _ => none

mutual

theorem walkNode_named {rel : List OsName} {node : Node} {p : Walk × Walk}
    (hne : rel ≠ []) (hrel : ∀ n ∈ rel, n.isEntry) (h : walkNode excluded rel node = some p) :
    p.1.Named excluded ∧ p.2.Named excluded := by
  cases node with
  | file | symlink =>
    simp only [walkNode] at h
    split at h
    · cases h
      exact ⟨Walk.named_empty, Walk.named_empty⟩
    · rename_i hex
      cases h
      exact ⟨Walk.named_file hne hrel hex, Walk.named_empty⟩
  | special =>
    cases h
    exact ⟨Walk.named_empty, Walk.named_empty⟩
  | dir readable children =>
    simp only [walkNode] at h
    split at h
    · cases h
      exact ⟨Walk.named_empty, Walk.named_empty⟩
    rename_i hex
    split at h
    · obtain ⟨q, hq, rfl⟩ := Option.map_eq_some_iff.mp h
      have hc := walkChildren_named hrel hq
      exact ⟨Walk.named_dir hne hrel hex, hc.1.append hc.2⟩
    · cases h

theorem walkChildren_named {rel : List OsName} {children : Children} {p : Walk × Walk}
    (hrel : ∀ n ∈ rel, n.isEntry) (h : walkChildren excluded rel children = some p) :
    p.1.Named excluded ∧ p.2.Named excluded := by
  cases children with
  | nil =>
    cases h
    exact ⟨Walk.named_empty, Walk.named_empty⟩
  | cons name node rest =>
    simp only [walkChildren, Option.bind_eq_bind, Option.bind_eq_some_iff] at h
    obtain ⟨q, hq, q', hq', h⟩ := h
    cases h
    have hname : ∀ n ∈ rel ++ [name.name], n.isEntry := by
      intro n hn
      rcases List.mem_append.mp hn with hn | hn
      · exact hrel n hn
      · rw [List.mem_singleton.mp hn]
        exact name.valid
    have h1 := walkNode_named (by simp) hname hq
    have h2 := walkChildren_named hrel hq'
    exact ⟨h1.1.append h2.1, h2.2.append h1.2⟩

end

theorem walk_named {root : Node} {w : Walk} (h : walk excluded root = some w) :
    w.Named excluded := by
  cases root with
  | dir readable children =>
    cases readable with
    | false => cases h
    | true =>
      obtain ⟨p, hp, rfl⟩ := Option.map_eq_some_iff.mp h
      have hc := walkChildren_named excluded (by simp) hp
      exact hc.1.append hc.2
  | _ => cases h

end

/-- Deeper paths first; the sort is stable. -/
def deeper (p q : Path) : Prop := q.components ≤ p.components

instance : DecidableRel deeper := fun p q =>
  inferInstanceAs (Decidable (q.components ≤ p.components))

/-- What `local_extras` plans to delete: files and directories no listing names. -/
def localExtras (storage : Path) (remote : List Text) (w : Walk) : List Path × List Path :=
  let unlisted (rel : List OsName) : Bool := !decide (relStr rel ∈ remote)
  ((w.files.filter unlisted).map (Path.join storage),
    ((w.dirs.filter unlisted).map (Path.join storage)).insertionSort deeper)

end Synora.Mirror
