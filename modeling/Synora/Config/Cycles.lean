import Mathlib.Logic.Relation
import Synora.Config.Include

namespace Synora.Config
open Strings Mirror Storage

/-! # Includes that come back -/

section
variable {α S E : Type} {f g : α → S → Option (Except E S)} {as : List α} {s s' : S}

theorem each_cons_ok {a : α} : each f (a :: as) s = some (.ok s') ↔
    ∃ t, f a s = some (.ok t) ∧ each f as t = some (.ok s') := by
  rw [each]
  cases f a s with
  | none => simp
  | some r => cases r <;> simp

/-- What every call keeps, the loop keeps; and each of the calls has succeeded. -/
theorem each_ok {P : S → Prop} (hP : ∀ a ∈ as, ∀ s t, P s → f a s = some (.ok t) → P t)
    (hs : P s) (h : each f as s = some (.ok s')) :
    P s' ∧ ∀ a ∈ as, ∃ s₁ s₂, P s₁ ∧ f a s₁ = some (.ok s₂) := by
  induction as generalizing s with
  | nil =>
    obtain rfl : s = s' := by simpa [each] using h
    exact ⟨hs, List.forall_mem_nil _⟩
  | cons a as ih =>
    obtain ⟨t, ht, hrest⟩ := each_cons_ok.mp h
    obtain ⟨hs', hall⟩ := ih (fun b hb => hP b (List.mem_cons_of_mem _ hb))
      (hP a List.mem_cons_self s t hs ht) hrest
    exact ⟨hs', List.forall_mem_cons.mpr ⟨⟨s, t, hs, ht⟩, hall⟩⟩

/-- A loop comes to its end when its calls do, and then it is the same with any calls that agree. -/
theorem each_agrees (hfg : ∀ a ∈ as, ∀ s, ∃ r, f a s = some r ∧ g a s = some r) (s : S) :
    ∃ r, each f as s = some r ∧ each g as s = some r := by
  induction as generalizing s with
  | nil => exact ⟨_, rfl, rfl⟩
  | cons a as ih =>
    obtain ⟨r, hf, hg⟩ := hfg a List.mem_cons_self s
    unfold each
    rw [hf, hg]
    cases r with
    | error e => exact ⟨_, rfl, rfl⟩
    | ok t => exact ih (fun b hb => hfg b (List.mem_cons_of_mem _ hb)) t

end

/-! ## What a file includes -/

section
variable {host : Host} {path p q : Path} {depth fuel : ℕ} {s s' t : LoadState}
  {patterns : List Text}

/-- The document at `path` can be read, and these are its patterns. -/
def Reads (host : Host) (path : Path) (patterns : List Text) : Prop :=
  ∃ cached doc, readDocument host path (String.ofList (display path)) = .ok cached ∧
    extractInclude cached.doc (String.ofList (display path)) cached.includeLine =
      .ok (patterns, doc)

/-- A pattern of the file at `p` leads to `q`. -/
def Includes (host : Host) (p q : Path) : Prop :=
  ∃ patterns pattern files, Reads host p patterns ∧ pattern ∈ patterns ∧
    included host p pattern = .ok files ∧ q ∈ files

/-- The files counted are the files visited, and within the limits. -/
structure Tallied (s : LoadState) : Prop where
  files : s.files = s.visits.length
  bytes : s.bytes = (s.visits.map Visit.size).sum
  few : s.files ≤ maxConfigFiles
  small : s.bytes ≤ maxConfigBytes
  shallow : ∀ v ∈ s.visits, v.depth ≤ maxIncludeDepth

theorem start_tallied (connectionOnly : Bool) : Tallied (.start connectionOnly) :=
  ⟨rfl, rfl, Nat.zero_le _, Nat.zero_le _, List.forall_mem_nil _⟩

/-- What `enter` has checked and done where it comes to the includes. -/
theorem enter_ok (h : enter host path depth s = .ok (t, patterns)) :
    depth ≤ maxIncludeDepth ∧ ¬s.onStack path ∧ Reads host path patterns ∧
      t.stack = path :: s.stack ∧ (Tallied s → Tallied t) := by
  unfold enter at h
  dsimp only at h
  split_ifs at h with hdepth hstack hfiles
  cases hread : readDocument host path (String.ofList (display path)) with
  | error e =>
    rw [hread] at h
    cases h
  | ok cached =>
    rw [hread] at h
    dsimp only at h
    split_ifs at h with hraw hbytes
    cases hinclude : extractInclude cached.doc (String.ofList (display path))
        cached.includeLine with
    | error e =>
      rw [hinclude] at h
      cases h
    | ok found =>
      obtain ⟨patterns', doc⟩ := found
      rw [hinclude] at h
      dsimp only at h
      cases hjobs : takeJobs host s.connectionOnly doc (String.ofList (display path))
          cached.jobLines with
      | error e =>
        rw [hjobs] at h
        cases h
      | ok jobs =>
        rw [hjobs] at h
        cases h
        refine ⟨not_lt.mp hdepth, hstack, ⟨cached, doc, hread, hinclude⟩, rfl, fun hs => ?_⟩
        have hexact : saturatingAdd s.bytes (byteLen cached.expanded) =
            s.bytes + byteLen cached.expanded := by
          unfold saturatingAdd maxConfigBytes at *
          omega
        refine ⟨?_, hexact.trans ?_, by dsimp only; omega, not_lt.mp hbytes, ?_⟩
        · simp [hs.files]
        · simp [hs.bytes]
        · intro v hv
          obtain hv | hv := List.mem_append.mp hv
          · exact hs.shallow v hv
          · rw [List.mem_singleton.mp hv]
            exact not_lt.mp hdepth

theorem loadFile_ok (h : loadFile host (fuel + 1) path depth s = some (.ok s')) :
    ∃ t u patterns, enter host path depth s = .ok (t, patterns) ∧
      includeAll host path (fun f s => loadFile host fuel f (depth + 1) s) patterns t =
        some (.ok u) ∧
      s' = { u with stack :=
        u.stack.filter fun p => decide (componentsOf p ≠ componentsOf path) } := by
  rw [loadFile] at h
  cases henter : enter host path depth s with
  | error e =>
    rw [henter] at h
    cases h
  | ok entered =>
    obtain ⟨t, patterns⟩ := entered
    rw [henter] at h
    dsimp only at h
    cases hall : includeAll host path (fun f s => loadFile host fuel f (depth + 1) s) patterns t
      with
    | none =>
      rw [hall] at h
      cases h
    | some r =>
      rw [hall] at h
      cases r with
      | error e => cases h
      | ok u =>
        cases h
        exact ⟨t, u, patterns, rfl, hall, rfl⟩

/-- What the loads keep, the loop over the includes keeps; and every included file is loaded. -/
theorem includeAll_ok {P : LoadState → Prop}
    {load : Path → LoadState → Option (Except ConfigError LoadState)}
    (hP : ∀ q s t, P s → load q s = some (.ok t) → P t) (hs : P s)
    (h : includeAll host path load patterns s = some (.ok s')) :
    P s' ∧ ∀ pattern ∈ patterns, ∀ files, included host path pattern = .ok files →
      ∀ q ∈ files, ∃ s₁ s₂, P s₁ ∧ load q s₁ = some (.ok s₂) := by
  have hpattern : ∀ pattern ∈ patterns, ∀ s t, P s →
      includePattern host path load pattern s = some (.ok t) → P t := by
    intro pattern _ s t hs ht
    unfold includePattern at ht
    split at ht
    · cases ht
    · exact (each_ok (fun q _ => hP q) hs ht).1
  obtain ⟨hs', hall⟩ := each_ok hpattern hs h
  refine ⟨hs', fun pattern hmem files hfiles q hq => ?_⟩
  obtain ⟨s₁, s₂, hs₁, hrun⟩ := hall pattern hmem
  unfold includePattern at hrun
  rw [hfiles] at hrun
  exact (each_ok (fun q _ => hP q) hs₁ hrun).2 q hq

theorem Reads.unique {patterns' : List Text} (h : Reads host path patterns)
    (h' : Reads host path patterns') : patterns = patterns' := by
  obtain ⟨cached, doc, hread, hinclude⟩ := h
  obtain ⟨cached', doc', hread', hinclude'⟩ := h'
  cases hread.symm.trans hread'
  cases hinclude.symm.trans hinclude'
  rfl

/-- The files on the way are taken off the stack again. -/
theorem loadFile_stack (h : loadFile host fuel path depth s = some (.ok s')) :
    s'.stack = s.stack := by
  induction fuel generalizing path depth s s' with
  | zero => cases h
  | succ fuel ih =>
    obtain ⟨t, u, patterns, henter, hall, rfl⟩ := loadFile_ok h
    obtain ⟨-, hoff, -, hstack, -⟩ := enter_ok henter
    have hkept : u.stack = t.stack := (includeAll_ok (P := fun v => v.stack = t.stack)
      (fun q v w hv hw => (ih hw).trans hv) rfl hall).1
    have hoff' : ∀ p ∈ s.stack, componentsOf p ≠ componentsOf path :=
      fun p hp hsame => hoff ⟨p, hp, hsame⟩
    dsimp only
    rw [hkept, hstack, List.filter_cons_of_neg (by simp),
      List.filter_eq_self.mpr (by simpa using hoff')]

theorem loadFile_tallied (h : loadFile host fuel path depth s = some (.ok s'))
    (hs : Tallied s) : Tallied s' := by
  induction fuel generalizing path depth s s' with
  | zero => cases h
  | succ fuel ih =>
    obtain ⟨t, u, patterns, henter, hall, rfl⟩ := loadFile_ok h
    obtain ⟨-, -, -, -, htally⟩ := enter_ok henter
    have hu := (includeAll_ok (fun q v w hv hw => ih hw hv) (htally hs) hall).1
    exact ⟨hu.files, hu.bytes, hu.few, hu.small, hu.shallow⟩

/-- Below a file that was loaded, what it includes has been loaded with that file on the stack. -/
theorem loadFile_includes (h : loadFile host fuel p depth s = some (.ok s'))
    (hpq : Includes host p q) : ∃ fuel' s₁ s₂,
      loadFile host fuel' q (depth + 1) s₁ = some (.ok s₂) ∧ s₁.stack = p :: s.stack := by
  cases fuel with
  | zero => cases h
  | succ fuel =>
    obtain ⟨t, u, patterns, henter, hall, -⟩ := loadFile_ok h
    obtain ⟨-, -, hreads, hstack, -⟩ := enter_ok henter
    obtain ⟨patterns', pattern, files, hreads', hmem, hfiles, hq⟩ := hpq
    obtain rfl := hreads.unique hreads'
    obtain ⟨s₁, s₂, hs₁, hload⟩ := (includeAll_ok (P := fun v => v.stack = t.stack)
      (fun q v w hv hw => (loadFile_stack hw).trans hv) rfl hall).2 pattern hmem files hfiles q hq
    exact ⟨fuel, s₁, s₂, hload, hs₁.trans hstack⟩

theorem loadFile_entered (h : loadFile host fuel p depth s = some (.ok s')) :
    depth ≤ maxIncludeDepth ∧ ¬s.onStack p := by
  cases fuel with
  | zero => cases h
  | succ fuel =>
    obtain ⟨t, u, patterns, henter, -⟩ := loadFile_ok h
    obtain ⟨hdepth, hoff, -⟩ := enter_ok henter
    exact ⟨hdepth, hoff⟩

/-- Everything below a file that was loaded has been loaded, below the same stack. -/
theorem loadFile_reaches (h : loadFile host fuel p depth s = some (.ok s'))
    (hpq : Relation.ReflTransGen (Includes host) p q) : ∃ fuel' depth' s₁ s₂,
      loadFile host fuel' q depth' s₁ = some (.ok s₂) ∧ ∀ x ∈ s.stack, x ∈ s₁.stack := by
  induction hpq using Relation.ReflTransGen.head_induction_on generalizing fuel depth s s' with
  | refl => exact ⟨fuel, depth, s, s', h, fun _ hx => hx⟩
  | head hpx _ ih =>
    obtain ⟨fuel', s₁, s₂, hload, hstack⟩ := loadFile_includes h hpx
    obtain ⟨fuel'', depth'', s₃, s₄, hload', hkept⟩ := ih hload
    exact ⟨fuel'', depth'', s₃, s₄, hload', fun x hx =>
      hkept x (hstack ▸ List.mem_cons_of_mem _ hx)⟩

/-- No path comes back below itself in a load that succeeds. -/
theorem loadFile_acyclic (h : loadFile host fuel p depth s = some (.ok s'))
    (hpq : Relation.TransGen (Includes host) p q) : componentsOf p ≠ componentsOf q := by
  intro hsame
  obtain ⟨x, hpx, hxq⟩ := Relation.TransGen.head'_iff.mp hpq
  obtain ⟨fuel', s₁, s₂, hload, hstack⟩ := loadFile_includes h hpx
  obtain ⟨_, _, s₃, _, hload', hkept⟩ := loadFile_reaches hload hxq
  exact (loadFile_entered hload').2 ⟨p, hkept p (hstack ▸ List.mem_cons_self), hsame⟩

/-- Files that include one another without end are not loaded. -/
theorem loadFile_not_endless {C : Path → Prop}
    (hC : ∀ x, C x → ∃ y, C y ∧ Includes host x y)
    (h : loadFile host fuel p depth s = some (.ok s')) : ¬C p := by
  -- every include brings the load one step closer to the nesting limit
  induction hleft : maxIncludeDepth - depth generalizing fuel p depth s s' with
  | zero =>
    intro hp
    obtain ⟨y, hy, hpy⟩ := hC p hp
    obtain ⟨_, _, _, hload, -⟩ := loadFile_includes h hpy
    have hdepth := (loadFile_entered hload).1
    omega
  | succ n ih =>
    intro hp
    obtain ⟨y, hy, hpy⟩ := hC p hp
    obtain ⟨_, _, _, hload, -⟩ := loadFile_includes h hpy
    exact ih hload (by omega) hy

/-- Enough fuel for the nesting limit brings every load to its end. -/
theorem loadFile_ends (host : Host) (fuel depth : ℕ) (hfuel : 0 < fuel)
    (hdepth : maxIncludeDepth + 2 ≤ fuel + depth) (path : Path) (s : LoadState) :
    ∃ r, loadFile host fuel path depth s = some r ∧
      loadFile host (fuel + 1) path depth s = some r := by
  induction fuel generalizing path depth s with
  | zero => cases hfuel
  | succ fuel ih =>
    rw [loadFile, loadFile]
    cases henter : enter host path depth s with
    | error e => exact ⟨_, rfl, rfl⟩
    | ok entered =>
      obtain ⟨t, patterns⟩ := entered
      obtain ⟨hlimit, -⟩ := enter_ok henter
      have hnext : ∀ q s, ∃ r, loadFile host fuel q (depth + 1) s = some r ∧
          loadFile host (fuel + 1) q (depth + 1) s = some r :=
        fun q s => ih (depth + 1) (by omega) (by omega) q s
      have hpattern : ∀ pattern ∈ patterns, ∀ s, ∃ r,
          includePattern host path (fun f s => loadFile host fuel f (depth + 1) s) pattern s =
            some r ∧
          includePattern host path (fun f s => loadFile host (fuel + 1) f (depth + 1) s) pattern s =
            some r := by
        intro pattern _ s
        unfold includePattern
        cases included host path pattern with
        | error e => exact ⟨_, rfl, rfl⟩
        | ok files => exact each_agrees (fun q _ s => hnext q s) s
      obtain ⟨r, hr, hr'⟩ := each_agrees hpattern t
      dsimp only
      unfold includeAll
      rw [hr, hr']
      cases r <;> exact ⟨_, rfl, rfl⟩

end

/-! ## Cycles -/

/-- Below `main`, some file comes back below itself, by what `identity` tells of a path. -/
def ComesBack {F : Type} (host : Host) (identity : Path → F) (main : Path) : Prop :=
  ∃ p q, Relation.ReflTransGen (Includes host) main p ∧ Relation.TransGen (Includes host) p q ∧
    identity q = identity p

/-- A file includes the same files under all the paths by which it is reached. -/
def Steady {F : Type} (host : Host) (identity : Path → F) (main : Path) : Prop :=
  ∀ p p', Relation.ReflTransGen (Includes host) main p →
    Relation.ReflTransGen (Includes host) main p' → identity p = identity p' →
    ∀ q, Includes host p q → ∃ q', Includes host p' q' ∧ identity q' = identity q

/-- Some chain of includes goes on for ever. -/
def Endless (host : Host) (main : Path) : Prop :=
  ∃ chain : ℕ → Path, chain 0 = main ∧ ∀ n, Includes host (chain n) (chain (n + 1))

section
variable {F : Type} {host : Host} {identity : Path → F} {main : Path} {fuel : ℕ}
  {s s' : LoadState}

theorem loadFile_ne_endless (h : loadFile host fuel main 0 s = some (.ok s')) :
    ¬Endless host main := by
  rintro ⟨chain, rfl, hchain⟩
  refine loadFile_not_endless (C := fun x => ∃ n, chain n = x) ?_ h ⟨0, rfl⟩
  rintro _ ⟨n, rfl⟩
  exact ⟨chain (n + 1), ⟨n + 1, rfl⟩, hchain n⟩

/-- A steady file that comes back goes round for ever. -/
theorem loadFile_ne_steady (hsteady : Steady host identity main)
    (h : loadFile host fuel main 0 s = some (.ok s')) : ¬ComesBack host identity main := by
  rintro ⟨p, q, hp, hpq, hsame⟩
  obtain ⟨_, _, _, _, hload, -⟩ := loadFile_reaches h hp
  -- the files that look like one on the way round
  refine loadFile_not_endless (C := fun x => Relation.ReflTransGen (Includes host) main x ∧
    ∃ c, Relation.ReflTransGen (Includes host) p c ∧ Relation.TransGen (Includes host) c q ∧
      identity c = identity x) ?_ hload ⟨hp, p, .refl, hpq, rfl⟩
  rintro x ⟨hx, c, hc, hcq, hcx⟩
  obtain ⟨d, hcd, hdq⟩ := Relation.TransGen.head'_iff.mp hcq
  obtain ⟨y, hxy, hyd⟩ := hsteady c x (hp.trans hc) hx hcx d hcd
  refine ⟨y, ⟨hx.tail hxy, ?_⟩, hxy⟩
  obtain rfl | hdq := Relation.reflTransGen_iff_eq_or_transGen.mp hdq
  · exact ⟨p, .refl, hpq, hsame.symm.trans hyd.symm⟩
  · exact ⟨d, hc.tail hcd, hdq, hyd.symm⟩

end

/-- Every load comes to its end. It is an error where a path comes back below itself, where includes
go on without end, and where a file comes back by other paths, by which it includes the same files;
and a load that succeeds has stayed within all limits. -/
theorem include_loading_stops (host : Host) (main : Path) (connectionOnly : Bool) :
    ∃ r, (∀ fuel, maxIncludeDepth + 2 ≤ fuel →
        loadFile host fuel main 0 (.start connectionOnly) = some r) ∧
      (ComesBack host componentsOf main ∨ Endless host main ∨
        (∃ (F : Type) (identity : Path → F),
          Steady host identity main ∧ ComesBack host identity main) → ∃ e, r = .error e) ∧
      ∀ s, r = .ok s → s.visits.length ≤ maxConfigFiles ∧
        (∀ v ∈ s.visits, v.depth ≤ maxIncludeDepth) ∧
        (s.visits.map Visit.size).sum ≤ maxConfigBytes := by
  obtain ⟨r, hr, -⟩ := loadFile_ends host (maxIncludeDepth + 2) 0 (Nat.succ_pos _) le_rfl main
    (.start connectionOnly)
  refine ⟨r, fun fuel hfuel => ?_, fun hcycle => ?_, ?_⟩
  · induction fuel, hfuel using Nat.le_induction with
    | base => exact hr
    | succ fuel hfuel ih =>
      obtain ⟨r', hr', hnext⟩ := loadFile_ends host fuel 0 (by omega) hfuel main
        (.start connectionOnly)
      rw [hnext, ← hr', ih]
  · cases r with
    | error e => exact ⟨e, rfl⟩
    | ok s =>
      exfalso
      obtain ⟨p, q, hp, hpq, hsame⟩ | hendless | ⟨F, identity, hsteady, hback⟩ := hcycle
      · obtain ⟨_, _, _, _, hload, -⟩ := loadFile_reaches hr hp
        exact loadFile_acyclic hload hpq hsame.symm
      · exact loadFile_ne_endless hr hendless
      · exact loadFile_ne_steady hsteady hr hback
  · rintro s rfl
    have hs := loadFile_tallied hr (start_tallied connectionOnly)
    exact ⟨hs.files ▸ hs.few, hs.shallow, hs.bytes ▸ hs.small⟩

/-! ### A link into another directory -/

def mainToml : Path := Path.ofText "/etc/main.toml".toList

def linkToml : Path := Path.ofText "/etc/sub/link.toml".toList

def innerToml : Path := Path.ofText "/etc/sub/sub/link.toml".toList

/-- `/etc/sub/link.toml` is a link to `/etc/main.toml`, which includes `sub/link.toml`;
`/etc/sub/sub/link.toml` is an empty file. -/
def linked : Host where
  env _ := none
  read p :=
    if p = mainToml ∨ p = linkToml then some "include = [\"sub/link.toml\"]".toList
    else if p = innerToml then some [] else none
  present p := decide (p = mainToml ∨ p = linkToml ∨ p = innerToml)
  canonicalize p :=
    if p = mainToml ∨ p = linkToml then some mainToml
    else if p = innerToml then some innerToml else none
  glob _ := .ok []
  parse t :=
    if t = [] then .ok ⟨[], [], none, none⟩
    else .ok ⟨[("include".toList, .value (.array [.string "sub/link.toml".toList]))], [], none,
      some 1⟩
  jobOfTable _ := .error []
  jobOfDocument _ := .error []
  root _ := .error []

/-- The main file includes itself, through the link, and is loaded. -/
theorem linked_cycle_loaded : ComesBack linked linked.canonicalize mainToml ∧
    ∃ s, loadFile linked (maxIncludeDepth + 2) mainToml 0 (.start false) = some (.ok s) := by
  have hincludes : Includes linked mainToml linkToml :=
    ⟨["sub/link.toml".toList], "sub/link.toml".toList, [linkToml], ⟨_, _, rfl, rfl⟩,
      List.mem_singleton_self _, rfl, List.mem_singleton_self _⟩
  exact ⟨⟨mainToml, linkToml, .refl, .single hincludes, rfl⟩, _, rfl⟩

end Synora.Config
