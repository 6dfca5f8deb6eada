import Synora.Config.Include

namespace Synora.Config
open Strings Mirror Storage

/-! # The documents that are kept -/

/-- The environment and the files as one read finds them; a file that can be read has metadata. -/
structure Moment (σ : Type) where
  env : Text → Option Text
  stamp : Path → Option σ
  read : Path → Option Text
  readable : ∀ p, (read p).isSome → (stamp p).isSome

/-- What a read finds, with the TOML crates. -/
def Moment.host {σ : Type} (m : Moment σ) (crates : Host) : Host :=
  { crates with env := m.env, read := m.read }

/-- An entry of `document_cache`; the key is a path, as paths are compared. -/
structure CacheEntry (σ : Type) where
  key : List Component
  stamp : σ
  document : CachedDocument

def CacheEntry.bytes {σ : Type} (e : CacheEntry σ) : ℕ :=
  byteLen e.document.raw + byteLen e.document.expanded

abbrev DocumentCache (σ : Type) := List (CacheEntry σ)

namespace DocumentCache
variable {σ : Type}

def bytes (cache : DocumentCache σ) : ℕ := (cache.map CacheEntry.bytes).sum

/-- `cache.insert`, after `cache.clear` where the limits are reached. -/
def store (cache : DocumentCache σ) (e : CacheEntry σ) : DocumentCache σ :=
  let kept := if maxConfigFiles ≤ cache.length ∨ maxConfigBytes * 2 < cache.bytes + e.bytes then []
    else cache
  kept.filter (fun e' => decide (e'.key ≠ e.key)) ++ [e]

variable [DecidableEq σ] (crates : Host)

/-- `read_document`, with the cache it leaves behind. -/
def read (m : Moment σ) (path : Path) (file : String) (cache : DocumentCache σ) :
    Except ConfigError CachedDocument × DocumentCache σ :=
  match m.stamp path with
  | none => (.error ⟨file, 0, "cannot read config file"⟩, cache)
  | some stamp =>
    let cached := (Table.lookup CacheEntry.key (componentsOf path) cache).filter
      fun e => decide (e.stamp = stamp)
    match m.read path with
    | none => (.error ⟨file, 0, "cannot read config file"⟩, cache)
    | some raw =>
      if maxConfigBytes < byteLen raw then
        (.error ⟨file, 0, "configuration exceeds 16 MiB"⟩, cache)
      else match expandEnv m.env file raw with
        | .error e => (.error e, cache)
        | .ok expanded =>
          match cached.filter
              fun e => decide (raw = e.document.raw ∧ expanded = e.document.expanded) with
          | some e => (.ok e.document, cache)
          | none =>
            match crates.parse expanded with
            | .error line => (.error ⟨file, line,
                "TOML syntax error (source omitted to protect secrets)"⟩, cache)
            | .ok p =>
              let document : CachedDocument :=
                ⟨raw, expanded, p.doc, jobLineNumbers p, p.includeSpan.getD 0⟩
              (.ok document, cache.store ⟨componentsOf path, stamp, document⟩)

/-- What one read after another comes back with. -/
def readAll : List (Moment σ × Path × String) → DocumentCache σ →
    List (Except ConfigError CachedDocument) × DocumentCache σ
  | [], cache => ([], cache)
  | (m, path, file) :: reads, cache =>
    let (r, cache) := cache.read crates m path file
    let (rs, cache) := readAll reads cache
    (r :: rs, cache)

end DocumentCache

/-! ## Reading through the cache -/

/-- The document that is parsed from its expanded text. -/
def CachedDocument.Parsed (crates : Host) (d : CachedDocument) : Prop :=
  ∃ p, crates.parse d.expanded = .ok p ∧
    d = ⟨d.raw, d.expanded, p.doc, jobLineNumbers p, p.includeSpan.getD 0⟩

/-- Every entry has been parsed from its text, and the limits are kept, but for a single document. -/
structure DocumentCache.Sound {σ : Type} (crates : Host) (cache : DocumentCache σ) : Prop where
  parsed : ∀ e ∈ cache, e.document.Parsed crates
  few : cache.length ≤ maxConfigFiles
  small : cache.bytes ≤ maxConfigBytes * 2 ∨ cache.length ≤ 1

section
variable {σ : Type} {crates : Host} {cache : DocumentCache σ} {e : CacheEntry σ}

theorem bytes_filter_le (p : CacheEntry σ → Bool) (cache : DocumentCache σ) :
    DocumentCache.bytes (cache.filter p) ≤ cache.bytes := by
  induction cache with
  | nil => exact le_rfl
  | cons e cache ih =>
    have hcons : DocumentCache.bytes (e :: cache) = e.bytes + DocumentCache.bytes cache := by
      simp [DocumentCache.bytes]
    rw [List.filter_cons, hcons]
    split
    · simp only [DocumentCache.bytes, List.map_cons, List.sum_cons] at ih ⊢
      exact Nat.add_le_add_left ih _
    · exact ih.trans (Nat.le_add_left _ _)

theorem store_sound (h : cache.Sound crates) (he : e.document.Parsed crates) :
    (cache.store e).Sound crates := by
  unfold DocumentCache.store
  dsimp only
  split_ifs with hfull
  · exact ⟨by simpa using he, by simp [maxConfigFiles], .inr (by simp)⟩
  · obtain ⟨hlen, hbytes⟩ := not_or.mp hfull
    have hfilter := (List.filter_sublist (l := cache)
      (p := fun e' => decide (e'.key ≠ e.key))).length_le
    have hsum := bytes_filter_le (fun e' => decide (e'.key ≠ e.key)) cache
    refine ⟨fun e' he' => ?_, ?_, .inl ?_⟩
    · obtain he' | he' := List.mem_append.mp he'
      · exact h.parsed e' (List.mem_filter.mp he').1
      · rw [List.mem_singleton.mp he']
        exact he
    · rw [List.length_append, List.length_singleton]
      omega
    · unfold DocumentCache.bytes at hsum ⊢
      rw [List.map_append, List.sum_append, List.map_singleton, List.sum_singleton]
      unfold DocumentCache.bytes at hbytes
      omega

variable [DecidableEq σ]

/-- A read through the cache is a read of the file. -/
theorem read_cached (h : cache.Sound crates) (m : Moment σ) (path : Path) (file : String) :
    (cache.read crates m path file).1 = readDocument (m.host crates) path file ∧
      (cache.read crates m path file).2.Sound crates := by
  unfold DocumentCache.read readDocument
  dsimp only [Moment.host]
  cases hstamp : m.stamp path with
  | none =>
    have hread : m.read path = none := by
      by_contra hsome
      have := m.readable path (Option.isSome_iff_ne_none.mpr hsome)
      simp [hstamp] at this
    rw [hread]
    exact ⟨rfl, h⟩
  | some stamp =>
    dsimp only
    cases hread : m.read path with
    | none => exact ⟨rfl, h⟩
    | some raw =>
      dsimp only
      split_ifs with hlarge
      · exact ⟨rfl, h⟩
      · cases hexpand : expandEnv m.env file raw with
        | error e => exact ⟨rfl, h⟩
        | ok expanded =>
          dsimp only
          split
          · rename_i e hfound
            obtain ⟨hcached, heq⟩ := Option.filter_eq_some_iff.mp hfound
            obtain ⟨hraw, hexp⟩ := of_decide_eq_true heq
            obtain ⟨hmem, -⟩ := Table.lookup_eq_some_mem (Option.filter_eq_some_iff.mp hcached).1
            obtain ⟨p, hp, hdoc⟩ := h.parsed e hmem
            rw [← hexp] at hp
            rw [hp]
            refine ⟨?_, h⟩
            dsimp only
            rw [hraw, hexp, ← hdoc]
          · cases hparse : crates.parse expanded with
            | error line => exact ⟨rfl, h⟩
            | ok p => exact ⟨rfl, store_sound h ⟨p, hparse, rfl⟩⟩

end

/-- However the files and the environment change between them, the reads through the cache come back
with what is read and parsed without it; and the cache stays within 1024 documents and 32 MiB, a
single document apart. -/
theorem cached_reads_agree {σ : Type} [DecidableEq σ] (crates : Host)
    (reads : List (Moment σ × Path × String)) :
    (DocumentCache.readAll crates reads []).1 =
        reads.map (fun r => readDocument (r.1.host crates) r.2.1 r.2.2) ∧
      (DocumentCache.readAll crates reads []).2.length ≤ maxConfigFiles ∧
      ((DocumentCache.readAll crates reads []).2.bytes ≤ maxConfigBytes * 2 ∨
        (DocumentCache.readAll crates reads []).2.length ≤ 1) := by
  have hall : ∀ cache : DocumentCache σ, cache.Sound crates →
      (DocumentCache.readAll crates reads cache).1 =
          reads.map (fun r => readDocument (r.1.host crates) r.2.1 r.2.2) ∧
        (DocumentCache.readAll crates reads cache).2.Sound crates := by
    induction reads with
    | nil => exact fun cache h => ⟨rfl, h⟩
    | cons r reads ih =>
      intro cache h
      obtain ⟨hone, hsound⟩ := read_cached h r.1 r.2.1 r.2.2
      obtain ⟨hrest, hfinal⟩ := ih _ hsound
      refine ⟨?_, hfinal⟩
      rw [List.map_cons, ← hone, ← hrest]
      rfl
  obtain ⟨hresults, hsound⟩ := hall [] ⟨List.forall_mem_nil _, Nat.zero_le _, .inr (by simp)⟩
  exact ⟨hresults, hsound.few, hsound.small⟩

end Synora.Config
