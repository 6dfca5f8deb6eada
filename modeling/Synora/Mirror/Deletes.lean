import Synora.Mirror.Contained

namespace Synora.Mirror
open Strings Utf8

/-- Where the planner puts an entry. -/
def destOf (env : Env) (w : DirectoryWork) (e : Entry) : Path :=
  env.storage.join (Path.ofText (relOf w e))

/-- A consumed listing names the file or the symlink `e`. -/
def Names (env : Env) (c : Crawl) (w : DirectoryWork) (e : Entry) : Prop :=
  ∃ l ∈ c.consumed, l.work = w ∧ ∃ es, l.entries env = .ok es ∧ e ∈ es ∧ e.kind ≠ .dir

/-- No planned deletion is a place that a consumed listing names. -/
def KeepsListed (env : Env) (c : Crawl) (plan : Plan) : Prop :=
  ∀ w e, Names env c w e → ∀ d ∈ plan.deletes, ¬d.Same (destOf env w e)

/-- The entry is spelled the way the walk spells it: safe, and without empty or `.` segments. -/
def Plain (w : DirectoryWork) (e : Entry) : Prop :=
  isSafeRel e.path ∧ ∀ s ∈ segments (keyOf w e), s ≠ [] ∧ s ≠ ".".toList

/-- The files and symlinks of the storage that the walk reaches. -/
def localFiles (env : Env) : List (List OsName) :=
  ((walk (isExcluded env.ext env.excludes) env.root).map Walk.files).getD []

/-- Every named entry is spelled plainly, or each local file it names is listed plainly too. -/
def PlainlyListed (env : Env) (c : Crawl) : Prop :=
  ∀ w e, Names env c w e → Plain w e ∨
    ∀ f ∈ localFiles env, (env.storage.join f).Same (destOf env w e) →
      relStr f ∈ listedKeys env (c.items env)

theorem relStr_map_text (ts : List Text) : relStr (ts.map .text) = unsegments ts := by
  have hmap : (ts.map OsName.text).mapM OsName.toStr = some ts := by
    induction ts with
    | nil => rfl
    | cons t ts ih =>
      rw [List.map_cons, List.mapM_cons, ih]
      rfl
  rw [relStr, hmap]
  rfl

theorem relStr_ofText (t : Text) : relStr (Path.ofText t) = t := by
  rw [Path.ofText, relStr_map_text, unsegments_segments]

theorem isAbsolute_of_entries {f : List OsName} (h : ∀ n ∈ f, n.isEntry) :
    Path.isAbsolute f = false := by
  cases f with
  | nil => rfl
  | cons n ns =>
    have hn := h n List.mem_cons_self
    cases n with
    | other bytes => rfl
    | text t =>
      cases t with
      | nil => cases hn
      | cons c cs => rfl

theorem normal_of_entries {f : List OsName} (h : ∀ n ∈ f, n.isEntry) : Path.normal f = f := by
  rw [Path.normal, List.filter_eq_self]
  intro n hn
  have he := h n hn
  cases n with
  | other bytes => rfl
  | text t =>
    simp only [OsName.isEntry, Bool.not_eq_true', decide_eq_false_iff_not, not_or] at he
    simpa [OsName.isNormal, he.1] using he.2.1

theorem replicate_empty_normal (k : ℕ) :
    Path.normal ((List.replicate k ([] : Text)).map .text) = [] := by
  rw [Path.normal, List.filter_eq_nil_iff]
  intro n hn
  simp only [List.map_replicate, List.mem_replicate] at hn
  rw [hn.2]
  decide

/-- On disk a plain entry is its key, segment by segment. -/
theorem Plain.dest {w : DirectoryWork} {e : Entry} (h : Plain w e) :
    Path.isAbsolute (Path.ofText (relOf w e)) = false ∧
      Path.normal (Path.ofText (relOf w e)) = Path.ofText (keyOf w e) := by
  obtain ⟨k, hk⟩ := segments_trimEnd (relOf w e)
  obtain ⟨s, ss, hs⟩ := List.exists_cons_of_ne_nil (segments_ne_nil (keyOf w e))
  have hseg : segments (relOf w e) = segments (keyOf w e) ++ List.replicate k [] := hk
  constructor
  · rw [Path.ofText, hseg, hs]
    obtain ⟨hne, -⟩ := h.2 s (by rw [hs]; exact List.mem_cons_self)
    obtain ⟨c, cs, rfl⟩ := List.exists_cons_of_ne_nil hne
    rfl
  · rw [Path.ofText, hseg, List.map_append, Path.normal_append, replicate_empty_normal,
      List.append_nil]
    refine List.filter_eq_self.mpr fun n hn => ?_
    obtain ⟨t, ht, rfl⟩ := List.mem_map.mp hn
    obtain ⟨hne, hdot⟩ := h.2 t ht
    simpa [OsName.isNormal, hne] using hdot

/-- A local file that a plain entry names is listed under its own name. -/
theorem Plain.listed {env : Env} {c : Crawl} {w : DirectoryWork} {e : Entry} (h : Plain w e)
    (hn : Names env c w e) {v : Walk}
    (hw : walk (isExcluded env.ext env.excludes) env.root = some v) {f : List OsName}
    (hf : f ∈ v.files) (hs : (env.storage.join f).Same (destOf env w e)) :
    relStr f ∈ listedKeys env (c.items env) := by
  obtain ⟨-, hentry, hex⟩ := walk_named _ hw f (List.mem_append_left _ hf)
  obtain ⟨habs, hnorm⟩ := h.dest
  have hsame := Path.join_normal_inj env.storage (isAbsolute_of_entries hentry) habs hs.2
  rw [normal_of_entries hentry, hnorm] at hsame
  have hkey : relStr f = keyOf w e := by rw [hsame, relStr_ofText]
  obtain ⟨l, hl, rfl, es, hes, he, -⟩ := hn
  rw [hkey] at hex ⊢
  rw [listedKeys, List.mem_filterMap]
  refine ⟨.entry l.work e, ?_, if_pos ⟨h.1, by simpa using hex⟩⟩
  rw [Crawl.items, List.mem_flatMap]
  refine ⟨l, hl, ?_⟩
  rw [Listing.items, hes]
  exact List.mem_append_right _ (List.mem_map_of_mem he)

/-- What a planning run that deletes ends with: the crawl was cut short and nothing is deleted,
or every local file without a listed key is. -/
theorem deletes_cases {env : Env} {baseUrl : Text} {depth : ℕ} {events : List Event} {c : Crawl}
    {plan : Plan} (hd : env.delete = true)
    (h : planInner env baseUrl depth events = some (.ok (c, plan))) :
    (CutShort env (c.items env) ∧ plan.deletes = [] ∧ plan.deleteDirs = []) ∨
    (¬CutShort env (c.items env) ∧ c.listingFailed = false ∧ ∃ v,
      walk (isExcluded env.ext env.excludes) env.root = some v ∧
      (∀ k, k ∈ c.remote ↔ k ∈ listedKeys env (c.items env)) ∧
      plan.deletes = (localExtras env.storage c.remote v).1 ∧
      plan.deleteDirs = (localExtras env.storage c.remote v).2) := by
  obtain ⟨hrun, hfin⟩ := planInner_run h
  have hsound := run_sound (start_tracks env baseUrl depth) hrun
  obtain ⟨hdel, hdirs⟩ := run_deletes hrun
  obtain ⟨-, -, -, -, ⟨h1, h2, h3⟩ | ⟨v, hv, -, hinc, hfail, h1, h2⟩⟩ := finish_eq hfin
  · -- `plan.incomplete` was set, and not by a failed listing: that is an error with `delete`.
    left
    refine ⟨?_, h1.trans hdel, h2.trans hdirs⟩
    obtain ⟨hinc, hfail⟩ := h3 hd
    rcases hsound with ⟨-, ht⟩ | ⟨-, -, hcap⟩
    · rcases ht.incomplete.mp hinc with hf | hcut
      · rw [hfail] at hf
        cases hf
      · exact Or.inr hcut
    · exact Or.inl hcap
  · right
    rcases hsound with ⟨-, ht⟩ | ⟨-, hinc', -⟩
    · refine ⟨?_, hfail, v, hv, ht.remote, h1, h2⟩
      rintro (hcap | hcut)
      · exact ht.uncapped hcap
      · rw [ht.incomplete.mpr (Or.inr hcut)] at hinc
        cases hinc
    · rw [hinc'] at hinc
      cases hinc

theorem mem_localExtras {storage : Path} {remote : List Text} {v : Walk} {d : Path} :
    d ∈ (localExtras storage remote v).1 ↔
      ∃ f ∈ v.files, relStr f ∉ remote ∧ storage.join f = d := by
  simp [localExtras, List.mem_map, List.mem_filter, and_assoc]

/-- The planner keeps what upstream lists exactly when it deletes nothing, because the crawl was
cut short, or everything is listed under plain names. -/
theorem keepsListed_iff (env : Env) (baseUrl : Text) (depth : ℕ) (events : List Event) (c : Crawl)
    (plan : Plan) (hd : env.delete = true)
    (h : planInner env baseUrl depth events = some (.ok (c, plan))) :
    KeepsListed env c plan ↔ CutShort env (c.items env) ∨ PlainlyListed env c := by
  obtain ⟨hcut, hnone, -⟩ | ⟨hcut, -, v, hv, hremote, hdel, -⟩ := deletes_cases hd h
  · refine ⟨fun _ => Or.inl hcut, fun _ w e _ d hmem => ?_⟩
    rw [hnone] at hmem
    cases hmem
  · have hlocal : localFiles env = v.files := by rw [localFiles, hv]; rfl
    rw [or_iff_right hcut]
    constructor
    · -- A local file that the entry names and no listing spells out would be deleted.
      intro hk w e hn
      right
      intro f hf hs
      by_contra hunlisted
      refine hk w e hn (env.storage.join f) ?_ hs
      rw [hdel, mem_localExtras]
      exact ⟨f, hlocal ▸ hf, fun hr => hunlisted ((hremote _).mp hr), rfl⟩
    · intro hp w e hn d hmem hs
      rw [hdel, mem_localExtras] at hmem
      obtain ⟨f, hf, hunlisted, rfl⟩ := hmem
      apply hunlisted
      rw [hremote]
      rcases hp w e hn with hplain | hlisted
      · exact hplain.listed hn hv hf hs
      · exact hlisted f (hlocal ▸ hf) hs

/-- A page that lists two files under their plain names. -/
def plainPage : Bytes := encode "<a href=\"x\">x</a><a href=\"y\">y</a>".toList

theorem keepsListed_iff_plainPage :
    ∃ c plan, planInner (mirrorEnv .nginx (oneFile "x".toList rfl)) "http://m/".toList 3
        [.joined 0 (.fetched plainPage)] = some (.ok (c, plan)) ∧
      (KeepsListed (mirrorEnv .nginx (oneFile "x".toList rfl)) c plan ↔
        CutShort (mirrorEnv .nginx (oneFile "x".toList rfl))
            (c.items (mirrorEnv .nginx (oneFile "x".toList rfl))) ∨
          PlainlyListed (mirrorEnv .nginx (oneFile "x".toList rfl)) c) := by
  have heval : (planned (mirrorEnv .nginx (oneFile "x".toList rfl)) "http://m/".toList 3
      [.joined 0 (.fetched plainPage)]).isSome := by decide +kernel
  obtain ⟨⟨c, plan⟩, hp⟩ := Option.isSome_iff_exists.mp heval
  have h := planInner_of_planned hp
  exact ⟨c, plan, h, keepsListed_iff _ _ _ _ c plan rfl h⟩

/-- A page that lists a file as `./x`. -/
def dottedPage : Bytes := encode "<a href=\"./x\">x</a>".toList

/-- The key of `./x` is not the name `x` that the walk finds, so the listed file is deleted. -/
theorem listed_file_deleted :
    ¬∀ (env : Env) (baseUrl : Text) (depth : ℕ) (events : List Event) (c : Crawl) (plan : Plan),
      env.delete = true → planInner env baseUrl depth events = some (.ok (c, plan)) →
        KeepsListed env c plan := by
  intro hall
  let env := mirrorEnv .nginx (oneFile "x".toList rfl)
  let work : DirectoryWork := ⟨"http://m/".toList, [], 3, true⟩
  let entry : Entry := ⟨"./x".toList, none, none, .file, none⟩
  have heval : (planned env "http://m/".toList 3 [.joined 0 (.fetched dottedPage)]).map
      (fun p => (p.1.consumed, p.2.deletes)) =
      some ([⟨work, dottedPage⟩], [Path.ofText "/srv/x".toList]) := by decide +kernel
  obtain ⟨⟨c, plan⟩, hp, hpair⟩ := Option.map_eq_some_iff.mp heval
  obtain ⟨hcons, hdel⟩ := Prod.mk.inj hpair
  have hlisted : Listing.entries env ⟨work, dottedPage⟩ = .ok [entry] := by decide +kernel
  have hnames : Names env c work entry :=
    ⟨⟨work, dottedPage⟩, by rw [hcons]; exact List.mem_singleton_self _, rfl, [entry], hlisted,
      List.mem_singleton_self _, by decide⟩
  refine hall env _ _ _ c plan rfl (planInner_of_planned hp) work entry hnames
    (Path.ofText "/srv/x".toList) ?_ (by decide +kernel)
  rw [hdel]
  exact List.mem_singleton_self _

end Synora.Mirror
