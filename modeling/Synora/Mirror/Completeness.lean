import Synora.Mirror.Deletes

namespace Synora.Mirror
open Strings Utf8

/-! ## Complete listings -/

/-- The parser that reads the listing; RPM manifests are not handed to one. -/
def Listing.parser (env : Env) (l : Listing) : Option IndexParser :=
  if l.work.isManifest then none else some env.parser

/-- A page of an S3 bucket that says that there are more. -/
def Listing.truncated (env : Env) (l : Listing) : Prop :=
  l.parser env = some .s3 ∧
    contains (fromUtf8Lossy l.body) "<IsTruncated>true</IsTruncated>".toList

/-- An HTML page that ends inside an anchor. -/
def Listing.cutOff (env : Env) (l : Listing) : Prop :=
  (l.parser env = some .nginx ∨ l.parser env = some .apache ∨
    l.parser env = some .directoryListing) ∧ (scanPage l.body).2 = true

/-- A listing with an entry that the planner discards as unsafe. -/
def Listing.discards (env : Env) (l : Listing) : Prop :=
  ∃ es, l.entries env = .ok es ∧ ∃ e ∈ es, ¬isSafeRel e.path

structure Listing.Whole (env : Env) (l : Listing) : Prop where
  untruncated : ¬l.truncated env
  closed : ¬l.cutOff env
  safe : ¬l.discards env

/-- Everything upstream has was listed, followed and kept. -/
structure CompleteCrawl (env : Env) (events : List Event) (c : Crawl) : Prop where
  whole : ∀ l ∈ c.consumed, l.Whole env
  uncapped : ¬CapHit env (c.items env)
  followed : ¬DepthCut env (c.items env)
  fetched : ∀ event ∈ events, ∃ task body, event = .joined task (.fetched body)

/-- The planner deletes only against a complete crawl. -/
def DeletesComplete (env : Env) (events : List Event) (c : Crawl) (plan : Plan) : Prop :=
  plan.deletes ≠ [] ∨ plan.deleteDirs ≠ [] → CompleteCrawl env events c

/-- Everything that the walk of the storage reaches is listed. -/
def AllListed (env : Env) (c : Crawl) : Prop :=
  ∀ v, walk (isExcluded env.ext env.excludes) env.root = some v →
    ∀ x ∈ v.files ++ v.dirs, relStr x ∈ listedKeys env (c.items env)

/-- Nothing is left over when every path of the walk is listed. -/
theorem localExtras_eq_nil_iff {storage : Path} {remote : List Text} {v : Walk} :
    ((localExtras storage remote v).1 = [] ∧ (localExtras storage remote v).2 = []) ↔
      ∀ x ∈ v.files ++ v.dirs, relStr x ∈ remote := by
  have hsort (l : List Path) : l.insertionSort deeper = [] ↔ l = [] := by
    rw [← List.length_eq_zero_iff, List.length_insertionSort, List.length_eq_zero_iff]
  simp only [localExtras, hsort, List.map_eq_nil_iff, List.filter_eq_nil_iff, Bool.not_eq_true',
    decide_eq_false_iff_not, not_not, List.forall_mem_append]

/-- Deletes are planned against complete listings exactly when the planner sees that its crawl was
cut short, when no listing was defective, or when nothing in the storage is missing from them. -/
theorem deletesComplete_iff (env : Env) (baseUrl : Text) (depth : ℕ) (events : List Event)
    (c : Crawl) (plan : Plan) (hd : env.delete = true)
    (h : planInner env baseUrl depth events = some (.ok (c, plan))) :
    DeletesComplete env events c plan ↔
      CutShort env (c.items env) ∨ (∀ l ∈ c.consumed, l.Whole env) ∨ AllListed env c := by
  obtain ⟨hcut, hnone, hnodirs⟩ | ⟨hcut, hfail, v, hv, hremote, hdel, hdirs⟩ := deletes_cases hd h
  · refine ⟨fun _ => Or.inl hcut, fun _ hdeletes => ?_⟩
    rcases hdeletes with hne | hne
    · exact absurd hnone hne
    · exact absurd hnodirs hne
  · have hall : AllListed env c ↔ plan.deletes = [] ∧ plan.deleteDirs = [] := by
      rw [hdel, hdirs, localExtras_eq_nil_iff]
      constructor
      · exact fun ha x hx => (hremote _).mpr (ha v hv x hx)
      · intro ha v' hv' x hx
        obtain rfl : v' = v := Option.some.inj (hv'.symm.trans hv)
        exact (hremote _).mp (ha x hx)
    -- A failed listing never gets here, so what is left to go wrong is inside the bodies.
    have hfetched := (run_fetched (planInner_run h).1 hfail).2
    rw [or_iff_right hcut, hall]
    constructor
    · intro hc
      by_cases hdeletes : plan.deletes = [] ∧ plan.deleteDirs = []
      · exact Or.inr hdeletes
      · exact Or.inl (hc (not_and_or.mp hdeletes)).whole
    · rintro (hwhole | ⟨hnone, hnodirs⟩) hdeletes
      · exact ⟨hwhole, fun hcap => hcut (Or.inl hcap), fun hdeep => hcut (Or.inr hdeep), hfetched⟩
      · rcases hdeletes with hne | hne
        · exact absurd hnone hne
        · exact absurd hnodirs hne

theorem deletesComplete_iff_plainPage :
    ∃ c plan, planInner (mirrorEnv .nginx (oneFile "old".toList rfl)) "http://m/".toList 3
        [.joined 0 (.fetched plainPage)] = some (.ok (c, plan)) ∧
      plan.deletes = [Path.ofText "/srv/old".toList] ∧
      (DeletesComplete (mirrorEnv .nginx (oneFile "old".toList rfl))
          [.joined 0 (.fetched plainPage)] c plan ↔
        CutShort (mirrorEnv .nginx (oneFile "old".toList rfl))
            (c.items (mirrorEnv .nginx (oneFile "old".toList rfl))) ∨
          (∀ l ∈ c.consumed, l.Whole (mirrorEnv .nginx (oneFile "old".toList rfl))) ∨
          AllListed (mirrorEnv .nginx (oneFile "old".toList rfl)) c) := by
  have heval : (planned (mirrorEnv .nginx (oneFile "old".toList rfl)) "http://m/".toList 3
      [.joined 0 (.fetched plainPage)]).map (fun p => p.2.deletes) =
      some [Path.ofText "/srv/old".toList] := by decide +kernel
  obtain ⟨⟨c, plan⟩, hp, hdel⟩ := Option.map_eq_some_iff.mp heval
  have h := planInner_of_planned hp
  exact ⟨c, plan, h, hdel, deletesComplete_iff _ _ _ _ c plan rfl h⟩

/-- The first page of a bucket that holds `a` and, on its next page, `b`. -/
def truncatedPage : Bytes := encode
  "<IsTruncated>true</IsTruncated><Contents><Key>a</Key><Size>1</Size></Contents>".toList

/-- The parser does not read `IsTruncated`: what the next page lists is deleted. -/
theorem truncated_listing_deletes :
    ¬∀ (env : Env) (baseUrl : Text) (depth : ℕ) (events : List Event) (c : Crawl) (plan : Plan),
      env.delete = true → planInner env baseUrl depth events = some (.ok (c, plan)) →
        DeletesComplete env events c plan := by
  intro hall
  let env := mirrorEnv .s3 (oneFile "b".toList rfl)
  let l : Listing := ⟨⟨"http://m/".toList, [], 3, true⟩, truncatedPage⟩
  have heval : (planned env "http://m/".toList 3 [.joined 0 (.fetched truncatedPage)]).map
      (fun p => (p.1.consumed, p.2.deletes)) = some ([l], [Path.ofText "/srv/b".toList]) := by
    decide +kernel
  obtain ⟨⟨c, plan⟩, hp, hpair⟩ := Option.map_eq_some_iff.mp heval
  obtain ⟨hcons, hdel⟩ := Prod.mk.inj hpair
  have hcomplete := hall env _ _ _ c plan rfl (planInner_of_planned hp)
    (Or.inl (by rw [hdel]; simp))
  refine (hcomplete.whole l (by rw [hcons]; exact List.mem_singleton_self _)).untruncated ⟨rfl, ?_⟩
  decide +kernel

end Synora.Mirror
