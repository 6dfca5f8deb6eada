import Synora.Mirror.Trailing

namespace Synora.Mirror
open Strings Utf8

/-! ## Pages that go on differently -/

/-- A round of the scan reads no further than the end of the anchor. -/
theorem nextAnchor_splice {t : Text} {a : Anchor} (h : nextAnchor t = .found a) :
    ∃ before, t = before ++ a.trailing ∧ before ≠ [] ∧
      ∀ trailing, nextAnchor (before ++ trailing) = .found { a with trailing } := by
  unfold nextAnchor at h
  split at h
  · cases h
  rename_i before afterA hA
  split at h
  · cases h
  rename_i tag afterTag hTag
  split at h
  · cases h
  rename_i href hhref
  split at h
  · cases h
  rename_i inner trailing hInner
  cases h
  refine ⟨before ++ ("<a ".toList ++ (tag ++ (">".toList ++ (inner ++ "</a>".toList)))), ?_, ?_, ?_⟩
  · rw [splitOnce_eq_append hA, splitOnce_eq_append hTag, splitOnce_eq_append hInner]
    simp
  · exact List.append_ne_nil_of_right_ne_nil _ (List.cons_ne_nil _ _)
  · intro trailing'
    have hsplit : before ++ ("<a ".toList ++ (tag ++ (">".toList ++ (inner ++ "</a>".toList)))) ++
        trailing' = before ++ ("<a ".toList ++ (tag ++ (">".toList ++ (inner ++
          ("</a>".toList ++ trailing'))))) := by simp
    rw [hsplit, nextAnchor, splitOnce_splice hA]
    dsimp only
    rw [splitOnce_splice hTag]
    dsimp only
    rw [hhref]
    dsimp only
    rw [splitOnce_splice hInner]

theorem nextAnchor_splice_skipped {t rest : Text} (h : nextAnchor t = .skipped rest) :
    ∃ before, t = before ++ rest ∧ before ≠ [] ∧
      ∀ rest', nextAnchor (before ++ rest') = .skipped rest' := by
  unfold nextAnchor at h
  split at h
  · cases h
  rename_i before afterA hA
  split at h
  · cases h
  rename_i tag afterTag hTag
  split at h
  · rename_i hhref
    cases h
    refine ⟨before ++ ("<a ".toList ++ (tag ++ ">".toList)), ?_, ?_, ?_⟩
    · rw [splitOnce_eq_append hA, splitOnce_eq_append hTag]
      simp
    · exact List.append_ne_nil_of_right_ne_nil _ (List.cons_ne_nil _ _)
    · intro rest'
      have hsplit : before ++ ("<a ".toList ++ (tag ++ ">".toList)) ++ rest' =
          before ++ ("<a ".toList ++ (tag ++ (">".toList ++ rest'))) := by simp
      rw [hsplit, nextAnchor, splitOnce_splice hA]
      dsimp only
      rw [splitOnce_splice hTag]
      dsimp only
      rw [hhref]
  · split at h
    · cases h
    · cases h

/-- An anchor of a page is found again in every page that begins like it. -/
theorem scanAnchors_splice {fuel : ℕ} {t : Text} {k : ℕ} {a : Anchor}
    (h : (scanAnchors fuel t).1[k]? = some a) :
    ∃ before, t = before ++ a.trailing ∧ ∀ trailing fuel', (before ++ trailing).length ≤ fuel' →
      (scanAnchors fuel' (before ++ trailing)).1[k]? = some { a with trailing } := by
  induction fuel generalizing t k with
  | zero => simp [scanAnchors] at h
  | succ fuel ih =>
    -- one more round leaves fuel for the rest
    have hround {before rest : Text} {fuel' : ℕ} (hne : before ≠ [])
        (hfuel : (before ++ rest).length ≤ fuel') : ∃ f, fuel' = f + 1 ∧ rest.length ≤ f := by
      have hpos := List.length_pos_iff.mpr hne
      rw [List.length_append] at hfuel
      exact ⟨fuel' - 1, by omega, by omega⟩
    rw [scanAnchors] at h
    split at h
    · simp at h
    · simp at h
    · rename_i rest hnext
      obtain ⟨b, rfl, hne, hb⟩ := nextAnchor_splice_skipped hnext
      obtain ⟨b', rfl, hb'⟩ := ih h
      refine ⟨b ++ b', (List.append_assoc _ _ _).symm, fun trailing fuel' hfuel => ?_⟩
      rw [List.append_assoc] at hfuel ⊢
      obtain ⟨f, rfl, hf⟩ := hround hne hfuel
      rw [scanAnchors, hb]
      exact hb' trailing f hf
    · rename_i a₁ hnext
      obtain ⟨b, rfl, hne, hb⟩ := nextAnchor_splice hnext
      cases k with
      | zero =>
        rw [List.getElem?_cons_zero, Option.some.injEq] at h
        subst h
        refine ⟨b, rfl, fun trailing fuel' hfuel => ?_⟩
        obtain ⟨f, rfl, -⟩ := hround hne hfuel
        rw [scanAnchors, hb]
        rfl
      | succ k =>
        rw [List.getElem?_cons_succ] at h
        obtain ⟨b', htrail, hb'⟩ := ih h
        refine ⟨b ++ b', by rw [htrail, List.append_assoc], fun trailing fuel' hfuel => ?_⟩
        rw [List.append_assoc] at hfuel ⊢
        obtain ⟨f, rfl, hf⟩ := hround hne hfuel
        rw [scanAnchors, hb]
        exact hb' trailing f hf

/-! ## Two pages -/

/-- The page with other text behind the start of the next anchor. -/
def Replaced (html html' : Bytes) (a : Anchor) (own : Text) : Prop :=
  ∃ before rest', fromUtf8Lossy html = before ++ a.trailing ∧
    fromUtf8Lossy html' = before ++ (own ++ ("<a ".toList ++ rest'))

/-- On every such page the anchor has the same size and the same date. -/
def MetadataOwn (ext : Externals) (html : Bytes) (k : ℕ) (a : Anchor) (own : Text) : Prop :=
  ∀ html', Replaced html html' a own → ∃ a' e e', (scanPage html').1[k]? = some a' ∧
    anchorEntry ext a = some e ∧ anchorEntry ext a' = some e' ∧
    e'.size = e.size ∧ e'.modified = e.modified

theorem anchorEntry_scan {ext : Externals} {a : Anchor} (h : isListable a.href) :
    ∃ e, anchorEntry ext a = some e ∧ (e.size, e.modified) = scanTrailing ext a.trailing := by
  unfold anchorEntry
  rw [if_pos h]
  generalize scanTrailing ext a.trailing = metadata
  exact ⟨_, rfl, rfl⟩

/-- The size and the date of a listed anchor are its own exactly when the text up to the next anchor
fills the window, or ends the scan for a size and the scan for a date. -/
theorem metadata_own_iff (ext : Externals) (hone : ext.scaleSize "1".toList 1 ≠ none)
    (html : Bytes) (k : ℕ) (a : Anchor) (own rest : Text)
    (ha : (scanPage html).1[k]? = some a) (hlist : isListable a.href)
    (hnext : splitOnce "<a ".toList a.trailing = some (own, rest)) :
    MetadataOwn ext html k a own ↔
      396 ≤ own.length ∨ SizeSettled ext (ownText own) ∧ DateSettled own := by
  obtain ⟨before, hpage, hsplice⟩ := scanAnchors_splice ha
  have htrail : a.trailing = own ++ ("<a ".toList ++ rest) := splitOnce_eq_append hnext
  obtain ⟨e, he, hscan⟩ : ∃ e, anchorEntry ext a = some e ∧
      (e.size, e.modified) = scanTrailing ext a.trailing := anchorEntry_scan hlist
  rw [htrail] at hscan
  rw [← scanTrailing_own_iff hone rest, ← hscan]
  have hfound {html' : Bytes} {rest' : Text}
      (h : fromUtf8Lossy html' = before ++ (own ++ ("<a ".toList ++ rest'))) :
      (scanPage html').1[k]? = some { a with trailing := own ++ ("<a ".toList ++ rest') } := by
    unfold scanPage
    rw [h]
    exact hsplice _ _ le_rfl
  have hother (rest' : Text) : ∃ e', anchorEntry ext
      { a with trailing := own ++ ("<a ".toList ++ rest') } = some e' ∧
      (e'.size, e'.modified) = scanTrailing ext (own ++ ("<a ".toList ++ rest')) :=
    anchorEntry_scan hlist
  constructor
  · intro h rest'
    have hhtml := fromUtf8Lossy_encode (before ++ (own ++ ("<a ".toList ++ rest')))
    obtain ⟨a', e₁, e', ha', he₁, he', hsize, hdate⟩ := h _ ⟨before, rest', hpage, hhtml⟩
    obtain rfl := Option.some.inj ((hfound hhtml).symm.trans ha')
    obtain rfl := Option.some.inj (he.symm.trans he₁)
    obtain ⟨e₂, he₂, hscan'⟩ := hother rest'
    obtain rfl := Option.some.inj (he'.symm.trans he₂)
    rw [← hscan', hsize, hdate]
  · rintro h html' ⟨before', rest', hpage', hhtml⟩
    obtain rfl : before = before' := List.append_cancel_right (hpage.symm.trans hpage')
    obtain ⟨e', he', hscan'⟩ := hother rest'
    have hsame := hscan'.trans (h rest')
    exact ⟨_, e, e', hfound hhtml, he, he', (Prod.mk.inj hsame).1, (Prod.mk.inj hsame).2⟩

/-- Sizes that are written in digits. -/
def digitSizes : Externals :=
  ⟨fun _ => none, fun _ => none, fun _ => none, fun num mult => (parseU64 num).map (· * mult),
    fun _ => false, fun _ _ => false⟩

/-- A row with a date and no size, and a row behind it. -/
def fullRow : Text := " 16-Aug-2026 10:00 -\n".toList

def fullPage : Bytes := encode
  "<a href=\"f\">f</a> 16-Aug-2026 10:00 -\n<a href=\"g\">g</a> 7".toList

def fullAnchor : Anchor :=
  ⟨"f".toList, "f".toList, fullRow ++ "<a href=\"g\">g</a> 7".toList⟩

theorem metadata_own_iff_fullPage : MetadataOwn digitSizes fullPage 0 fullAnchor fullRow := by
  have hshown : shownText fullRow = "16-Aug-2026 10:00 -".toList := by decide +kernel
  have hown : ownText fullRow = "16-Aug-2026 10:00 - ".toList := by decide +kernel
  refine (metadata_own_iff digitSizes (by decide +kernel) fullPage 0 fullAnchor fullRow
    "href=\"g\">g</a> 7".toList (by decide +kernel) (by decide +kernel) (by decide +kernel)).mpr
    (Or.inr ⟨?_, Or.inl ⟨0, ?_⟩⟩)
  · rw [hown]
    exact ⟨"-".toList, by decide +kernel, Or.inl rfl⟩
  · rw [hshown]
    unfold Stops Looks
    decide +kernel

/-- A row without a size, and a row with one. -/
def barePage : Bytes := encode "<a href=\"f\">f</a>\n<a href=\"g\">g</a> 7".toList

def bareAnchor : Anchor := ⟨"f".toList, "f".toList, "\n<a href=\"g\">g</a> 7".toList⟩

/-- The row takes the size of the next one. -/
theorem neighbour_size_taken :
    ¬∀ (ext : Externals) (html : Bytes) (k : ℕ) (a : Anchor) (own rest : Text),
      ext.scaleSize "1".toList 1 ≠ none → (scanPage html).1[k]? = some a → isListable a.href →
      splitOnce "<a ".toList a.trailing = some (own, rest) → MetadataOwn ext html k a own := by
  intro hall
  have hreplaced : Replaced barePage (encode "<a href=\"f\">f</a>\n<a ".toList) bareAnchor
      "\n".toList :=
    ⟨"<a href=\"f\">f</a>".toList, [], by decide +kernel, by decide +kernel⟩
  obtain ⟨a', e, e', ha', he, he', hsize, -⟩ := hall digitSizes barePage 0 bareAnchor "\n".toList
    "href=\"g\">g</a> 7".toList (by decide +kernel) (by decide +kernel) (by decide +kernel)
    (by decide +kernel) _ hreplaced
  have hcut : (scanPage (encode "<a href=\"f\">f</a>\n<a ".toList)).1[0]? =
      some ⟨"f".toList, "f".toList, "\n<a ".toList⟩ := by decide +kernel
  obtain rfl := Option.some.inj (hcut.symm.trans ha')
  have hseven : (anchorEntry digitSizes bareAnchor).map Entry.size = some (some 7) := by
    decide +kernel
  have hnone : (anchorEntry digitSizes ⟨"f".toList, "f".toList, "\n<a ".toList⟩).map Entry.size =
      some none := by decide +kernel
  rw [he, Option.map_some, Option.some.injEq] at hseven
  rw [he', Option.map_some, Option.some.injEq] at hnone
  rw [hseven, hnone] at hsize
  cases hsize

end Synora.Mirror
