import Synora.Lib.Escape
import Synora.Mirror.Listing

namespace Synora.Mirror
open Strings

/-! ## Entities -/

/-- The entities that `decode_entities` takes back after `&amp;`. -/
def entities : List (Char × Text) :=
  [('<', "lt;".toList), ('>', "gt;".toList), ('"', "quot;".toList), ('\'', "#39;".toList)]

/-- The five characters of markup are written as entities. -/
def encodeEntities (t : Text) : Text := t.flatMap (escape '&' (('&', "amp;".toList) :: entities))

theorem separate_entities : Separate '&' entities := by decide

theorem distinct_amp : Distinct '&' "amp;".toList entities := by decide

theorem decodeEntities_eq (t : Text) :
    decodeEntities t = unescape '&' entities (replace "&amp;".toList "&".toList t) := rfl

/-- The round trip ends where the four later replacements end on the text itself. -/
theorem decodeEntities_encodeEntities (t : Text) :
    decodeEntities (encodeEntities t) = unescape '&' entities t := by
  have hamp : replace "&amp;".toList "&".toList (encodeEntities t) =
      t.flatMap (escape '&' entities) := replace_mark distinct_amp t
  rw [decodeEntities_eq, hamp, unescape_flatMap_escape separate_entities]

/-- Markup characters are not left over. -/
theorem not_mem_encodeEntities {c : Char} (hc : c = '<' ∨ c = '"') (t : Text) :
    c ∉ encodeEntities t := by
  have hnames : ∀ p ∈ ('&', "amp;".toList) :: entities, '<' ∉ '&' :: p.2 ∧ '"' ∉ '&' :: p.2 := by
    decide
  intro hmem
  obtain ⟨d, -, hd⟩ := List.mem_flatMap.mp hmem
  unfold escape at hd
  split at hd
  · rename_i name hlookup
    have hp := hnames (d, name) (mem_of_lookup hlookup)
    rcases hc with rfl | rfl
    · exact hp.1 hd
    · exact hp.2 hd
  · rename_i hlookup
    obtain rfl := List.mem_singleton.mp hd
    rcases hc with rfl | rfl
    · cases hlookup
    · cases hlookup

theorem innerTag_encoded (tag t : Text) :
    innerTag (openTag tag ++ (encodeEntities t ++ closeTag tag)) tag =
      some (decodeEntities (encodeEntities t)) := by
  have hclose : splitOnce (closeTag tag) (encodeEntities t ++ closeTag tag) =
      some (encodeEntities t, []) := by
    have hbare : '<' ∉ encodeEntities t := not_mem_encodeEntities (Or.inl rfl) t
    have hhit := splitOnce_hit (closeTag tag) []
    rw [List.append_nil] at hhit
    refine (splitOnce_append hbare (closeTag tag)).trans ?_
    show (splitOnce (closeTag tag) (closeTag tag)).map _ = _
    rw [hhit, Option.map_some, List.append_nil]
  have hblock : takeBlock tag (openTag tag ++ (encodeEntities t ++ closeTag tag)) =
      some (encodeEntities t, []) := by
    rw [takeBlock, splitOnce_hit]
    exact hclose
  rw [innerTag, hblock, Option.map_some]

/-- The tag of an anchor as the index pages write it. -/
def hrefTag (t : Text) : Text := "href=\"".toList ++ (encodeEntities t ++ "\"".toList)

theorem extractHref_encoded (t : Text) :
    extractHref (hrefTag t) = some (decodeEntities (encodeEntities t)) := by
  have hbare : '"' ∉ encodeEntities t := not_mem_encodeEntities (Or.inr rfl) t
  have hlower : toAsciiLowercase (hrefTag t) =
      "href".toList ++ toAsciiLowercase ("=\"".toList ++ (encodeEntities t ++ "\"".toList)) :=
    List.map_append
  have hquoted : splitOnce "\"".toList (encodeEntities t ++ "\"".toList) =
      some (encodeEntities t, []) := splitOnce_singleton hbare []
  unfold extractHref
  rw [hlower, splitOnce_hit]
  show ((splitOnce "\"".toList (encodeEntities t ++ "\"".toList)).bind fun p =>
    some (decodeEntities p.1)) = _
  rw [hquoted]
  rfl

/-- Decoding gives a text back exactly where it does not spell one of the four entities: `&amp;` is
taken back first, and what it leaves is read again. -/
theorem entities_round_trip_iff (t : Text) :
    (decodeEntities (encodeEntities t) = t ↔ ∀ p ∈ entities, ¬('&' :: p.2 <:+: t)) ∧
    (extractHref (hrefTag t) = some t ↔ ∀ p ∈ entities, ¬('&' :: p.2 <:+: t)) ∧
    ∀ tag, innerTag (openTag tag ++ (encodeEntities t ++ closeTag tag)) tag = some t ↔
      ∀ p ∈ entities, ¬('&' :: p.2 <:+: t) := by
  have hnames : ∀ p ∈ entities, p.2 ≠ [] := by decide
  have hiff : decodeEntities (encodeEntities t) = t ↔ ∀ p ∈ entities, ¬('&' :: p.2 <:+: t) := by
    rw [decodeEntities_encodeEntities]
    exact unescape_eq_self_iff hnames
  refine ⟨hiff, ?_, fun tag => ?_⟩
  · rw [extractHref_encoded, Option.some.injEq, hiff]
  · rw [innerTag_encoded, Option.some.injEq, hiff]

/-- The keys `&lt;` and `<` end up in one file. -/
theorem keys_collide : ¬∀ t, decodeEntities (encodeEntities t) = t := by
  intro h
  have hsame : decodeEntities (encodeEntities "&lt;".toList) =
      decodeEntities (encodeEntities "<".toList) := by decide +kernel
  rw [h, h] at hsame
  exact absurd hsame (by decide)

end Synora.Mirror
