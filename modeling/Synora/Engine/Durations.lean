import Mathlib.Algebra.Order.Ring.Int
import Synora.Engine.Schedule
import Synora.Lib.Text

namespace Synora.Engine
open Strings

/-! ## Human durations

Durations are whole seconds. The outer `none` is a panic. -/

def isI64 (n : ℤ) : Bool := decide (-2 ^ 63 ≤ n ∧ n < 2 ^ 63)

/-- An operation of `Duration` that panics when the seconds do not fit. -/
def checkedI64 (n : ℤ) : Option ℤ := if isI64 n then some n else none

/-- The seconds of a unit. -/
def unitSecs : Char → Option ℤ
  | 's' => some 1
  | 'm' => some 60
  | 'h' => some 3600
  | 'd' => some 86400
  | _ => none

def digitValue (c : Char) : ℕ := c.toNat - '0'.toNat

/-- The loop of `parse_duration_human` and what follows it. -/
def durationFrom (s : Text) : ℤ → ℕ → Bool → Bool → Text → Option (Except Text ℤ)
  | total, _, sawDigit, sawUnit, [] =>
    if !sawUnit || sawDigit then
      some (.error ("invalid duration `".toList ++ s ++ "`: expected like `6h` or `1h30m`".toList))
    else some (.ok total)
  | total, num, sawDigit, sawUnit, c :: cs =>
    if c.isDigit then
      if num * 10 + digitValue c < 2 ^ 64 then
        durationFrom s total (num * 10 + digitValue c) true sawUnit cs
      else some (.error "duration number overflow".toList)
    else match unitSecs c with
      | some secs =>
        if !sawDigit then
          some (.error ("invalid duration `".toList ++ s ++ "`: unit without number".toList))
        else do
          let unit ← checkedI64 (wrapI64 num * secs)
          let total ← checkedI64 (total + unit)
          durationFrom s total 0 false true cs
      | none => some (.error ("invalid duration `".toList ++ s ++
          "`: unexpected character `".toList ++ [c] ++ "`".toList))

def parseDurationHuman (s : Text) : Option (Except Text ℤ) := durationFrom s 0 0 false false s

theorem durationFrom_isI64 {s cs : Text} {total d : ℤ} {num : ℕ} {sawDigit sawUnit : Bool}
    (htotal : isI64 total) (h : durationFrom s total num sawDigit sawUnit cs = some (.ok d)) :
    isI64 d := by
  induction cs generalizing total num sawDigit sawUnit with
  | nil =>
    unfold durationFrom at h
    split_ifs at h
    · cases h
    · cases h
      exact htotal
  | cons c cs ih =>
    unfold durationFrom at h
    split_ifs at h with hdigit hlt hsaw
    · exact ih htotal h
    · cases h
    · split at h <;> cases h
    · split at h
      · obtain ⟨unit, -, hsum⟩ := Option.bind_eq_some_iff.mp h
        obtain ⟨total', htotal', hrest⟩ := Option.bind_eq_some_iff.mp hsum
        obtain ⟨hfits, heq⟩ := Option.ite_none_right_eq_some.mp htotal'
        exact ih (Option.some.inj heq ▸ hfits) hrest
      · cases h

theorem parseDurationHuman_lt {s : Text} {d : ℤ} (h : parseDurationHuman s = some (.ok d)) :
    d < 2 ^ 63 := by
  have hfits := durationFrom_isI64 (by decide) h
  rw [isI64, decide_eq_true_iff] at hfits
  exact hfits.2

/-! ## What a duration says -/

/-- A number and its unit. -/
structure Term where
  digits : Text
  unit : Char

namespace Term

def Valid (t : Term) : Prop :=
  t.digits ≠ [] ∧ (∀ c ∈ t.digits, c.isDigit = true) ∧ (unitSecs t.unit).isSome

def text (t : Term) : Text := t.digits ++ [t.unit]

def number (t : Term) : ℕ := t.digits.foldl (fun n c => n * 10 + digitValue c) 0

def secs (t : Term) : ℤ := (unitSecs t.unit).getD 0

/-- The exact seconds. -/
def value (t : Term) : ℤ := t.number * t.secs

/-- The seconds when the number is taken as an `i64`. -/
def wrapped (t : Term) : ℤ := wrapI64 t.number * t.secs

end Term

def textOf (ts : List Term) : Text := ts.flatMap Term.text

def valueOf (ts : List Term) : ℤ := (ts.map Term.value).sum

def wrappedOf (ts : List Term) : ℤ := (ts.map Term.wrapped).sum

/-- The text is a sequence of numbers with units whose total fits. -/
def Denotes (s : Text) (ts : List Term) : Prop :=
  ts ≠ [] ∧ (∀ t ∈ ts, t.Valid) ∧ s = textOf ts ∧ valueOf ts < 2 ^ 63

/-- The result is the exact total, or an error where there is none. -/
def Exact (s : Text) : Prop :=
  match parseDurationHuman s with
  | none => False
  | some (.ok d) => ∃ ts, Denotes s ts ∧ d = valueOf ts ∧ 0 ≤ d
  | some (.error _) => ¬∃ ts, Denotes s ts

/-! ## Reading term by term -/

/-- The numbers that the loop gets through. -/
def Read (ts : List Term) : Prop := ∀ t ∈ ts, t.Valid ∧ t.number < 2 ^ 64

/-- The running total, as the loop keeps it. -/
def accumulate : ℤ → List Term → Option ℤ
  | total, [] => some total
  | total, t :: ts =>
    (checkedI64 t.wrapped).bind fun unit => (checkedI64 (total + unit)).bind fun total =>
      accumulate total ts

theorem not_isDigit_of_unit {c : Char} (h : (unitSecs c).isSome) : c.isDigit = false := by
  unfold unitSecs at h
  split at h <;> first | decide | cases h

theorem number_mono (n : ℕ) (ds : Text) : n ≤ ds.foldl (fun n c => n * 10 + digitValue c) n := by
  induction ds generalizing n with
  | nil => exact le_rfl
  | cons c ds ih =>
    have := ih (n * 10 + digitValue c)
    rw [List.foldl_cons]
    omega

/-- Digits are read into the number, unless they overflow it. -/
theorem durationFrom_digits (s : Text) (total : ℤ) (num : ℕ) (sawDigit sawUnit : Bool)
    {ds : Text} (hds : ∀ c ∈ ds, c.isDigit = true) (hne : ds ≠ []) (cs : Text) :
    durationFrom s total num sawDigit sawUnit (ds ++ cs) =
      if ds.foldl (fun n c => n * 10 + digitValue c) num < 2 ^ 64 then
        durationFrom s total (ds.foldl (fun n c => n * 10 + digitValue c) num) true sawUnit cs
      else some (.error "duration number overflow".toList) := by
  induction ds generalizing num sawDigit with
  | nil => exact absurd rfl hne
  | cons c ds ih =>
    rw [List.forall_mem_cons] at hds
    have hmono := number_mono (num * 10 + digitValue c) ds
    rw [List.cons_append, durationFrom, if_pos hds.1, List.foldl_cons]
    by_cases hlt : num * 10 + digitValue c < 2 ^ 64
    · rw [if_pos hlt]
      rcases eq_or_ne ds [] with rfl | hne
      · rw [List.foldl_nil, if_pos hlt, List.nil_append]
      · exact ih _ _ hds.2 hne
    · rw [if_neg hlt, if_neg (by omega)]

/-- A term adds to the total. -/
theorem durationFrom_term (s : Text) (total : ℤ) (sawUnit : Bool) {t : Term} (ht : t.Valid)
    (hnumber : t.number < 2 ^ 64) (cs : Text) :
    durationFrom s total 0 false sawUnit (t.text ++ cs) =
      (checkedI64 t.wrapped).bind fun unit => (checkedI64 (total + unit)).bind fun total =>
        durationFrom s total 0 false true cs := by
  obtain ⟨hne, hdigits, hunit⟩ := ht
  obtain ⟨secs, hsecs⟩ := Option.isSome_iff_exists.mp hunit
  have hsecs' : t.secs = secs := by rw [Term.secs, hsecs, Option.getD_some]
  have hlt : t.digits.foldl (fun n c => n * 10 + digitValue c) 0 < 2 ^ 64 := hnumber
  rw [Term.text, List.append_assoc, durationFrom_digits s total 0 false sawUnit hdigits hne,
    if_pos hlt, List.singleton_append, durationFrom, if_neg, hsecs, Term.wrapped, hsecs']
  · rfl
  · rw [not_isDigit_of_unit hunit]
    exact Bool.false_ne_true

theorem durationFrom_terms (s : Text) (total : ℤ) (sawUnit : Bool) {ts : List Term}
    (hts : Read ts) (cs : Text) :
    durationFrom s total 0 false sawUnit (textOf ts ++ cs) =
      (accumulate total ts).bind fun total =>
        durationFrom s total 0 false (sawUnit || !ts.isEmpty) cs := by
  induction ts generalizing total sawUnit with
  | nil => rw [List.isEmpty_nil, Bool.not_true, Bool.or_false]; rfl
  | cons t ts ih =>
    obtain ⟨⟨hvalid, hnumber⟩, hts⟩ := List.forall_mem_cons.mp hts
    rw [textOf, List.flatMap_cons, List.append_assoc,
      durationFrom_term s total sawUnit hvalid hnumber, accumulate]
    simp only [Option.bind_assoc]
    refine congrArg _ (funext fun unit => congrArg _ (funext fun total => ?_))
    rw [show List.flatMap Term.text ts = textOf ts from rfl, ih total true hts, List.isEmpty_cons,
      Bool.not_false, Bool.or_true, Bool.true_or]

/-- Nothing more can be read as a term. -/
def Stuck (rest : Text) : Prop :=
  ∀ (t : Term) (cs : Text), t.Valid → t.number < 2 ^ 64 → rest ≠ t.text ++ cs

theorem durationFrom_stuck (s : Text) (total : ℤ) (sawUnit : Bool) {rest : Text} (hne : rest ≠ [])
    (h : Stuck rest) : ∃ e, durationFrom s total 0 false sawUnit rest = some (.error e) := by
  have hsplit := List.takeWhile_append_dropWhile (p := Char.isDigit) (l := rest)
  generalize hds : rest.takeWhile Char.isDigit = ds at hsplit
  have hdigits : ∀ c ∈ ds, c.isDigit = true := fun c hc =>
    List.mem_takeWhile_imp (hds ▸ hc)
  rcases hcs : rest.dropWhile Char.isDigit with _ | ⟨c, cs⟩
  · rw [hcs, List.append_nil] at hsplit
    subst hsplit
    rw [← List.append_nil ds, durationFrom_digits s total 0 false sawUnit hdigits hne]
    split_ifs with hlt
    · exact ⟨_, by rw [durationFrom, Bool.or_true, if_pos rfl]⟩
    · exact ⟨_, rfl⟩
  · rw [hcs] at hsplit
    have hc : c.isDigit = false := by
      have hhead := List.head_dropWhile_not Char.isDigit (l := rest)
        (by rw [hcs]; exact List.cons_ne_nil c cs)
      simpa only [hcs, List.head_cons] using hhead
    subst hsplit
    rcases eq_or_ne ds [] with rfl | hd
    · rw [List.nil_append, durationFrom, if_neg (by rw [hc]; exact Bool.false_ne_true)]
      split
      · exact ⟨_, if_pos rfl⟩
      · exact ⟨_, rfl⟩
    · rw [durationFrom_digits s total 0 false sawUnit hdigits hd]
      split_ifs with hlt
      · rw [durationFrom, if_neg (by rw [hc]; exact Bool.false_ne_true)]
        split
        · next secs hsecs =>
          refine absurd ?_ (h ⟨ds, c⟩ cs ⟨hd, hdigits, ?_⟩ hlt)
          · rw [Term.text, List.append_assoc]; rfl
          · rw [hsecs]; rfl
        · exact ⟨_, rfl⟩
      · exact ⟨_, rfl⟩

/-- Every text is terms up to a place where the loop stops. -/
theorem exists_terms (s : Text) : ∃ ts rest, Read ts ∧ s = textOf ts ++ rest ∧ Stuck rest := by
  induction hn : s.length using Nat.strong_induction_on generalizing s with
  | _ n ih =>
    by_cases hstuck : Stuck s
    · exact ⟨[], s, fun _ h => absurd h List.not_mem_nil, rfl, hstuck⟩
    unfold Stuck at hstuck
    push Not at hstuck
    obtain ⟨t, cs, hvalid, hnumber, rfl⟩ := hstuck
    have hlt : cs.length < n := by
      rw [← hn, List.length_append, Term.text, List.length_append, List.length_singleton]
      omega
    obtain ⟨ts, rest, hts, rfl, hrest⟩ := ih cs.length hlt cs rfl
    refine ⟨t :: ts, rest, List.forall_mem_cons.mpr ⟨⟨hvalid, hnumber⟩, hts⟩, ?_, hrest⟩
    rw [textOf, textOf, List.flatMap_cons, List.append_assoc]

theorem Term.text_append_inj {t u : Term} (ht : t.Valid) (hu : u.Valid) {as bs : Text}
    (h : t.text ++ as = u.text ++ bs) : t = u ∧ as = bs := by
  obtain ⟨-, htd, htu⟩ := ht
  obtain ⟨-, hud, huu⟩ := hu
  have hspan : ∀ {ds : Text} {c : Char} {cs : Text}, (∀ d ∈ ds, d.isDigit = true) →
      c.isDigit = false → (ds ++ c :: cs).takeWhile Char.isDigit = ds := by
    intro ds c cs hds hc
    rw [List.takeWhile_append_of_pos hds, List.takeWhile_cons, hc]
    exact List.append_nil ds
  rw [Term.text, Term.text, List.append_assoc, List.append_assoc, List.singleton_append,
    List.singleton_append] at h
  have hdigits : t.digits = u.digits := by
    rw [← hspan htd (not_isDigit_of_unit htu), h, hspan hud (not_isDigit_of_unit huu)]
  rw [hdigits, List.append_cancel_left_eq, List.cons.injEq] at h
  exact ⟨by cases t; cases u; simp_all, h.2⟩

/-- The terms at the front of a text are those that the loop reads. -/
theorem prefix_of_textOf_append {ts us : List Term} {rest cs : Text} (hts : Read ts) (hus : Read us)
    (hrest : Stuck rest) (h : textOf ts ++ rest = textOf us ++ cs) :
    ∃ vs, ts = us ++ vs ∧ cs = textOf vs ++ rest := by
  induction us generalizing ts with
  | nil => exact ⟨ts, rfl, h.symm⟩
  | cons u us ih =>
    obtain ⟨hu, hus'⟩ := List.forall_mem_cons.mp hus
    rw [textOf, textOf, List.flatMap_cons, List.append_assoc] at h
    rcases ts with _ | ⟨t, ts⟩
    · exact absurd h (hrest u _ hu.1 hu.2)
    · obtain ⟨ht, hts⟩ := List.forall_mem_cons.mp hts
      rw [List.flatMap_cons, List.append_assoc] at h
      obtain ⟨rfl, htail⟩ := Term.text_append_inj ht.1 hu.1 h
      obtain ⟨vs, rfl, hcs⟩ := ih hts hus' htail
      exact ⟨vs, rfl, hcs⟩

/-- Every term and every running total is an `i64`. -/
def Fits (total : ℤ) (ts : List Term) : Prop :=
  ∀ us u vs, ts = us ++ u :: vs → isI64 u.wrapped ∧ isI64 (total + wrappedOf (us ++ [u]))

theorem wrappedOf_cons (t : Term) (ts : List Term) :
    wrappedOf (t :: ts) = t.wrapped + wrappedOf ts := by
  rw [wrappedOf, List.map_cons, List.sum_cons, wrappedOf]

theorem fits_cons {total : ℤ} {t : Term} {ts : List Term} :
    Fits total (t :: ts) ↔
      isI64 t.wrapped ∧ isI64 (total + t.wrapped) ∧ Fits (total + t.wrapped) ts := by
  constructor
  · intro h
    obtain ⟨hterm, htotal⟩ := h [] t ts rfl
    rw [List.nil_append, wrappedOf_cons, wrappedOf, List.map_nil, List.sum_nil, add_zero] at htotal
    refine ⟨hterm, htotal, ?_⟩
    rintro us u vs rfl
    have := h (t :: us) u vs rfl
    rwa [List.cons_append, wrappedOf_cons, ← add_assoc] at this
  · rintro ⟨hterm, htotal, hfits⟩ us u vs hsplit
    rcases us with _ | ⟨u', us⟩
    · obtain ⟨rfl, rfl⟩ := List.cons.inj hsplit
      rw [List.nil_append, wrappedOf_cons, wrappedOf, List.map_nil, List.sum_nil, add_zero]
      exact ⟨hterm, htotal⟩
    · obtain ⟨rfl, rfl⟩ := List.cons.inj hsplit
      rw [List.cons_append, wrappedOf_cons, ← add_assoc]
      exact hfits us u vs rfl

/-- The total panics at the first term that it cannot hold. -/
theorem accumulate_eq_some {total : ℤ} {ts : List Term} {n : ℤ} :
    accumulate total ts = some n ↔ n = total + wrappedOf ts ∧ Fits total ts := by
  induction ts generalizing total with
  | nil =>
    have hfits : Fits total [] := fun us u vs h => absurd h (by simp)
    rw [accumulate, Option.some.injEq, wrappedOf, List.map_nil, List.sum_nil, add_zero, eq_comm,
      and_iff_left hfits]
  | cons t ts ih =>
    rw [accumulate, fits_cons, wrappedOf_cons, ← add_assoc]
    by_cases hterm : isI64 t.wrapped
    · rw [checkedI64, if_pos hterm, Option.bind_some]
      by_cases htotal : isI64 (total + t.wrapped)
      · rw [checkedI64, if_pos htotal, Option.bind_some, ih]
        simp [hterm, htotal]
      · simp [checkedI64, htotal]
    · simp [checkedI64, hterm]

theorem not_fits_of_none {total : ℤ} {ts : List Term} (h : accumulate total ts = none) :
    ¬Fits total ts := by
  intro hfits
  rw [accumulate_eq_some.mpr ⟨rfl, hfits⟩] at h
  cases h

/-! ## When the result is exact -/

theorem parseDurationHuman_append {ts : List Term} (hts : Read ts) (rest : Text) :
    parseDurationHuman (textOf ts ++ rest) = (accumulate 0 ts).bind fun total =>
      durationFrom (textOf ts ++ rest) total 0 false (!ts.isEmpty) rest :=
  durationFrom_terms _ 0 false hts rest

theorem Term.Valid.secs_pos {t : Term} (h : t.Valid) : 1 ≤ t.secs := by
  have hunit := h.2.2
  unfold Term.secs
  unfold unitSecs at hunit ⊢
  split at hunit <;> first | decide | cases hunit

theorem Term.Valid.number_le {t : Term} (h : t.Valid) : (t.number : ℤ) ≤ t.value := by
  have hsecs := h.secs_pos
  unfold Term.value
  exact le_mul_of_one_le_right (Int.natCast_nonneg _) hsecs

theorem Term.wrapped_eq {t : Term} (h : t.number < 2 ^ 63) : t.wrapped = t.value := by
  rw [Term.wrapped, wrapI64, if_pos (by omega), Term.value]

theorem valueOf_cons (t : Term) (ts : List Term) : valueOf (t :: ts) = t.value + valueOf ts := by
  rw [valueOf, List.map_cons, List.sum_cons, valueOf]

theorem valueOf_nonneg {ts : List Term} (hts : ∀ t ∈ ts, t.Valid) : 0 ≤ valueOf ts := by
  induction ts with
  | nil => exact le_rfl
  | cons t ts ih =>
    rw [List.forall_mem_cons] at hts
    have := hts.1.number_le
    have := ih hts.2
    rw [valueOf_cons]
    omega

theorem number_le_valueOf {ts : List Term} (hts : ∀ t ∈ ts, t.Valid) :
    ∀ t ∈ ts, (t.number : ℤ) ≤ valueOf ts := by
  induction ts with
  | nil => exact fun t h => absurd h List.not_mem_nil
  | cons u ts ih =>
    rw [List.forall_mem_cons] at hts
    have hu := hts.1.number_le
    have hnonneg := valueOf_nonneg hts.2
    rw [valueOf_cons, List.forall_mem_cons]
    refine ⟨by omega, fun t ht => ?_⟩
    have := ih hts.2 t ht
    omega

theorem wrappedOf_eq {ts : List Term} (h : ∀ t ∈ ts, t.number < 2 ^ 63) :
    wrappedOf ts = valueOf ts := by
  rw [wrappedOf, valueOf, List.map_congr_left fun t ht => Term.wrapped_eq (h t ht)]

theorem Denotes.number_lt {s : Text} {ts : List Term} (h : Denotes s ts) :
    ∀ t ∈ ts, t.number < 2 ^ 63 := by
  intro t ht
  obtain ⟨-, hvalid, -, hlt⟩ := h
  have := number_le_valueOf hvalid t ht
  omega

theorem Denotes.read {s : Text} {ts : List Term} (h : Denotes s ts) : Read ts := by
  intro t ht
  have := h.number_lt t ht
  exact ⟨h.2.1 t ht, by omega⟩

theorem textOf_append (ts us : List Term) : textOf (ts ++ us) = textOf ts ++ textOf us :=
  List.flatMap_append

theorem textOf_eq_nil {ts : List Term} (h : textOf ts = []) : ts = [] := by
  rcases ts with _ | ⟨t, ts⟩
  · rfl
  · rw [textOf, List.flatMap_cons, Term.text] at h
    simp at h

/-- A text is terms in one way only. -/
theorem textOf_whole {ts us : List Term} {rest : Text} (hts : Read ts) (hus : Read us)
    (hrest : Stuck rest) (h : textOf ts ++ rest = textOf us) : us = ts ∧ rest = [] := by
  rw [← List.append_nil (textOf us)] at h
  obtain ⟨vs, rfl, hnil⟩ := prefix_of_textOf_append hts hus hrest h
  obtain ⟨hvs, hr⟩ := List.append_eq_nil_iff.mp hnil.symm
  rw [textOf_eq_nil hvs, List.append_nil]
  exact ⟨rfl, hr⟩

/-- No number with its unit, and no total up to one, overflows. -/
def NoPanic (s : Text) : Prop :=
  ∀ ts t rest, Read (ts ++ [t]) → s = textOf (ts ++ [t]) ++ rest →
    isI64 t.wrapped ∧ isI64 (wrappedOf (ts ++ [t]))

/-- Where the whole text is terms, none of their numbers wraps. -/
def NoWrap (s : Text) : Prop := ∀ ts, Read ts → s = textOf ts → ∀ t ∈ ts, t.number < 2 ^ 63

theorem noPanic_iff {ts : List Term} {rest : Text} (hts : Read ts) (hrest : Stuck rest) :
    NoPanic (textOf ts ++ rest) ↔ Fits 0 ts := by
  constructor
  · rintro h us u vs rfl
    have hread : Read (us ++ [u]) := fun t ht => hts t (by
      rw [← List.singleton_append, ← List.append_assoc]
      exact List.mem_append_left _ ht)
    rw [zero_add]
    refine h us u (textOf vs ++ rest) hread ?_
    rw [← List.append_assoc, ← textOf_append, List.append_assoc, List.singleton_append]
  · intro h us u cs hread heq
    obtain ⟨vs, rfl, -⟩ := prefix_of_textOf_append hts hread hrest heq
    have := h us u vs (by rw [List.append_assoc, List.singleton_append])
    rwa [zero_add] at this

theorem exact_iff_of_stuck {ts : List Term} {rest : Text} (hts : Read ts) (hrest : Stuck rest)
    (hne : rest ≠ []) : Exact (textOf ts ++ rest) ↔ Fits 0 ts := by
  have hnone : ¬∃ us, Denotes (textOf ts ++ rest) us := by
    rintro ⟨us, hus⟩
    exact hne (textOf_whole hts hus.read hrest hus.2.2.1).2
  rw [Exact, parseDurationHuman_append hts]
  rcases hacc : accumulate 0 ts with _ | n
  · exact iff_of_false id (not_fits_of_none hacc)
  · obtain ⟨e, he⟩ := durationFrom_stuck (textOf ts ++ rest) n (!ts.isEmpty) hne hrest
    rw [Option.bind_some, he]
    exact iff_of_true hnone (accumulate_eq_some.mp hacc).2

theorem exact_textOf_iff {ts : List Term} (hts : Read ts) (hstuck : Stuck []) :
    Exact (textOf ts) ↔ Fits 0 ts ∧ ∀ t ∈ ts, t.number < 2 ^ 63 := by
  have hparse := parseDurationHuman_append hts []
  rw [List.append_nil] at hparse
  have hunique : ∀ us, Denotes (textOf ts) us → us = ts := fun us hus =>
    (textOf_whole hts hus.read hstuck ((List.append_nil _).trans hus.2.2.1)).1
  rw [Exact, hparse]
  rcases hacc : accumulate 0 ts with _ | n
  · exact iff_of_false id fun h => not_fits_of_none hacc h.1
  obtain ⟨rfl, hfits⟩ := accumulate_eq_some.mp hacc
  rw [Option.bind_some, and_iff_right hfits, zero_add]
  rcases eq_or_ne ts [] with rfl | hne
  · refine iff_of_true ?_ fun t ht => absurd ht List.not_mem_nil
    rintro ⟨us, hus⟩
    exact hus.1 (hunique us hus)
  have hempty : ts.isEmpty = false := List.isEmpty_eq_false_iff.mpr hne
  rw [hempty, durationFrom, Bool.not_false, Bool.not_true, Bool.or_self, if_neg Bool.false_ne_true]
  constructor
  · rintro ⟨us, hus, -⟩
    exact hunique us hus ▸ hus.number_lt
  · intro h
    have hvalid : ∀ t ∈ ts, t.Valid := fun t ht => (hts t ht).1
    have hnonneg := valueOf_nonneg hvalid
    have hlast := List.dropLast_append_getLast hne
    have htotal := (hfits ts.dropLast (ts.getLast hne) [] hlast.symm).2
    rw [zero_add, hlast, wrappedOf_eq h, isI64, decide_eq_true_iff] at htotal
    rw [wrappedOf_eq h]
    exact ⟨ts, ⟨hne, hvalid, rfl, htotal.2⟩, rfl, hnonneg⟩

/-- The exact total or an error, unless the arithmetic panics or a number wraps. -/
theorem exact_iff (s : Text) : Exact s ↔ NoPanic s ∧ NoWrap s := by
  obtain ⟨ts, rest, hts, rfl, hrest⟩ := exists_terms s
  rw [noPanic_iff hts hrest]
  rcases eq_or_ne rest [] with rfl | hne
  · rw [List.append_nil, exact_textOf_iff hts hrest]
    refine and_congr_right fun _ => ⟨fun h us hus heq => ?_, fun h => h ts hts rfl⟩
    obtain ⟨rfl, -⟩ := textOf_whole hts hus hrest ((List.append_nil _).trans heq)
    exact h
  · have hwrap : NoWrap (textOf ts ++ rest) := fun us hus heq =>
      absurd (textOf_whole hts hus hrest heq).2 hne
    rw [exact_iff_of_stuck hts hrest hne, and_iff_left hwrap]

/-- A number above the `i64` range is taken for a negative one. -/
theorem duration_negative :
    parseDurationHuman "9223372036854775808s".toList = some (.ok (-2 ^ 63)) ∧
      ¬∀ s, Exact s := by
  have hparse : parseDurationHuman "9223372036854775808s".toList = some (.ok (-2 ^ 63)) := by
    decide +kernel
  refine ⟨hparse, fun h => ?_⟩
  have hexact := h "9223372036854775808s".toList
  rw [Exact, hparse] at hexact
  obtain ⟨_, _, _, hnonneg⟩ := hexact
  exact absurd hnonneg (by decide)

end Synora.Engine
