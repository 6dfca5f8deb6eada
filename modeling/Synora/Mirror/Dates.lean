import Mathlib.Data.List.Nodup
import Mathlib.Data.Nat.Find
import Synora.Mirror.Listing

namespace Synora.Mirror
open Strings Utf8

/-! ## Stamps -/

/-- Two decimal digits. -/
def digits (n : ℕ) : Bytes := [UInt8.ofNat (0x30 + n / 10), UInt8.ofNat (0x30 + n % 10)]

/-- A day of the calendar and a minute of the day. -/
def DateTime.Valid (d : DateTime) : Prop :=
  d.year < 10000 ∧ (1 ≤ d.month ∧ d.month ≤ 12) ∧ (1 ≤ d.day ∧ d.day ≤ daysInMonth d.year d.month) ∧
    d.hour < 24 ∧ d.minute < 60 ∧ d.second = 0

/-- `dd-Mon-yyyy hh:mm`, with any byte for the colon. -/
def stamp (d : DateTime) (mon : Text) (colon : UInt8) : Bytes :=
  digits d.day ++ 0x2d :: encode mon ++ 0x2d :: digits (d.year / 100) ++ digits (d.year % 100) ++
    0x20 :: digits d.hour ++ colon :: digits d.minute

/-- The bytes are a stamp of this date; its month is spelled in any case. -/
def IsStamp (colon : UInt8) (w : Bytes) (d : DateTime) : Prop :=
  d.Valid ∧ ∃ mon, months[d.month - 1]? = some (toAsciiLowercase mon) ∧ w = stamp d mon colon

/-- The separators are in place. -/
def Looks (w : Bytes) : Prop := w.getD 2 0 = 0x2d ∧ w.getD 6 0 = 0x2d ∧ w.getD 11 0 = 0x20

theorem twoDigits_iff {a b : UInt8} {n : ℕ} :
    twoDigits a b = some n ↔ n < 100 ∧ [a, b] = digits n := by
  simp only [twoDigits, Option.ite_none_right_eq_some, Option.some.injEq, digits, List.cons.injEq,
    and_true, UInt8.le_iff_toNat_le, ← UInt8.toNat_inj, UInt8.reduceToNat, UInt8.toNat_ofNat']
  omega

theorem ascii_of_month {mon : Text} (h : toAsciiLowercase mon ∈ months) :
    mon.length = 3 ∧ ∀ c ∈ mon, c.toNat < 0x80 := by
  have hall : ∀ name ∈ months, name.length = 3 ∧ ∀ c ∈ name, c.toNat < 0x80 := by
    simp [months]
  obtain ⟨hlen, hascii⟩ := hall _ h
  refine ⟨by simpa [toAsciiLowercase] using hlen, fun c hc => ?_⟩
  have hlower := hascii _ (List.mem_map_of_mem hc)
  split_ifs at hlower with hupper
  · have hle : c.toNat ≤ 'Z'.toNat := hupper.2
    have hz : 'Z'.toNat = 90 := rfl
    omega
  · exact hlower

theorem months_findIdx {m : ℕ} {name : Text} :
    (months.findIdx? fun other => decide (other = name)) = some m ↔ months[m]? = some name := by
  have hnodup : months.Nodup := by decide
  rw [List.findIdx?_eq_some_iff_getElem, List.getElem?_eq_some_iff]
  constructor
  · rintro ⟨hlt, heq, -⟩
    exact ⟨hlt, by simpa using heq⟩
  · rintro ⟨hlt, heq⟩
    refine ⟨hlt, by simpa using heq, fun j hj => ?_⟩
    rw [← heq]
    simpa using fun hsame => hj.ne ((List.Nodup.getElem_inj_iff hnodup).mp hsame)

theorem daysInMonth_le (year month : ℕ) : daysInMonth year month ≤ 31 := by
  unfold daysInMonth
  split_ifs <;> omega

/-- A window with its separators in place is read as a date exactly where it is a stamp, whatever
stands for the colon. -/
theorem dateAt_iff {w : Bytes} {d : DateTime} (hlen : w.length = 17) :
    Looks w ∧ dateAt w = some d ↔ IsStamp (w.getD 14 0) w d := by
  match w, hlen with
  | [w0, w1, w2, w3, w4, w5, w6, w7, w8, w9, w10, w11, w12, w13, w14, w15, w16], _ =>
    simp only [Looks, dateAt, Option.bind_eq_bind, Option.bind_eq_some_iff, months_findIdx,
      Option.ite_none_right_eq_some, Option.some.injEq, twoDigits_iff, List.getD_cons_zero,
      List.getD_cons_succ, List.drop_succ_cons, List.drop_zero, List.take_succ_cons,
      List.take_zero, IsStamp]
    constructor
    · rintro ⟨⟨rfl, rfl, rfl⟩, day, ⟨-, hday⟩, m, hm, century, ⟨hc, hcentury⟩, years,
        ⟨hy, hyears⟩, hour, ⟨-, hhour⟩, minute, ⟨-, hminute⟩, hvalid, rfl⟩
      have hmon : toAsciiLowercase (fromUtf8Lossy [w3, w4, w5]) ∈ months :=
        List.mem_of_getElem? hm
      obtain ⟨hmon3, hascii⟩ := ascii_of_month hmon
      have hbytes := encode_fromUtf8Lossy_of_ascii hascii
      obtain ⟨hlt, -⟩ := List.getElem?_eq_some_iff.mp hm
      have hmonths : months.length = 12 := rfl
      obtain ⟨h1, h2, h3, h4⟩ := hvalid
      refine ⟨⟨by dsimp only; omega, ⟨by dsimp only; omega, by dsimp only; omega⟩, ⟨h1, h2⟩, h3, h4,
        rfl⟩, fromUtf8Lossy [w3, w4, w5], hm, ?_⟩
      have hdiv : (century * 100 + years) / 100 = century := by omega
      have hmod : (century * 100 + years) % 100 = years := by omega
      simp only [stamp, hdiv, hmod, ← hday, ← hcentury, ← hyears, ← hhour, ← hminute, hbytes]
      rfl
    · rintro ⟨⟨hy, ⟨hm1, hm12⟩, ⟨hd1, hd⟩, hh, hmin, hsec⟩, mon, hm, hw⟩
      obtain ⟨hmon3, hascii⟩ := ascii_of_month (List.mem_of_getElem? hm)
      obtain ⟨x, y, z, hmon⟩ := List.length_eq_three.mp hmon3
      have hbytes : encode mon = [UInt8.ofNat x.toNat, UInt8.ofNat y.toNat, UInt8.ofNat z.toNat] := by
        rw [encode_ascii hascii, hmon]
        rfl
      have hread : fromUtf8Lossy [UInt8.ofNat x.toNat, UInt8.ofNat y.toNat, UInt8.ofNat z.toNat] =
          mon := by
        rw [← hbytes, fromUtf8Lossy_encode]
      have hday := daysInMonth_le d.year d.month
      rw [stamp, hbytes] at hw
      simp only [digits, List.cons_append, List.nil_append, List.cons.injEq, and_true] at hw
      obtain ⟨rfl, rfl, rfl, rfl, rfl, rfl, rfl, rfl, rfl, rfl, rfl, rfl, rfl, rfl, -, rfl, rfl⟩ := hw
      refine ⟨⟨rfl, rfl, rfl⟩, d.day, ⟨by omega, rfl⟩, d.month - 1, by rwa [hread], d.year / 100,
        ⟨by omega, rfl⟩, d.year % 100, ⟨by omega, rfl⟩, d.hour, ⟨by omega, rfl⟩, d.minute,
        ⟨by omega, rfl⟩, ?_⟩
      have hyear : d.year / 100 * 100 + d.year % 100 = d.year := by omega
      have hmonth : d.month - 1 + 1 = d.month := by omega
      rw [hyear, hmonth, ← hsec]
      exact ⟨⟨hd1, hd, hh, hmin⟩, rfl⟩

theorem length_of_isStamp {colon : UInt8} {w : Bytes} {d : DateTime} (h : IsStamp colon w d) :
    w.length = 17 := by
  obtain ⟨-, mon, hm, rfl⟩ := h
  obtain ⟨hmon3, hascii⟩ := ascii_of_month (List.mem_of_getElem? hm)
  simp [stamp, digits, encode_ascii hascii, hmon3]

theorem colon_of_isStamp {colon : UInt8} {w : Bytes} {d : DateTime} (h : IsStamp colon w d) :
    w.getD 14 0 = colon := by
  obtain ⟨-, mon, hm, rfl⟩ := h
  obtain ⟨hmon3, hascii⟩ := ascii_of_month (List.mem_of_getElem? hm)
  obtain ⟨x, y, z, rfl⟩ := List.length_eq_three.mp hmon3
  rw [stamp, encode_ascii hascii]
  rfl

theorem reads_of_isStamp {colon : UInt8} {w : Bytes} {d : DateTime} (h : IsStamp colon w d) :
    Looks w ∧ dateAt w = some d := by
  refine (dateAt_iff (length_of_isStamp h)).mpr ?_
  rwa [colon_of_isStamp h]

/-! ## The scan -/

def window (bytes : Bytes) (i : ℕ) : Bytes := (bytes.drop i).take 17

/-- The loop stops at this position: it looks like a stamp, and does not end the text. -/
def Stops (bytes : Bytes) (i : ℕ) : Prop := i + 17 < bytes.length ∧ Looks (window bytes i)

/-- The first stamp of the text. -/
def FirstStamp (bytes : Bytes) (d : DateTime) : Prop :=
  ∃ i, IsStamp 0x3a (window bytes i) d ∧ ∀ j < i, ∀ d', ¬IsStamp 0x3a (window bytes j) d'

open Classical in
theorem exists_first_stop {bytes : Bytes} (h : ∃ i, Stops bytes i) :
    ∃ i, Stops bytes i ∧ ∀ j < i, ¬Stops bytes j :=
  ⟨Nat.find h, Nat.find_spec h, fun _ hj => Nat.find_min h hj⟩

theorem looks_take {bytes : Bytes} : Looks (bytes.take 17) ↔ Looks bytes := by
  simp [Looks, List.getD_eq_getElem?_getD]

theorem findDateFrom_of_stops {bytes : Bytes} {i : ℕ} (h : Stops bytes i)
    (hfirst : ∀ j < i, ¬Stops bytes j) : findDateFrom bytes = dateAt (window bytes i) := by
  induction bytes generalizing i with
  | nil => exact absurd h.1 (by simp)
  | cons b rest ih =>
    have hlen := h.1
    rw [findDateFrom, if_neg (by omega)]
    cases i with
    | zero => exact if_pos (looks_take.mp h.2)
    | succ i =>
      have hhead : ¬Looks (b :: rest) := fun hlooks =>
        hfirst 0 (by omega) ⟨by omega, looks_take.mpr hlooks⟩
      refine (if_neg hhead).trans (ih ⟨by simp at hlen; omega, h.2⟩ fun j hj hstops => ?_)
      have hinside := hstops.1
      exact hfirst (j + 1) (by omega) ⟨by simp; omega, hstops.2⟩

theorem findDateFrom_of_no_stop {bytes : Bytes} (h : ∀ i, ¬Stops bytes i) :
    findDateFrom bytes = none := by
  induction bytes with
  | nil => rfl
  | cons b rest ih =>
    rw [findDateFrom]
    split_ifs with hlen hlooks
    · rfl
    · exact absurd ⟨by omega, looks_take.mpr hlooks⟩ (h 0)
    · refine ih fun i hstops => ?_
      have hinside := hstops.1
      exact h (i + 1) ⟨by simp; omega, hstops.2⟩

section

variable {bytes : Bytes} {i : ℕ} {d d' : DateTime}

theorem inside_of_isStamp {colon : UInt8} (h : IsStamp colon (window bytes i) d) :
    i + 17 ≤ bytes.length := by
  have hlen := length_of_isStamp h
  simp only [window, List.length_take, List.length_drop] at hlen
  omega

/-- The loop stops at a stamp, unless it ends the text. -/
theorem stops_of_isStamp {colon : UInt8} (h : IsStamp colon (window bytes i) d)
    (hlt : i + 17 < bytes.length) : Stops bytes i := ⟨hlt, (reads_of_isStamp h).1⟩

theorem firstStamp_unique (h : FirstStamp bytes d) (h' : FirstStamp bytes d') : d = d' := by
  obtain ⟨i, hi, hfirst⟩ := h
  obtain ⟨j, hj, hfirst'⟩ := h'
  obtain rfl : i = j := by
    by_contra hne
    rcases lt_or_gt_of_ne hne with hlt | hlt
    · exact hfirst' i hlt d hi
    · exact hfirst j hlt d' hj
  exact Option.some.inj ((reads_of_isStamp hi).2.symm.trans (reads_of_isStamp hj).2)

open Classical in
theorem exists_firstStamp (h : IsStamp 0x3a (window bytes i) d) : ∃ d, FirstStamp bytes d := by
  have hsome : ∃ i, ∃ d, IsStamp 0x3a (window bytes i) d := ⟨i, d, h⟩
  obtain ⟨d, hd⟩ := Nat.find_spec hsome
  exact ⟨d, Nat.find hsome, hd, fun j hj d' hstamp => Nat.find_min hsome hj ⟨d', hstamp⟩⟩

theorem no_firstStamp_iff : (∀ d, ¬FirstStamp bytes d) ↔
    ∀ i d, ¬IsStamp 0x3a (window bytes i) d := by
  constructor
  · intro h i d hstamp
    obtain ⟨d', hfirst⟩ := exists_firstStamp hstamp
    exact h d' hfirst
  · rintro h d ⟨i, hi, -⟩
    exact h i d hi

/-- Where the loop stops at a stamp, it is the first one. -/
theorem firstStamp_of_stops (h : IsStamp 0x3a (window bytes i) d) (hstops : Stops bytes i)
    (hfirst : ∀ j < i, ¬Stops bytes j) : FirstStamp bytes d := by
  refine ⟨i, h, fun j hj d' hstamp => hfirst j hj (stops_of_isStamp hstamp ?_)⟩
  have hinside := hstops.1
  omega

/-- Without a stop, only a stamp at the end of the text is missed. -/
theorem no_stamp_iff (h : ∀ i, ¬Stops bytes i) : (∀ i d, ¬IsStamp 0x3a (window bytes i) d) ↔
    ∀ d, ¬IsStamp 0x3a (window bytes (bytes.length - 17)) d := by
  refine ⟨fun hnone => hnone _, fun hlast i d hstamp => ?_⟩
  have hinside := inside_of_isStamp hstamp
  rcases hinside.lt_or_eq with hlt | heq
  · exact h i (stops_of_isStamp hstamp hlt)
  · refine hlast d ?_
    rwa [← heq, Nat.add_sub_cancel]

/-- The first look-alike decides. -/
theorem findDateFrom_iff_of_stops (hstops : Stops bytes i) (hfirst : ∀ j < i, ¬Stops bytes j) :
    (∀ d, findDateFrom bytes = some d ↔ FirstStamp bytes d) ↔
      (∃ d, IsStamp 0x3a (window bytes i) d) ∨
      ((∀ colon d, ¬IsStamp colon (window bytes i) d) ∧
        ∀ j d, ¬IsStamp 0x3a (window bytes j) d) ∨
      ∃ colon d, colon ≠ 0x3a ∧ IsStamp colon (window bytes i) d ∧ FirstStamp bytes d := by
  have hlen : (window bytes i).length = 17 := by
    have hinside := hstops.1
    simp only [window, List.length_take, List.length_drop]
    omega
  have hread := findDateFrom_of_stops hstops hfirst
  rcases hdate : dateAt (window bytes i) with _ | d
  · have hno : ∀ colon d, ¬IsStamp colon (window bytes i) d := by
      intro colon d hstamp
      rw [(reads_of_isStamp hstamp).2] at hdate
      cases hdate
    have hnot : ¬∃ d, IsStamp 0x3a (window bytes i) d := fun ⟨d, h⟩ => hno _ d h
    have hnot' : ¬∃ colon d, colon ≠ 0x3a ∧ IsStamp colon (window bytes i) d ∧
        FirstStamp bytes d := fun ⟨colon, d, _, h, _⟩ => hno colon d h
    rw [hread, hdate, or_iff_right hnot, or_iff_left hnot', and_iff_right hno,
      ← no_firstStamp_iff]
    exact forall_congr' fun d => by simp
  · have hstamp := (dateAt_iff hlen).mp ⟨hstops.2, hdate⟩
    rw [hread, hdate]
    by_cases hcolon : (window bytes i).getD 14 0 = 0x3a
    · rw [hcolon] at hstamp
      have hthis := firstStamp_of_stops hstamp hstops hfirst
      refine iff_of_true (fun d' => ?_) (Or.inl ⟨d, hstamp⟩)
      rw [Option.some.injEq]
      exact ⟨fun heq => heq ▸ hthis, firstStamp_unique hthis⟩
    · constructor
      · intro h
        exact Or.inr (Or.inr ⟨_, d, hcolon, hstamp, (h d).mp rfl⟩)
      · rintro (⟨d', h⟩ | ⟨hno, -⟩ | ⟨colon, d', -, h, hthis⟩) d''
        · exact absurd (colon_of_isStamp h) hcolon
        · exact absurd hstamp (hno _ d)
        · obtain rfl := Option.some.inj (hdate.symm.trans (reads_of_isStamp h).2)
          rw [Option.some.injEq]
          exact ⟨fun heq => heq ▸ hthis, firstStamp_unique hthis⟩

end

/-- The first date of a text is found exactly where the first look-alike before the end of the text
is a stamp, or is none and there is no stamp at all, or lacks the colon only and is of the date of
the first stamp; and, where there is no look-alike, the end of the text is no stamp. -/
theorem findDate_iff (t : Text) : (∀ d, findDate t = some d ↔ FirstStamp (encode t) d) ↔
    ((∀ i, ¬Stops (encode t) i) ∧
      ∀ d, ¬IsStamp 0x3a (window (encode t) ((encode t).length - 17)) d) ∨
    ∃ i, Stops (encode t) i ∧ (∀ j < i, ¬Stops (encode t) j) ∧
      ((∃ d, IsStamp 0x3a (window (encode t) i) d) ∨
        ((∀ colon d, ¬IsStamp colon (window (encode t) i) d) ∧
          ∀ j d, ¬IsStamp 0x3a (window (encode t) j) d) ∨
        ∃ colon d, colon ≠ 0x3a ∧ IsStamp colon (window (encode t) i) d ∧
          FirstStamp (encode t) d) := by
  unfold findDate
  generalize encode t = bytes
  by_cases hstop : ∃ i, Stops bytes i
  · obtain ⟨i, hi, hfirst⟩ := exists_first_stop hstop
    rw [findDateFrom_iff_of_stops hi hfirst]
    constructor
    · exact fun h => Or.inr ⟨i, hi, hfirst, h⟩
    · rintro (⟨hno, -⟩ | ⟨j, hj, hfirst', h⟩)
      · exact absurd hi (hno i)
      obtain rfl : i = j := by
        by_contra hne
        rcases lt_or_gt_of_ne hne with hlt | hlt
        · exact hfirst' i hlt hi
        · exact hfirst j hlt hj
      exact h
  · have hno : ∀ i, ¬Stops bytes i := fun i hi => hstop ⟨i, hi⟩
    have hnone := findDateFrom_of_no_stop hno
    rw [hnone, or_iff_left fun h => hstop ⟨h.choose, h.choose_spec.1⟩, and_iff_right hno,
      ← no_stamp_iff hno, ← no_firstStamp_iff]
    exact forall_congr' fun d => by simp

/-- A stamp at the end of the text is not found. -/
theorem last_stamp_missed : findDate "16-Aug-2026 10:00".toList = none ∧
    ¬∀ t d, findDate t = some d ↔ FirstStamp (encode t) d := by
  have hnone : findDate "16-Aug-2026 10:00".toList = none := by decide +kernel
  refine ⟨hnone, fun h => ?_⟩
  have hvalid : DateTime.Valid ⟨2026, 8, 16, 10, 0, 0⟩ := by
    unfold DateTime.Valid
    decide
  have hstamp : IsStamp 0x3a (window (encode "16-Aug-2026 10:00".toList) 0)
      ⟨2026, 8, 16, 10, 0, 0⟩ :=
    ⟨hvalid, "Aug".toList, by decide +kernel, by decide +kernel⟩
  have hfound := (h _ _).mpr ⟨0, hstamp, fun j hj => absurd hj (Nat.not_lt_zero j)⟩
  rw [hnone] at hfound
  cases hfound

end Synora.Mirror
