import Synora.Storage.Snapshots

namespace Synora.Storage
open Strings Utf8 Civil

/-! ## The order of digits -/

theorem append_lt {a b x y : Text} (h : a < b) (hlen : a.length = b.length) : a ++ x < b ++ y := by
  induction a generalizing b with
  | nil =>
    rw [List.length_nil, eq_comm, List.length_eq_zero_iff] at hlen
    rw [hlen] at h
    exact absurd h (List.lt_irrefl [])
  | cons c a ih =>
    cases b with
    | nil => cases hlen
    | cons d b =>
      rw [List.cons_lt_cons_iff] at h
      rw [List.cons_append, List.cons_append, List.cons_lt_cons_iff]
      refine h.imp_right fun h => ⟨h.1, ih h.2 ?_⟩
      simpa using hlen

theorem digit_lt {m n : ℕ} (h : m % 10 < n % 10) : digit m < digit n := by
  have hdigits : ∀ a < 10, ∀ b < 10, a < b →
      Char.ofNat ('0'.toNat + a) < Char.ofNat ('0'.toNat + b) := by decide
  exact hdigits _ (Nat.mod_lt m (by decide)) _ (Nat.mod_lt n (by decide)) h

theorem digit_congr {m n : ℕ} (h : m % 10 = n % 10) : digit m = digit n := by
  unfold digit
  rw [h]

theorem twoDigits_lt {m n : ℕ} (h : m < n) (hn : n < 100) : twoDigits m < twoDigits n := by
  unfold twoDigits
  rw [List.cons_lt_cons_iff, List.cons_lt_cons_iff]
  rcases Nat.lt_or_ge (m / 10) (n / 10) with hlt | hge
  · exact Or.inl (digit_lt (by omega))
  · exact Or.inr ⟨digit_congr (by omega), Or.inl (digit_lt (by omega))⟩

theorem twoDigits_mod (k : ℕ) : twoDigits k = twoDigits (k % 100) := by
  unfold twoDigits
  rw [digit_congr (by omega : k / 10 % 10 = k % 100 / 10 % 10),
    digit_congr (by omega : k % 10 = k % 100 % 10)]

theorem fourDigits_lt {m n : ℕ} (h : m < n) (hn : n < 10000) : fourDigits m < fourDigits n := by
  unfold fourDigits
  rcases Nat.lt_or_ge (m / 100) (n / 100) with hlt | hge
  · exact append_lt (twoDigits_lt hlt (by omega)) rfl
  · have heq : m / 100 = n / 100 := by omega
    rw [heq, twoDigits_mod m, twoDigits_mod n]
    exact List.append_left_lt (twoDigits_lt (by omega) (by omega))

/-! ## Names and times -/

/-- The six numbers of a name. -/
structure Stamp where
  year : ℕ
  month : ℕ
  day : ℕ
  hour : ℕ
  minute : ℕ
  second : ℕ

namespace Stamp

def date (s : Stamp) : Date := ⟨s.year, s.month, s.day⟩

def dateText (s : Stamp) : Text := fourDigits s.year ++ twoDigits s.month ++ twoDigits s.day

def timeText (s : Stamp) : Text := twoDigits s.hour ++ twoDigits s.minute ++ twoDigits s.second

def name (s : Stamp) (tail : Text) : Text :=
  "synora-".toList ++ (s.dateText ++ '-' :: (s.timeText ++ tail))

/-- The numbers are those of a second of the calendar. -/
structure Valid (s : Stamp) : Prop where
  year : s.year < 10000
  date : s.date.Valid
  hour : s.hour < 24
  minute : s.minute < 60
  second : s.second < 60

/-- Seconds of the day. -/
def clock (s : Stamp) : ℕ := s.hour * 3600 + s.minute * 60 + s.second

/-- Seconds of the local time. -/
def time (s : Stamp) : ℤ := s.date.toDay * 86400 + s.clock

theorem Valid.clock_lt {s : Stamp} (h : s.Valid) : s.clock < 86400 := by
  have := h.hour
  have := h.minute
  have := h.second
  unfold clock
  omega

theorem Valid.bounds {s : Stamp} (h : s.Valid) : s.month < 100 ∧ s.day < 100 := by
  obtain ⟨-, ⟨-, hmonth, -, hday⟩, -, -, -⟩ := h
  have hdays : daysInMonth s.date.year s.date.month ≤ 31 := by
    unfold daysInMonth
    split_ifs <;> omega
  have hm : (s.date.month : ℤ) = s.month := rfl
  have hd : (s.date.day : ℤ) = s.day := rfl
  omega

theorem dateText_lt {s t : Stamp} (ht : t.Valid) (h : s.date.Before t.date) :
    s.dateText < t.dateText := by
  obtain ⟨hmonth, hday⟩ := ht.bounds
  have hyear := ht.year
  have hbefore : s.year < t.year ∨ s.year = t.year ∧
      (s.month < t.month ∨ s.month = t.month ∧ s.day < t.day) := by
    unfold Date.Before Stamp.date at h
    simp only at h
    omega
  unfold dateText
  rcases hbefore with hlt | ⟨heq, hlt | ⟨heq', hlt⟩⟩
  · rw [List.append_assoc, List.append_assoc]
    exact append_lt (fourDigits_lt hlt hyear) rfl
  · rw [heq, List.append_assoc, List.append_assoc]
    exact List.append_left_lt (append_lt (twoDigits_lt hlt hmonth) rfl)
  · rw [heq, heq']
    exact List.append_left_lt (twoDigits_lt hlt hday)

theorem timeText_lt {s t : Stamp} (hs : s.Valid) (ht : t.Valid)
    (h : s.clock < t.clock) : s.timeText < t.timeText := by
  have hbefore : s.hour < t.hour ∨ s.hour = t.hour ∧
      (s.minute < t.minute ∨ s.minute = t.minute ∧ s.second < t.second) := by
    have := hs.minute
    have := hs.second
    have := ht.minute
    have := ht.second
    unfold clock at h
    omega
  have hhour := ht.hour
  have hminute := ht.minute
  have hsecond := ht.second
  unfold timeText
  rcases hbefore with hlt | ⟨heq, hlt | ⟨heq', hlt⟩⟩
  · rw [List.append_assoc, List.append_assoc]
    exact append_lt (twoDigits_lt hlt (by omega)) rfl
  · rw [heq, List.append_assoc, List.append_assoc]
    exact List.append_left_lt (append_lt (twoDigits_lt hlt (by omega)) rfl)
  · rw [heq, heq']
    exact List.append_left_lt (twoDigits_lt hlt (by omega))

/-- Names are in the order of their times. -/
theorem name_lt {s t : Stamp} (hs : s.Valid) (ht : t.Valid) (h : s.time < t.time)
    (tail tail' : Text) : s.name tail < t.name tail' := by
  have hsecond := hs.clock_lt
  have hsecond' := ht.clock_lt
  unfold time at h
  apply List.append_left_lt
  by_cases hbefore : s.date.Before t.date
  · exact append_lt (dateText_lt ht hbefore) rfl
  · have hcases : s.date = t.date ∨ t.date.Before s.date := by
      unfold Date.Before at hbefore ⊢
      generalize s.date = d at hbefore
      generalize t.date = e at hbefore
      rw [Date.mk.injEq]
      omega
    rcases hcases with heq | hlater
    · have htext : s.dateText = t.dateText := by
        unfold Stamp.date at heq
        rw [Date.mk.injEq] at heq
        obtain ⟨hy, hm, hd⟩ := heq
        unfold dateText
        rw [Nat.cast_inj.mp hy, Nat.cast_inj.mp hm, Nat.cast_inj.mp hd]
      rw [heq] at h
      rw [htext]
      apply List.append_left_lt
      rw [List.cons_lt_cons_iff]
      refine Or.inr ⟨rfl, append_lt (timeText_lt hs ht (by omega)) rfl⟩
    · have := toDay_lt ht.date hs.date hlater
      omega

/-- A name of six numbers is read back, or is no name. -/
theorem parse_name_iff {s : Stamp} {tail : Text} (hyear : s.year < 10000) (hmonth : s.month < 100)
    (hday : s.day < 100) (hhour : s.hour < 100) (hminute : s.minute < 100)
    (hsecond : s.second < 100) (htail : Suffix tail) {t : ℤ} :
    parseSnapshotName (s.name tail) = some t ↔ s.Valid ∧ t = s.time := by
  have hparse := parseSnapshotName_digits s.year s.month s.day s.hour s.minute s.second hyear hmonth
    hday hhour hminute hsecond htail
  have hname : s.name tail = "synora-".toList ++ (fourDigits s.year ++ twoDigits s.month ++
      twoDigits s.day ++ '-' :: (twoDigits s.hour ++ twoDigits s.minute ++ twoDigits s.second ++
        tail)) := rfl
  rw [hname, hparse, Option.bind_eq_some_iff]
  constructor
  · rintro ⟨day, hdate, hrest⟩
    obtain ⟨second, hclock, ht⟩ := Option.bind_eq_some_iff.mp hrest
    unfold fromCalendarDate at hdate
    unfold fromHms at hclock
    rw [Option.ite_none_right_eq_some, Option.some.injEq] at hdate hclock
    refine ⟨⟨hyear, hdate.1.2.2, hclock.1.1, hclock.1.2.1, hclock.1.2.2⟩, ?_⟩
    rw [Option.some.injEq, ← hdate.2, ← hclock.2] at ht
    rw [← ht, time, clock]
    push_cast
    rfl
  · rintro ⟨hvalid, rfl⟩
    refine ⟨s.date.toDay, ?_, ?_⟩
    · unfold fromCalendarDate
      simp only
      rw [if_pos ⟨by omega, by omega, hvalid.date⟩]
      rfl
    · unfold fromHms
      rw [if_pos ⟨hvalid.hour, hvalid.minute, hvalid.second⟩, Option.bind_some, time, clock]
      push_cast
      rfl

theorem Valid.parse_name {s : Stamp} (h : s.Valid) {tail : Text} (htail : Suffix tail) :
    parseSnapshotName (s.name tail) = some s.time := by
  obtain ⟨hmonth, hday⟩ := h.bounds
  have := h.hour
  have := h.minute
  have := h.second
  exact (parse_name_iff h.year hmonth hday (by omega) (by omega) (by omega) htail).mpr ⟨h, rfl⟩

/-- The numbers of an instant. -/
def ofTime (now : ℤ) : Stamp :=
  let date := ofDay (now / 86400)
  let second := (now % 86400).toNat
  ⟨date.year.natAbs, date.month.toNat, date.day.toNat, second / 3600, second / 60 % 60,
    second % 60⟩

section
variable {now : ℤ} (h0 : 0 ≤ (ofDay (now / 86400)).year)
include h0

theorem ofTime_date : (ofTime now).date = ofDay (now / 86400) := by
  obtain ⟨hmonth, -, hday, -⟩ := ofDay_valid (now / 86400)
  unfold ofTime Stamp.date
  simp only
  generalize ofDay (now / 86400) = d at *
  rw [Date.mk.injEq]
  omega

theorem ofTime_time : (ofTime now).time = now := by
  unfold time
  rw [ofTime_date h0, toDay_ofDay]
  unfold clock ofTime
  simp only
  omega

theorem ofTime_valid (h1 : (ofDay (now / 86400)).year ≤ 9999) : (ofTime now).Valid where
  year := by
    unfold ofTime
    simp only
    omega
  date := by
    rw [ofTime_date h0]
    exact ofDay_valid _
  hour := by
    unfold ofTime
    simp only
    omega
  minute := Nat.mod_lt _ (by decide)
  second := Nat.mod_lt _ (by decide)

theorem snapshotName_eq (runId : Text) :
    snapshotName now runId = (ofTime now).name ('-' :: runId) := by
  unfold snapshotName formatName
  simp only [not_lt.mpr h0, ↓reduceIte, List.nil_append]
  rfl

end

end Stamp

/-! ## Names of digits -/

/-- `synora-YYYYMMDD-HHMMSS`, all digits, with or without a run's identifier behind it. -/
def DigitName (name : Text) : Prop :=
  ∃ date time tail, name = "synora-".toList ++ (date ++ '-' :: (time ++ tail)) ∧
    date.length = 8 ∧ time.length = 6 ∧ date.all Char.isDigit ∧ time.all Char.isDigit ∧ Suffix tail

theorem digit_of_isDigit {c : Char} (h : c.isDigit) : digit (c.toNat - 48) = c := by
  have hbounds : 48 ≤ c.toNat ∧ c.toNat ≤ 57 := by
    rw [Char.isDigit, Bool.and_eq_true, decide_eq_true_eq, decide_eq_true_eq] at h
    exact h
  have hchars : ∀ k < 10, Char.ofNat ('0'.toNat + k) = Char.ofNat (48 + k) := fun _ _ => rfl
  unfold digit
  rw [Nat.mod_eq_of_lt (by omega), hchars _ (by omega), Nat.add_sub_cancel' hbounds.1,
    Char.ofNat_toNat]

theorem value_of_isDigit {c : Char} (h : c.isDigit) : c.toNat - 48 < 10 := by
  rw [Char.isDigit, Bool.and_eq_true, decide_eq_true_eq, decide_eq_true_eq] at h
  have : c.toNat ≤ 57 := h.2
  omega

theorem twoDigits_of_isDigit {c d : Char} (hc : c.isDigit) (hd : d.isDigit) :
    twoDigits ((c.toNat - 48) * 10 + (d.toNat - 48)) = [c, d] := by
  have hc' := value_of_isDigit hc
  have hd' := value_of_isDigit hd
  unfold twoDigits
  generalize hm : c.toNat - 48 = m at hc'
  generalize hn : d.toNat - 48 = n at hd'
  rw [digit_congr (by omega : (m * 10 + n) / 10 % 10 = m % 10),
    digit_congr (by omega : (m * 10 + n) % 10 = n % 10), ← hm, ← hn, digit_of_isDigit hc,
    digit_of_isDigit hd]

theorem exists_twoDigits {c d : Char} (hc : c.isDigit) (hd : d.isDigit) :
    ∃ n < 100, twoDigits n = [c, d] := by
  have hc' := value_of_isDigit hc
  have hd' := value_of_isDigit hd
  exact ⟨_, by omega, twoDigits_of_isDigit hc hd⟩

theorem exists_fourDigits {a b c d : Char} (ha : a.isDigit) (hb : b.isDigit) (hc : c.isDigit)
    (hd : d.isDigit) : ∃ n < 10000, fourDigits n = [a, b, c, d] := by
  obtain ⟨m, hm, hab⟩ := exists_twoDigits ha hb
  obtain ⟨n, hn, hcd⟩ := exists_twoDigits hc hd
  refine ⟨m * 100 + n, by omega, ?_⟩
  unfold fourDigits
  have hhigh : (m * 100 + n) / 100 = m := by omega
  have hlow : (m * 100 + n) % 100 = n := by omega
  rw [hhigh, twoDigits_mod (m * 100 + n), hlow, hab, hcd]
  rfl

/-- A name of digits is the name of six numbers. -/
theorem DigitName.exists_stamp {name : Text} (h : DigitName name) : ∃ (s : Stamp) (tail : Text),
    name = s.name tail ∧ Suffix tail ∧
      ∀ t, parseSnapshotName name = some t ↔ s.Valid ∧ t = s.time := by
  obtain ⟨date, time, tail, rfl, hdate, htime, hdigits, hdigits', htail⟩ := h
  match date, hdate with
  | [a, b, c, d, e, f, g, h], _ =>
    match time, htime with
    | [i, j, k, l, m, n], _ =>
      simp only [List.all_cons, List.all_nil, Bool.and_true, Bool.and_eq_true] at hdigits hdigits'
      obtain ⟨ha, hb, hc, hd, he, hf, hg, hh⟩ := hdigits
      obtain ⟨hi, hj, hk, hl, hm, hn⟩ := hdigits'
      obtain ⟨year, hyear, hyear'⟩ := exists_fourDigits ha hb hc hd
      obtain ⟨month, hmonth, hmonth'⟩ := exists_twoDigits he hf
      obtain ⟨day, hday, hday'⟩ := exists_twoDigits hg hh
      obtain ⟨hour, hhour, hhour'⟩ := exists_twoDigits hi hj
      obtain ⟨minute, hminute, hminute'⟩ := exists_twoDigits hk hl
      obtain ⟨second, hsecond, hsecond'⟩ := exists_twoDigits hm hn
      have hname : "synora-".toList ++ ([a, b, c, d, e, f, g, h] ++
          '-' :: ([i, j, k, l, m, n] ++ tail)) =
          Stamp.name ⟨year, month, day, hour, minute, second⟩ tail := by
        unfold Stamp.name Stamp.dateText Stamp.timeText
        simp only [hyear', hmonth', hday', hhour', hminute', hsecond', List.cons_append,
          List.nil_append]
      refine ⟨⟨year, month, day, hour, minute, second⟩, tail, hname, htail, fun t => ?_⟩
      rw [hname]
      exact Stamp.parse_name_iff hyear hmonth hday hhour hminute hsecond htail

/-- Names of digits are in the order of the times they carry. -/
theorem DigitName.time_le {a b : Text} (ha : DigitName a) (hb : DigitName b) (h : a ≤ b) {t u : ℤ}
    (ht : parseSnapshotName a = some t) (hu : parseSnapshotName b = some u) : t ≤ u := by
  obtain ⟨s, tail, rfl, -, hs⟩ := ha.exists_stamp
  obtain ⟨s', tail', rfl, -, hs'⟩ := hb.exists_stamp
  obtain ⟨hvalid, rfl⟩ := (hs t).mp ht
  obtain ⟨hvalid', rfl⟩ := (hs' u).mp hu
  by_contra hlt
  exact not_lt.mpr h (Stamp.name_lt hvalid' hvalid (not_le.mp hlt) _ _)

/-! ## Names that the program gives -/

/-- The bytes that `validate_name` lets through. -/
def isNameByte (b : UInt8) : Bool :=
  decide ((0x30 ≤ b ∧ b ≤ 0x39) ∨ (0x41 ≤ b ∧ b ≤ 0x5a) ∨ (0x61 ≤ b ∧ b ≤ 0x7a) ∨ b = 0x2d ∨
    b = 0x5f)

theorem validateName_iff {name : Text} : validateName name = true ↔
    0 < (encode name).length ∧ (encode name).length ≤ 200 ∧
      (encode name).all isNameByte = true := by
  unfold validateName
  simp only [Bool.and_eq_true, Bool.not_eq_true', List.isEmpty_eq_false_iff, decide_eq_true_eq,
    ← List.length_pos_iff, and_assoc]
  rfl

theorem digits_isNameByte (ds : List ℕ) : (encode (ds.map digit)).all isNameByte = true := by
  have hall := digits_all ds
  rw [← encode_digits, List.all_eq_true] at hall
  rw [List.all_eq_true]
  intro b hb
  exact decide_eq_true (Or.inl (of_decide_eq_true (hall b hb)))

theorem uuid_isNameByte {runId : Text} (h : IsUuid runId) :
    (encode runId).all isNameByte = true := by
  have hall := List.all_eq_true.mp h.2
  rw [List.all_eq_true]
  intro b hb
  have hbyte := hall b hb
  unfold isAsciiHexDigit at hbyte
  unfold isNameByte
  simp only [Bool.or_eq_true, decide_eq_true_eq, UInt8.le_iff_toNat_le, ← UInt8.toNat_inj,
    UInt8.toNat_ofNat] at hbyte ⊢
  omega

theorem Stamp.name_valid (s : Stamp) {runId : Text} (h : IsUuid runId) :
    validateName (s.name ('-' :: runId)) = true := by
  have hdate : s.dateText = [s.year / 100 / 10, s.year / 100, s.year / 10, s.year, s.month / 10,
      s.month, s.day / 10, s.day].map digit := rfl
  have htime : s.timeText = [s.hour / 10, s.hour, s.minute / 10, s.minute, s.second / 10,
      s.second].map digit := rfl
  have hbytes : encode (s.name ('-' :: runId)) = encode "synora-".toList ++ (encode s.dateText ++
      (encode ['-'] ++ (encode s.timeText ++ (encode ['-'] ++ encode runId)))) := by
    rw [← encode_append, ← encode_append, ← encode_append, ← encode_append, ← encode_append]
    rfl
  rw [validateName_iff, hbytes]
  simp only [List.length_append, List.all_append, Bool.and_eq_true, h.1, uuid_isNameByte h]
  rw [hdate, htime, encode_digits_length, encode_digits_length]
  simp only [digits_isNameByte, List.length_cons, List.length_nil]
  decide

/-- A name encodes the second it was given at: it is read back, the commands accept it, and names
of different seconds are in the order of the instants. Instants are in nanoseconds. -/
theorem names_encode_time {t u : ℤ} {id id' : Text}
    (ht0 : 0 ≤ (ofDay (t / 10 ^ 9 / 86400)).year) (ht1 : (ofDay (t / 10 ^ 9 / 86400)).year ≤ 9999)
    (hu0 : 0 ≤ (ofDay (u / 10 ^ 9 / 86400)).year) (hu1 : (ofDay (u / 10 ^ 9 / 86400)).year ≤ 9999)
    (hid : IsUuid id) :
    parseSnapshotName (snapshotName (t / 10 ^ 9) id) = some (t / 10 ^ 9) ∧
      validateName (snapshotName (t / 10 ^ 9) id) = true ∧
      (t / 10 ^ 9 ≠ u / 10 ^ 9 →
        (snapshotName (t / 10 ^ 9) id < snapshotName (u / 10 ^ 9) id' ↔ t < u)) := by
  rw [Stamp.snapshotName_eq ht0, Stamp.snapshotName_eq hu0]
  have ht := Stamp.ofTime_valid ht0 ht1
  have hu := Stamp.ofTime_valid hu0 hu1
  refine ⟨?_, Stamp.name_valid _ hid, fun hne => ⟨fun hlt => ?_, fun hlt => ?_⟩⟩
  · rw [ht.parse_name (Or.inr ⟨id, hid, rfl⟩), Stamp.ofTime_time ht0]
  · by_contra hge
    have hlater : u / 10 ^ 9 < t / 10 ^ 9 := by omega
    rw [← Stamp.ofTime_time ht0, ← Stamp.ofTime_time hu0] at hlater
    exact List.lt_asymm hlt (Stamp.name_lt hu ht hlater _ _)
  · have hearlier : t / 10 ^ 9 < u / 10 ^ 9 := by omega
    rw [← Stamp.ofTime_time ht0, ← Stamp.ofTime_time hu0] at hearlier
    exact Stamp.name_lt ht hu hearlier _ _

/-- Half a second past noon of 2026-08-16, and the last second of the year 9999. -/
theorem names_encode_time_noon :
    parseSnapshotName (snapshotName 1786881600 productionRunId) = some 1786881600 ∧
      snapshotName 1786881600 productionRunId < snapshotName 253402300799 productionRunId := by
  have hid : IsUuid productionRunId := by
    unfold IsUuid
    decide +kernel
  obtain ⟨hparse, -, horder⟩ := names_encode_time (t := 1786881600500000000)
    (u := 253402300799000000000) (by decide +kernel) (by decide +kernel) (by decide +kernel)
    (by decide +kernel) hid
  exact ⟨hparse, (horder (by decide)).mpr (by decide)⟩

end Synora.Storage
