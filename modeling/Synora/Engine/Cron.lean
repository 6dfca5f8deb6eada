import Synora.Engine.Schedule
import Synora.Lib.Civil
import Synora.Lib.Utf8

namespace Synora.Engine
open Strings Civil

/-! ## Cron fields -/

structure FieldPart where
  min : ℕ
  max : ℕ
  step : ℕ
deriving DecidableEq, Repr

def FieldPart.matches (p : FieldPart) (v : ℕ) : Bool :=
  decide (p.min ≤ v ∧ v ≤ p.max ∧ (v - p.min) % p.step = 0)

abbrev CronField := List FieldPart

/-- The part is the field's `*`. -/
def isFullRange (field : CronField) (lo hi : ℕ) : Bool := decide (field = [⟨lo, hi, 1⟩])

def fieldMatches (field : CronField) (v : ℕ) : Bool := field.any fun p => p.matches v

/-- `parse::<u32>` -/
def parseU32 (t : Text) : Option ℕ :=
  let digits := (stripPrefix "+".toList t).getD t
  if digits.isEmpty ∨ ¬digits.all Char.isDigit then none
  else
    let n := digits.foldl (fun n c => n * 10 + (c.toNat - '0'.toNat)) 0
    if n < 2 ^ 32 then some n else none

def monthNames : List (Text × ℕ) :=
  [("jan", 1), ("feb", 2), ("mar", 3), ("apr", 4), ("may", 5), ("jun", 6), ("jul", 7), ("aug", 8),
    ("sep", 9), ("oct", 10), ("nov", 11), ("dec", 12)].map fun e => (String.toList e.1, e.2)

def weekdayNames : List (Text × ℕ) :=
  [("sun", 0), ("mon", 1), ("tue", 2), ("wed", 3), ("thu", 4), ("fri", 5), ("sat", 6)].map
    fun e => (String.toList e.1, e.2)

/-- A number or a name; in the weekday field a written 7 is Sunday. -/
def resolveValue (s : Text) (names : List (Text × ℕ)) (v : Text) : Except Text ℕ :=
  let isDow := decide (names.head?.map Prod.fst = some "sun".toList)
  match parseU32 v with
  | some n => .ok (if isDow && decide (n = 7) then 0 else n)
  | none =>
    let lower := toAsciiLowercase v
    match names.find? fun e => decide (3 ≤ (Utf8.encode lower).length) &&
        (lower.isPrefixOf e.1 || e.1.isPrefixOf lower) with
    | some e => .ok e.2
    | none => .error ("invalid cron value `".toList ++ v ++ "` in `".toList ++ s ++ "`".toList)

/-- One element of the comma-separated list. -/
def parsePart (s : Text) (lo hi : ℕ) (names : List (Text × ℕ)) (chunk : Text) :
    Except Text FieldPart := do
  if chunk.isEmpty then
    throw ("invalid cron field `".toList ++ s ++ "`: empty list element".toList)
  let (range, step) ← match splitOnce "/".toList chunk with
    | some (r, st) =>
      match parseU32 st with
      | none => throw ("invalid cron step `".toList ++ st ++ "` in `".toList ++ s ++ "`".toList)
      | some step =>
        if step = 0 then throw ("invalid cron step 0 in `".toList ++ s ++ "`".toList)
        else pure (r, step)
    | none => pure (chunk, 1)
  let (a, b) := (splitOnce "-".toList range).getD (range, range)
  let a ← if a = "*".toList then pure lo else resolveValue s names a
  let b ← if b = "*".toList then pure hi else resolveValue s names b
  if b < a then
    throw ("invalid cron range `".toList ++ range ++ "` in `".toList ++ s ++
      "`: start > end".toList)
  if a < lo ∨ hi < b then
    throw ("invalid cron value in `".toList ++ s ++ "`: ".toList ++ range ++ " outside ".toList ++
      (toString lo).toList ++ "-".toList ++ (toString hi).toList)
  pure ⟨a, b, step⟩

def parseField (s : Text) (lo hi : ℕ) (names : List (Text × ℕ)) : Except Text CronField :=
  (s.splitOn ',').mapM (parsePart s lo hi names)

/-! ## Cron expressions -/

structure CronExpr where
  minute : CronField
  hour : CronField
  dom : CronField
  month : CronField
  dow : CronField
deriving DecidableEq, Repr

def CronExpr.parse (expr : Text) : Except Text CronExpr :=
  match splitWhitespace expr with
  | [sec, min, hour, dom, mon, dow] =>
    if sec ≠ "0".toList ∧ sec ≠ "*".toList then
      throw ("second-level cron `".toList ++ sec ++
        "` is not supported (scheduling is minute-granular)".toList)
    else do
      pure ⟨← parseField min 0 59 [], ← parseField hour 0 23 [], ← parseField dom 1 31 [],
        ← parseField mon 1 12 monthNames, ← parseField dow 0 7 weekdayNames⟩
  | fields => throw ("expected 6 fields `sec min hour dom mon dow`, got ".toList ++
      (toString fields.length).toList)

/-- Days since Sunday. -/
def dowNum (day : ℤ) : ℕ := ((day + 4) % 7).toNat

/-- The minute of wall time `w` is one of the expression's. -/
def CronExpr.matches (c : CronExpr) (w : ℤ) : Bool :=
  let date := ofDay (w / 86400)
  let dow := dowNum (w / 86400)
  let dayOk :=
    match !isFullRange c.dom 1 31, !isFullRange c.dow 0 7 with
    -- when both are restricted, either may match
    | true, true => fieldMatches c.dom date.day.toNat || fieldMatches c.dow dow
    | true, false => fieldMatches c.dom date.day.toNat
    | false, true => fieldMatches c.dow dow
    | false, false => true
  fieldMatches c.month date.month.toNat && dayOk &&
    fieldMatches c.hour (w % 86400 / 3600).toNat && fieldMatches c.minute (w % 3600 / 60).toNat

/-- The expression with six fields, seconds first; a year field must be `*`. -/
def normalizeCron (expr : Text) : Except Text Text :=
  let fields := splitWhitespace expr
  match fields.length with
  | 5 => .ok ("0 ".toList ++ expr)
  | 6 => .ok expr
  | 7 =>
    if fields.getLast? = some "*".toList then .ok (" ".toList.intercalate (fields.take 6))
    else .error ("year-restricted cron `".toList ++ expr ++ "` is not supported".toList)
  | n => .error ("invalid cron expression `".toList ++ expr ++
      "`: expected 5 fields, got ".toList ++ (toString n).toList)

def parseCronExpr (expr : Text) : Except Text Text :=
  match normalizeCron expr with
  | .error e => .error e
  | .ok normalized =>
    match CronExpr.parse normalized with
    | .ok _ => .ok normalized
    | .error e => .error ("invalid cron expression `".toList ++ expr ++ "`: ".toList ++ e)

theorem parseCronExpr_eq_ok {expr normalized : Text} : parseCronExpr expr = .ok normalized ↔
    normalizeCron expr = .ok normalized ∧ ∃ c, CronExpr.parse normalized = .ok c := by
  unfold parseCronExpr
  rcases normalizeCron expr with e | n
  · exact iff_of_false nofun nofun
  · rcases hparse : CronExpr.parse n with e | c
    · refine iff_of_false (by simp [hparse]) ?_
      rintro ⟨hn, c, hc⟩
      rw [← Except.ok.inj hn, hparse] at hc
      cases hc
    · simp only [hparse, Except.ok.injEq]
      exact ⟨fun h => ⟨h, c, h ▸ hparse⟩, fun h => h.1⟩

example : (CronExpr.parse "0 0 0 29 2 *".toList).toOption.map (fun c => c.matches 1835395200) =
    some true := by decide +kernel

end Synora.Engine
