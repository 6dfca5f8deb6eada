import Synora.Manager.Complete
import Synora.Manager.Identity
import Synora.Mirror.Listing

namespace Synora.Manager
open Strings Utf8

/-! # The end of a job's log -/

/-- The last `n` of some lines. -/
def lastLines (n : ℕ) (ls : List Text) : List Text := ls.drop (ls.length - n)

def joinLines (ls : List Text) : Text := ['\n'].intercalate ls

def tailOfStrSkip (s : Text) (n skipFirst : ℕ) : Text :=
  let ls := lines s
  joinLines (lastLines n (ls.drop (min skipFirst ls.length)))

def tailOfStr (s : Text) (n : ℕ) : Text := tailOfStrSkip s n 0

def tailWindow : ℕ := 4 * 1024 * 1024

/-- A log file as `tail_of_file` finds it, which a run may be writing to: its size when it is asked
for, and what it holds when it is read. -/
structure LogRead where
  size : ℕ
  content : Bytes
deriving DecidableEq

def LogRead.want (f : LogRead) : ℕ := min f.size tailWindow

/-- The bytes behind the position that is sought from the end. -/
def LogRead.window (f : LogRead) : Bytes := f.content.drop (f.content.length - f.want)

def tailOfFile (f : LogRead) (n : ℕ) : Option Text :=
  if f.content.length < f.want then none
  else some (tailOfStrSkip (fromUtf8Lossy f.window) n (if f.size > f.want then 1 else 0))

/-! ## The handler -/

/-- What `job_logs` looks at. -/
structure LogView where
  configured : List Text
  /-- `log_dir.canonicalize()` -/
  logDir : Option (List Text)
  /-- `log_dir/name/current.log`, canonicalized -/
  currentLog : Text → Option (List Text)
  /-- `File::open`, of the resolved path -/
  opened : List Text → Option LogRead
  /-- `latest_log_content`; an error is an answer without a log. -/
  latestLogContent : Text → Option Text

/-- A job name that is no plain file name. -/
def badName (name : Text) : Bool :=
  decide (name = [] ∨ name = ".".toList) || contains name "..".toList ||
    name.any fun c => decide (c = '/' ∨ c = '\\' ∨ c = '\x00')

/-- The query parameter `tail`. -/
def tailParam (tail : Option Text) : ℕ := min ((tail.bind Mirror.parseU64).getD 50) 10000

/-- The end of the file that `current.log` leads to. -/
def currentTail (view : LogView) (name : Text) (n : ℕ) : Except StatusCode (Option Text) :=
  match view.logDir, view.currentLog name with
  | some root, some path =>
    if ¬root <+: path ∨ ¬root ++ [name] <+: path then .error .forbidden
    else .ok ((view.opened path).bind fun f => tailOfFile f n)
  | _, _ => .ok none

def jobLogs (user : AuthUser) (view : LogView) (name : Text) (tail : Option Text) :
    Except StatusCode Text :=
  if ¬hasPerm user "logs.read" then .error .forbidden
  else if badName name then .error .badRequest
  else if name ∉ view.configured then .error .notFound
  else
    let n := tailParam tail
    match currentTail view name n with
    | .error code => .error code
    | .ok content =>
      if trim (content.getD []) = [] then
        match view.latestLogContent name with
        | some c => if c = [] then .error .notFound else .ok (tailOfStr c n)
        | none => .error .notFound
      else
        match content with
        | some c => .ok c
        | none => .error .notFound

/-! ## The window shows whole lines -/

theorem lastLines_append {n : ℕ} {ls : List Text} (h : n ≤ ls.length) (front : List Text) :
    lastLines n (front ++ ls) = lastLines n ls := by
  have hcut : (front ++ ls).length - n = front.length + (ls.length - n) := by
    rw [List.length_append]
    omega
  rw [lastLines, hcut, ← List.drop_drop, List.drop_left]
  rfl

theorem lastLines_min (n : ℕ) (ls : List Text) :
    lastLines (min n ls.length) ls = lastLines n ls := by
  rw [lastLines, lastLines]
  congr 1
  omega

/-- All lines of a window but the first are lines of the text it is the end of. -/
theorem lines_window (front w : Bytes) : ∃ before, lines (fromUtf8Lossy (front ++ w)) =
    before ++ (lines (fromUtf8Lossy w)).tail := by
  by_cases hbreak : (0x0a : UInt8) ∈ w
  · obtain ⟨u, v, rfl, hu⟩ := List.eq_append_cons_of_mem hbreak
    have hread (t : Bytes) : fromUtf8Lossy (t ++ 0x0a :: v) =
        fromUtf8Lossy t ++ '\n' :: fromUtf8Lossy v := fromUtf8Lossy_ascii (by decide) t v
    refine ⟨lines (fromUtf8Lossy (front ++ u) ++ ['\n']), ?_⟩
    rw [← List.append_assoc, hread, hread,
      lines_cons fun h => hu (mem_of_mem_fromUtf8Lossy (x := 0x0a) (by decide) h), List.tail_cons,
      ← lines_append (.inr List.getLast?_concat), List.append_assoc, List.singleton_append]
  · refine ⟨lines (fromUtf8Lossy (front ++ w)), ?_⟩
    have hone : (lines (fromUtf8Lossy w)).tail = [] := by
      have hline : '\n' ∉ fromUtf8Lossy w :=
        fun h => hbreak (mem_of_mem_fromUtf8Lossy (x := 0x0a) (by decide) h)
      by_cases hnil : fromUtf8Lossy w = []
      · rw [hnil]
        rfl
      · rw [lines_unended hline hnil, List.tail_cons]
    rw [hone, List.append_nil]

/-- The file was not shortened, and if it was written to then it was longer than the window. -/
def LogRead.Settled (f : LogRead) : Prop :=
  f.size = f.content.length ∨ tailWindow < f.size ∧ f.size ≤ f.content.length

/-- The end of the file is the end of its text: whole lines, and as many as were asked for where
the window holds them. -/
theorem tailOfFile_eq {f : LogRead} (hf : f.Settled) (n : ℕ) :
    ∃ k ≤ n, tailOfFile f n = some (tailOfStr (fromUtf8Lossy f.content) k) ∧
      (f.size ≤ tailWindow ∨ n < (lines (fromUtf8Lossy f.window)).length → k = n) := by
  have hwant : f.want = min f.size tailWindow := rfl
  have hlong : ¬f.content.length < f.want := by
    rcases hf with h | h <;> omega
  unfold tailOfFile
  rw [if_neg hlong]
  by_cases hsmall : f.size ≤ tailWindow
  · -- the window is the whole file
    have hwhole : f.window = f.content := by
      have hsize : f.size = f.content.length := hf.resolve_right fun h => by omega
      have hcut : f.content.length - f.want = 0 := by omega
      rw [LogRead.window, hcut, List.drop_zero]
    refine ⟨n, le_rfl, ?_, fun _ => rfl⟩
    rw [hwhole, if_neg (by omega)]
    rfl
  · obtain ⟨before, hlines⟩ := lines_window (f.content.take (f.content.length - f.want)) f.window
    rw [LogRead.window, List.take_append_drop, ← LogRead.window] at hlines
    have htail : (lines (fromUtf8Lossy f.window)).drop
        (min 1 (lines (fromUtf8Lossy f.window)).length) =
        (lines (fromUtf8Lossy f.window)).tail := by
      cases lines (fromUtf8Lossy f.window) <;> rfl
    refine ⟨min n (lines (fromUtf8Lossy f.window)).tail.length, min_le_left _ _, ?_, ?_⟩
    · rw [if_pos (by omega), tailOfStr, tailOfStrSkip, tailOfStrSkip, htail, Nat.zero_min,
        List.drop_zero, hlines, lastLines_append (min_le_right _ _), lastLines_min]
    · rintro (h | h)
      · exact absurd h hsmall
      · rw [List.length_tail]
        omega

/-! ## What is served -/

theorem currentTail_eq_ok {view : LogView} {name t : Text} {n : ℕ}
    (h : currentTail view name n = .ok (some t)) : ∃ root path f, view.logDir = some root ∧
      view.currentLog name = some path ∧ root ++ [name] <+: path ∧ view.opened path = some f ∧
      tailOfFile f n = some t := by
  unfold currentTail at h
  split at h
  · rename_i root path hroot hpath
    split at h
    · cases h
    · rename_i hinside
      rw [not_or, not_not, not_not] at hinside
      obtain ⟨f, hf, ht⟩ := Option.bind_eq_some_iff.mp (Except.ok.inj h)
      exact ⟨root, path, f, hroot, hpath, hinside.2, hf, ht⟩
  · cases h

/-- What a request for the logs of a job gets is the end of a file below the job's own directory,
or else of the log that was last stored for it: whole lines, at most ten thousand, and as many as
were asked for if they lie in the window. -/
theorem job_logs_serves (user : AuthUser) (view : LogView) (name t : Text) (tail : Option Text)
    (hsettled : ∀ path f, view.opened path = some f → f.Settled)
    (h : jobLogs user view name tail = .ok t) :
    hasPerm user "logs.read" ∧ name ∈ view.configured ∧ tailParam tail ≤ 10000 ∧
    ((∃ root path f k, view.logDir = some root ∧ view.currentLog name = some path ∧
        root ++ [name] <+: path ∧ view.opened path = some f ∧ k ≤ tailParam tail ∧
        t = tailOfStr (fromUtf8Lossy f.content) k ∧
        (f.size ≤ tailWindow ∨ tailParam tail < (lines (fromUtf8Lossy f.window)).length →
          k = tailParam tail)) ∨
      ∃ c, view.latestLogContent name = some c ∧ c ≠ [] ∧ t = tailOfStr c (tailParam tail)) := by
  unfold jobLogs at h
  split_ifs at h with hperm hname hconf
  dsimp only at h
  refine ⟨hperm, hconf, min_le_right _ _, ?_⟩
  cases hcurrent : currentTail view name (tailParam tail) with
  | error code => simp [hcurrent] at h
  | ok content =>
    simp only [hcurrent] at h
    split at h
    · right
      split at h
      · rename_i c hc
        split at h
        · cases h
        · rename_i hne
          exact ⟨c, hc, hne, (Except.ok.inj h).symm⟩
      · cases h
    · left
      cases content with
      | none => cases h
      | some c =>
        cases h
        obtain ⟨root, path, f, hroot, hpath, hinside, hf, ht⟩ := currentTail_eq_ok hcurrent
        obtain ⟨k, hk, heq, hall⟩ := tailOfFile_eq (hsettled path f hf) (tailParam tail)
        exact ⟨root, path, f, k, hroot, hpath, hinside, hf, hk,
          Option.some.inj (ht.symm.trans heq), hall⟩

def viewer : AuthUser := ⟨"v", roleDefaults "viewer"⟩

/-- One job, with a short log that is not written to. -/
def oneLog : LogView where
  configured := ["a".toList]
  logDir := some ["logs".toList]
  currentLog _ := some ["logs".toList, "a".toList, "a_1.log".toList]
  opened _ := some ⟨6, encode "x\ny\nz\n".toList⟩
  latestLogContent _ := none

theorem job_logs_serves_two : ∃ k ≤ 2, "y\nz".toList = tailOfStr "x\ny\nz\n".toList k := by
  obtain ⟨-, -, -, ⟨root, path, f, k, -, -, -, hf, hk, ht, -⟩ | ⟨c, hc, -⟩⟩ :=
    job_logs_serves viewer oneLog "a".toList "y\nz".toList (some "2".toList)
      (fun _ _ hf => by cases hf; exact .inl (by decide +kernel)) (by decide +kernel)
  · cases hf
    have hread : fromUtf8Lossy (encode "x\ny\nz\n".toList) = "x\ny\nz\n".toList :=
      fromUtf8Lossy_encode _
    exact ⟨k, hk, by rw [ht, hread]⟩
  · cases hc

end Synora.Manager
