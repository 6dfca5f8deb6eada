import Synora.Cluster.Modes
import Synora.Lib.Runs
import Synora.Mirror.Listing

namespace Synora.Provider
open Core Engine Manager Strings Utf8

/-! # What the output of a process says -/

def maxBuf : ℕ := 256 * 1024

/-- What a read of a pipe comes back with, up to the end of the file. -/
inductive PipeRead
  | data (bytes : Bytes)
  | failed
deriving DecidableEq, Repr

/-- `read_pipe_tee`: what is kept in memory, and the chunks that go to the log. -/
def readPipeTee (out : Bytes) : List PipeRead → Bytes × List Bytes
  | [] => (out, [])
  | .failed :: _ => (out, [])
  | .data chunk :: reads =>
    let out := out ++ chunk
    let kept := if out.length > maxBuf then out.drop (out.length - maxBuf) else out
    let rest := readPipeTee kept reads
    (rest.1, chunk :: rest.2)

/-- A process, from its start to its end. -/
structure Child where
  /-- The process could not be started. -/
  spawnError : Option String
  stdout : List PipeRead
  stderr : List PipeRead
  /-- What `child.wait()` comes back with; a process that was killed has no code. -/
  wait : Except String (Option Int32)
  cancelledReading : Bool
  cancelledWaiting : Bool
  cancelledAfter : Bool

def Child.out (child : Child) : Bytes := (readPipeTee [] child.stdout).1

def Child.err (child : Child) : Bytes := (readPipeTee [] child.stderr).1

/-- The process is started, read, waited for and not cancelled: its exit code. -/
def Child.finish (child : Child) (what : String) : Except ProviderError (Option Int32) :=
  match child.spawnError with
  | some e => .error (.spawn (what ++ ": " ++ (ProviderError.spawn e).toString))
  | none =>
    if child.cancelledReading ∨ child.cancelledWaiting then .error .cancelled
    else match child.wait with
      | .error e => .error (.other e)
      | .ok code => if child.cancelledAfter then .error .cancelled else .ok code

/-- What both streams say of a failure, at most `limit` characters of it. -/
def failureDetail (limit : ℕ) (stdout stderr : Bytes) : String :=
  let out := trim (fromUtf8Lossy stdout)
  let err := trim (fromUtf8Lossy stderr)
  let detail := if err = [] then out
    else if out = [] then err
    else err ++ " | stdout: ".toList ++ out
  String.ofList (detail.take limit)

def withDetail (detail : String) : String := if detail = "" then "" else ": " ++ detail

/-! ## The script provider -/

structure ParsedOutput where
  sizeHint : Option UInt64
  status : Option Text
  message : Option Text
deriving DecidableEq, Repr

def ParsedOutput.read (out : ParsedOutput) (line : Text) : ParsedOutput :=
  let line := trim line
  match stripPrefix "SYNORA_SIZE=".toList line with
  | some rest =>
    match Mirror.parseU64 (trim rest) with
    | some v => { out with sizeHint := some (UInt64.ofNat v) }
    | none => out
  | none =>
    match stripPrefix "SYNORA_STATUS=".toList line with
    | some rest => { out with status := some (trim rest) }
    | none =>
      match stripPrefix "SYNORA_MESSAGE=".toList line with
      | some rest => { out with message := some (trim rest) }
      | none => out

def parseOutput (stdout : Bytes) : ParsedOutput :=
  (lines (fromUtf8Lossy stdout)).foldl ParsedOutput.read ⟨none, none, none⟩

/-- `ScriptProvider::sync`, without a scripts image; `none` is the `unreachable!()`. -/
def scriptSync (command : String) (child : Child) : Option (Except ProviderError SyncResult) :=
  match child.finish ("\x60" ++ command ++ "\x60") with
  | .error e => some (.error e)
  | .ok code =>
    let parsed := parseOutput child.out
    let result : SyncResult := ⟨code, parsed.sizeHint, none, parsed.message.map String.ofList,
      parsed.status.map String.ofList⟩
    if processResultIsSuccess (code.map Int32.toInt) result.status [] then some (.ok result)
    else match code, result.status with
      | none, _ => some (.error (.other "script terminated without an exit code"))
      | some 0, some reported => some (.error (.other ("script reported status " ++ reported)))
      | some 0, none => none
      | some code, _ => some (.error (.other ("script exited with " ++ toString code.toInt ++
          withDetail (failureDetail 8000 child.out child.err))))

/-! ## The container -/

/-- `parse_script_status` -/
def parseScriptStatus (text : Text) : Option Text :=
  ((lines text).foldl (fun last line =>
    match stripPrefix "SYNORA_STATUS=".toList (trim line) with
    | some rest => some (trim rest)
    | none => last) none).filter fun s => !s.isEmpty

def failurePhrases : List Text :=
  ["Failed YUM repos:".toList, "Failed APT repos of".toList, "==== SYNC yum FAILED".toList,
    "==== SYNC docker-ce FAILED".toList, "==== SYNC rustup FAILED".toList,
    "git update failed with rc=".toList, "SYNORA_STATUS=failure".toList,
    "SYNORA_STATUS=failed".toList, "local official proxy failed".toList]

def reportsFailure (line : Text) : Bool := failurePhrases.any (contains line)

/-- `script_reported_failure` -/
def scriptReportedFailure (text : Text) : Option Text :=
  ((lines text).find? reportsFailure).map fun line => (trim line).take 512

/-- `trim_end_matches` of a text, on what is read backwards. -/
def trimRevMatches (pat : Text) : ℕ → Text → Text
  | 0, t => t
  | n + 1, t => if pat.isPrefixOf t then trimRevMatches pat n (t.drop pat.length) else t

def trimEndMatches (pat t : Text) : Text := (trimRevMatches pat.reverse t.length t.reverse).reverse

/-- `parse_iec_size`; the number is read and scaled in floating point. -/
def parseIecSize (scaleSize : Text → ℕ → Option UInt64) (s : Text) : Option UInt64 :=
  match splitWhitespace (toAsciiLowercase (trim s)) with
  | [] => none
  | first :: rest =>
    let tok := first ++ rest.head?.getD []
    let tok := trimEnd (· == 'b') (trimEndMatches "ib".toList tok)
    match tok.getLast? with
    | none => none
    | some 'k' => scaleSize tok.dropLast 1024
    | some 'm' => scaleSize tok.dropLast (1024 ^ 2)
    | some 'g' => scaleSize tok.dropLast (1024 ^ 3)
    | some 't' => scaleSize tok.dropLast (1024 ^ 4)
    | some 'p' => scaleSize tok.dropLast (1024 ^ 5)
    | some _ => scaleSize tok 1

def parseScriptSize (scaleSize : Text → ℕ → Option UInt64) (text : Text) : Option UInt64 :=
  (lines text).foldl (fun last line =>
    let raw := trim line
    if raw = [] then last
    else match stripPrefix "SYNORA_SIZE=".toList raw with
      | some rest => ((Mirror.parseU64 (trim rest)).map UInt64.ofNat).or last
      | none =>
        ["total size is".toList, "size-sum:".toList, "total size:".toList].foldl (fun last pre =>
          ((stripPrefix pre (toAsciiLowercase raw)).bind fun rest =>
            parseIecSize scaleSize (trim rest)).or last)
          last) none

def Child.combined (child : Child) : Text :=
  fromUtf8Lossy child.out ++ '\n' :: fromUtf8Lossy child.err

/-- What `run_named_container` makes of the process. -/
def containerSync (scaleSize : Text → ℕ → Option UInt64) (child : Child) :
    Except ProviderError SyncResult :=
  match child.finish "docker run" with
  | .error e => .error e
  | .ok exit =>
    let code := exit.getD (-1)
    let status := (parseScriptStatus child.combined).map String.ofList
    let result : SyncResult := ⟨some code, parseScriptSize scaleSize child.combined, none, none,
      status⟩
    match scriptReportedFailure child.combined with
    | some reason => .error (.other ("script reported failure: " ++ String.ofList reason))
    | none =>
      if processResultIsSuccess (some code.toInt) status [] then .ok result
      else if code = 0 then
        .error (.other ("script reported status " ++ status.getD "invalid" ++ ": " ++
          String.ofList ((if trim (fromUtf8Lossy child.err) = [] then trim (fromUtf8Lossy child.out)
            else trim (fromUtf8Lossy child.err)).take 800)))
      else .error (.other ("docker exited with " ++ toString code.toInt ++
        withDetail (failureDetail 800 child.out child.err)))

/-! ## What is kept -/

/-- What comes out of a pipe, up to its end or the first read that fails. -/
def received : List PipeRead → Bytes
  | [] => []
  | .failed :: _ => []
  | .data chunk :: reads => chunk ++ received reads

def keepLast (n : ℕ) (bytes : Bytes) : Bytes := bytes.drop (bytes.length - n)

theorem keepLast_of_le {n : ℕ} {bytes : Bytes} (h : bytes.length ≤ n) :
    keepLast n bytes = bytes := by
  rw [keepLast, Nat.sub_eq_zero_of_le h, List.drop_zero]

theorem keepLast_append {n : ℕ} {tail : Bytes} (h : tail.length ≤ n) (front : Bytes) :
    ∃ kept, kept <:+ front ∧ keepLast n (front ++ tail) = kept ++ tail := by
  refine ⟨front.drop (front.length + tail.length - n), List.drop_suffix _ _, ?_⟩
  rw [keepLast, List.length_append, List.drop_append_of_le_length (by omega)]

theorem keepLast_keepLast (n : ℕ) (bytes rest : Bytes) :
    keepLast n (keepLast n bytes ++ rest) = keepLast n (bytes ++ rest) := by
  have hdrop : keepLast n bytes ++ rest = (bytes ++ rest).drop (bytes.length - n) := by
    rw [keepLast, List.drop_append_of_le_length (Nat.sub_le _ _)]
  rw [hdrop, keepLast, List.drop_drop, keepLast]
  congr 1
  rw [List.length_drop, List.length_append]
  omega

/-- However the output is cut into reads, its last bytes are kept and all of it goes to the log. -/
theorem readPipeTee_eq {out : Bytes} (h : out.length ≤ maxBuf) (reads : List PipeRead) :
    (readPipeTee out reads).1 = keepLast maxBuf (out ++ received reads) ∧
      (readPipeTee out reads).2.flatten = received reads := by
  induction reads generalizing out with
  | nil => exact ⟨by rw [received, List.append_nil, keepLast_of_le h]; rfl, rfl⟩
  | cons read reads ih =>
    cases read with
    | failed => exact ⟨by rw [received, List.append_nil, keepLast_of_le h]; rfl, rfl⟩
    | data chunk =>
      have hkept : (if (out ++ chunk).length > maxBuf then
          (out ++ chunk).drop ((out ++ chunk).length - maxBuf) else out ++ chunk) =
          keepLast maxBuf (out ++ chunk) := by
        split
        · rfl
        · rename_i hfit
          rw [keepLast_of_le (Nat.le_of_not_lt hfit)]
      have hlen : (keepLast maxBuf (out ++ chunk)).length ≤ maxBuf := by
        rw [keepLast, List.length_drop]
        omega
      obtain ⟨hbuf, hlog⟩ := ih hlen
      simp only [readPipeTee, hkept, List.flatten_cons, received]
      rw [hbuf, hlog, keepLast_keepLast, List.append_assoc]
      exact ⟨rfl, rfl⟩

/-! ## The last status line -/

def statusLine (line : Text) : Option Text :=
  (stripPrefix "SYNORA_STATUS=".toList (trim line)).map trim

/-- The value of the last status line. -/
def lastStatus (text : Text) : Option Text := ((lines text).filterMap statusLine).getLast?

theorem getLast?_filterMap_some {α β : Type*} (f : α → Option β) (l : List α) :
    (l.filterMap fun a => (f a).map some).getLast?.getD none = (l.filterMap f).getLast? := by
  rw [← List.map_filterMap, List.getLast?_map]
  cases (l.filterMap f).getLast? <;> rfl

/-- A line is a size or a status, not both. -/
theorem statusLine_of_size {line rest : Text}
    (h : stripPrefix "SYNORA_SIZE=".toList (trim line) = some rest) : statusLine line = none := by
  rw [stripPrefix_eq_some_iff] at h
  rw [statusLine, h]
  rfl

theorem read_status (out : ParsedOutput) (line : Text) :
    (out.read line).status = ((statusLine line).map some).getD out.status := by
  unfold ParsedOutput.read
  dsimp only
  cases hsize : stripPrefix "SYNORA_SIZE=".toList (trim line) with
  | some rest =>
    rw [statusLine_of_size hsize]
    dsimp only
    cases Mirror.parseU64 (trim rest) <;> rfl
  | none =>
    unfold statusLine
    cases stripPrefix "SYNORA_STATUS=".toList (trim line) with
    | some rest => rfl
    | none => cases stripPrefix "SYNORA_MESSAGE=".toList (trim line) <;> rfl

theorem parseOutput_status (stdout : Bytes) :
    (parseOutput stdout).status = lastStatus (fromUtf8Lossy stdout) := by
  rw [parseOutput, Runs.foldl_last ParsedOutput.status (g := fun line => (statusLine line).map some)
    fun line _ out => read_status out line, getLast?_filterMap_some]
  rfl

theorem parseScriptStatus_eq (text : Text) :
    parseScriptStatus text = (lastStatus text).filter fun s => !s.isEmpty := by
  rw [parseScriptStatus, lastStatus, ← getLast?_filterMap_some]
  refine congrArg _ (Runs.foldl_last id (fun line _ last => ?_) none)
  dsimp only [statusLine, id]
  cases stripPrefix "SYNORA_STATUS=".toList (trim line) <;> rfl

/-- A line is read the same with and without its carriage return. -/
theorem statusLine_carriage (line : Text) :
    statusLine (if line.getLast? = some '\r' then line.dropLast else line) = statusLine line := by
  split
  · rename_i hcr
    obtain ⟨u, rfl⟩ := List.getLast?_eq_some_iff.mp hcr
    have hblank : Blank ['\r'] := by
      intro c hc
      rw [List.mem_singleton.mp hc]
      decide
    rw [List.dropLast_concat, statusLine, statusLine, trim_of_blank hblank]
  · rfl

/-- The last status line counts, whatever stands before it. -/
theorem lastStatus_eq {before line after v : Text}
    (hbefore : before = [] ∨ before.getLast? = some '\n') (hline : '\n' ∉ line)
    (hv : statusLine line = some v) (hafter : ∀ l ∈ lines after, statusLine l = none) :
    lastStatus (before ++ (line ++ '\n' :: after)) = some v := by
  have hnone : (lines after).filterMap statusLine = [] := List.filterMap_eq_nil_iff.mpr hafter
  rw [lastStatus, lines_append hbefore, lines_cons hline, List.filterMap_append,
    List.filterMap_cons_some ((statusLine_carriage line).trans hv), hnone]
  exact List.getLast?_concat

/-- A part of the output ends its lines where its bytes do. -/
theorem fromUtf8Lossy_lines {before : Bytes} (h : before = [] ∨ before.getLast? = some 0x0a)
    (rest : Bytes) :
    fromUtf8Lossy (before ++ rest) = fromUtf8Lossy before ++ fromUtf8Lossy rest ∧
      (fromUtf8Lossy before = [] ∨ (fromUtf8Lossy before).getLast? = some '\n') := by
  rcases h with rfl | h
  · exact ⟨rfl, .inl rfl⟩
  · obtain ⟨u, rfl⟩ := List.getLast?_eq_some_iff.mp h
    have hread (v : Bytes) : fromUtf8Lossy (u ++ 0x0a :: v) =
        fromUtf8Lossy u ++ '\n' :: fromUtf8Lossy v := fromUtf8Lossy_ascii (by decide) u v
    rw [List.append_assoc, List.singleton_append, hread, hread]
    exact ⟨by simp [fromUtf8Lossy], .inr (by simp [fromUtf8Lossy])⟩

/-- Whole lines, a line whose status is `v`, and at most 256 KiB from it to the end without
another. -/
structure LastLine (before line after : Bytes) (v : Text) : Prop where
  lines_before : before = [] ∨ before.getLast? = some 0x0a
  one_line : 0x0a ∉ line
  value : statusLine (fromUtf8Lossy line) = some v
  silent : ∀ l ∈ lines (fromUtf8Lossy after), statusLine l = none
  fits : (line ++ 0x0a :: after).length ≤ maxBuf

theorem lastStatus_kept {before line after : Bytes} {v : Text} (h : LastLine before line after v) :
    lastStatus (fromUtf8Lossy (keepLast maxBuf (before ++ (line ++ 0x0a :: after)))) = some v := by
  obtain ⟨kept, hsuffix, hkept⟩ := keepLast_append h.fits before
  -- what is kept of the lines before still ends in a line break
  have hended : kept = [] ∨ kept.getLast? = some 0x0a := by
    rcases h.lines_before with rfl | hlast
    · exact .inl (List.suffix_nil.mp hsuffix)
    · rcases List.eq_nil_or_concat' kept with rfl | ⟨u, b, rfl⟩
      · exact .inl rfl
      · obtain ⟨front, rfl⟩ := hsuffix
        rw [← List.append_assoc, List.getLast?_concat] at hlast
        exact .inr (by rw [List.getLast?_concat, hlast])
  obtain ⟨hread, hlines⟩ := fromUtf8Lossy_lines hended (line ++ 0x0a :: after)
  have hbreak : fromUtf8Lossy (line ++ 0x0a :: after) =
      fromUtf8Lossy line ++ '\n' :: fromUtf8Lossy after :=
    fromUtf8Lossy_ascii (by decide) line after
  rw [hkept, hread, hbreak]
  exact lastStatus_eq hlines (fun hmem => h.one_line (mem_of_mem_fromUtf8Lossy (by decide) hmem))
    h.value h.silent

/-! ## The verdict on a run -/

/-- The process is started, is not cancelled and comes to an end with this code. -/
structure Child.Ends (child : Child) (code : Option Int32) : Prop where
  started : child.spawnError = none
  reading : child.cancelledReading = false
  waiting : child.cancelledWaiting = false
  ended : child.wait = .ok code
  after : child.cancelledAfter = false

theorem finish_eq_ok {child : Child} {what : String} {code : Option Int32} :
    child.finish what = .ok code ↔ child.Ends code := by
  unfold Child.finish
  constructor
  · intro h
    cases hspawn : child.spawnError with
    | some e => simp [hspawn] at h
    | none =>
      simp only [hspawn] at h
      split at h
      · cases h
      · rename_i hcancel
        cases hwait : child.wait with
        | error e => simp [hwait] at h
        | ok ended =>
          simp only [hwait] at h
          split at h
          · cases h
          · rename_i hafter
            cases h
            rw [not_or] at hcancel
            exact ⟨hspawn, by simpa using hcancel.1, by simpa using hcancel.2, hwait,
              by simpa using hafter⟩
  · rintro ⟨hspawn, hreading, hwaiting, hwait, hafter⟩
    simp [hspawn, hreading, hwaiting, hwait, hafter]

/-- The provider comes back with a result, and the engine believes it. -/
def Believed (job : JobSpec) (result : Option (Except ProviderError SyncResult)) : Prop :=
  ∃ r, result = some (.ok r) ∧ syncResultFailureReason job r = none

theorem not_believed_error (job : JobSpec) (e : ProviderError) : ¬Believed job (some (.error e)) :=
  fun ⟨_, h, _⟩ => nomatch h

theorem success_iff {code : Option Int32} {status : Option String} :
    processResultIsSuccess (code.map Int32.toInt) status [] ↔
      code = some 0 ∧ ∀ v, status = some v → isSuccessText v := by
  have hstatus : (status.map isSuccessText).getD true = true ↔
      ∀ v, status = some v → isSuccessText v := by
    cases status <;> simp
  have hcode : code.map Int32.toInt = some 0 ↔ code = some 0 := by
    cases code with
    | none => simp
    | some c =>
      have hzero : c.toInt = 0 ↔ c = 0 := Int32.toInt_inj (y := 0)
      simpa using hzero
  rw [processResultIsSuccess.eq_def]
  dsimp only
  rw [Bool.and_eq_true, hstatus, and_comm, ← hcode]
  refine and_congr_left fun _ => ?_
  split
  · rename_i heq
    exact iff_of_true rfl heq
  · rename_i hzero heq
    exact iff_of_false (by simp) fun h => hzero (Option.some.inj (heq.symm.trans h))
  · rename_i heq
    exact iff_of_false (by simp) fun h => Option.some_ne_none _ (h.symm.trans heq)

theorem believed_of_success (job : JobSpec) {r : SyncResult}
    (h : processResultIsSuccess (r.exitCode.map Int32.toInt) r.status []) :
    Believed job (some (.ok r)) := by
  refine ⟨r, rfl, ?_⟩
  rw [syncResultFailureReason, Cluster.failureReason_eq_none_iff]
  obtain ⟨hcode, hstatus⟩ := success_iff.mp h
  rw [hcode]
  cases hs : r.status with
  | none => rfl
  | some v => simpa [processResultIsSuccess] using hstatus v hs

section
variable {child : Child} {what : String} {code : Option Int32}

theorem ends_iff (h : child.finish what = .ok code) (code' : Option Int32) :
    child.Ends code' ↔ code = code' := by
  rw [← @finish_eq_ok child what, h, Except.ok.injEq]

theorem not_ends {e : ProviderError} (h : child.finish what = .error e) (code : Option Int32) :
    ¬child.Ends code := by
  rw [← @finish_eq_ok child what, h]
  exact fun heq => nomatch heq

end

/-- The arm that cannot be reached is not. -/
theorem scriptSync_isSome (command : String) (child : Child) :
    (scriptSync command child).isSome := by
  unfold scriptSync
  split
  · rfl
  · dsimp only
    split
    · rfl
    · rename_i hbad
      split <;> try rfl
      rename_i hstatus _
      exact absurd (success_iff.mpr ⟨rfl, fun v hv => by rw [hstatus] at hv; cases hv⟩) hbad

theorem script_believed_iff (job : JobSpec) (command : String) (child : Child) :
    Believed job (scriptSync command child) ↔ child.Ends (some 0) ∧
      ∀ v, lastStatus (fromUtf8Lossy child.out) = some v → isSuccessText (String.ofList v) := by
  unfold scriptSync
  cases hfinish : child.finish ("\x60" ++ command ++ "\x60") with
  | error e => exact iff_of_false (not_believed_error job e) fun h => not_ends hfinish _ h.1
  | ok code =>
    have hiff : processResultIsSuccess (code.map Int32.toInt)
        ((parseOutput child.out).status.map String.ofList) [] ↔ child.Ends (some 0) ∧
        ∀ v, lastStatus (fromUtf8Lossy child.out) = some v → isSuccessText (String.ofList v) := by
      rw [success_iff, ends_iff hfinish, parseOutput_status]
      simp
    rw [← hiff]
    dsimp only
    split
    · rename_i hok
      exact iff_of_true (believed_of_success job hok) hok
    · rename_i hbad
      refine iff_of_false ?_ hbad
      split
      · exact not_believed_error job _
      · exact not_believed_error job _
      · exact fun ⟨_, h, _⟩ => nomatch h
      · exact not_believed_error job _

theorem filterMap_lines_newline (t : Text) :
    (lines (t ++ ['\n'])).filterMap statusLine = (lines t).filterMap statusLine := by
  induction t using lines_induction with
  | unended t ht =>
    rw [lines_cons ht]
    cases t with
    | nil => rfl
    | cons c cs =>
      rw [lines_unended ht (by simp)]
      simp only [List.filterMap_cons, statusLine_carriage]
      rfl
  | cons line t hline ih =>
    rw [List.append_assoc, List.cons_append, lines_cons hline, lines_cons hline,
      List.filterMap_cons, List.filterMap_cons, ih]

theorem lastStatus_lines (a b : Text) :
    lastStatus (a ++ '\n' :: b) = (lastStatus b).or (lastStatus a) := by
  rw [← List.singleton_append, ← List.append_assoc, lastStatus,
    lines_append (.inr List.getLast?_concat), List.filterMap_append, filterMap_lines_newline,
    List.getLast?_append]
  rfl

theorem container_believed_iff (job : JobSpec) (scaleSize : Text → ℕ → Option UInt64)
    (child : Child) :
    Believed job (some (containerSync scaleSize child)) ↔ child.Ends (some 0) ∧
      scriptReportedFailure child.combined = none ∧
      ∀ v, (lastStatus (fromUtf8Lossy child.err)).or (lastStatus (fromUtf8Lossy child.out)) =
        some v → v ≠ [] → isSuccessText (String.ofList v) := by
  unfold containerSync
  cases hfinish : child.finish "docker run" with
  | error e => exact iff_of_false (not_believed_error job e) fun h => not_ends hfinish _ h.1
  | ok code =>
    have hiff : processResultIsSuccess (some (code.getD (-1)).toInt)
        ((parseScriptStatus child.combined).map String.ofList) [] ↔ child.Ends (some 0) ∧
        ∀ v, (lastStatus (fromUtf8Lossy child.err)).or (lastStatus (fromUtf8Lossy child.out)) =
          some v → v ≠ [] → isSuccessText (String.ofList v) := by
      have hcode : some (code.getD (-1)) = some 0 ↔ code = some 0 := by
        cases code <;> simp
      have hsuccess := @success_iff (some (code.getD (-1)))
        ((parseScriptStatus child.combined).map String.ofList)
      rw [Option.map_some, hcode] at hsuccess
      rw [hsuccess, ends_iff hfinish, parseScriptStatus_eq, Child.combined, lastStatus_lines]
      refine and_congr_right fun _ => ?_
      constructor
      · intro h v hv hne
        exact h _ (by simp [Option.filter_eq_some_iff, hv, hne])
      · rintro h v hv
        obtain ⟨t, ht, rfl⟩ := Option.map_eq_some_iff.mp hv
        obtain ⟨hlast, hne⟩ := Option.filter_eq_some_iff.mp ht
        exact h t hlast (by simpa using hne)
    dsimp only
    cases hphrase : scriptReportedFailure child.combined with
    | some reason => exact iff_of_false (not_believed_error job _) fun h => nomatch h.2.1
    | none =>
      simp only [true_and]
      rw [← hiff]
      split
      · rename_i hok
        exact iff_of_true (believed_of_success job hok) hok
      · rename_i hbad
        refine iff_of_false ?_ hbad
        split <;> exact not_believed_error job _

/-- A script whose last status line is at most 256 KiB before the end of its output succeeds
exactly when it ends with code `0` and that line says so, however its output is cut into reads. -/
theorem last_status_decides (job : JobSpec) (command : String) (child : Child)
    {before line after : Bytes} {v : Text}
    (hout : received child.stdout = before ++ (line ++ 0x0a :: after))
    (hlast : LastLine before line after v) :
    (scriptSync command child).isSome ∧
      (Believed job (scriptSync command child) ↔
        child.Ends (some 0) ∧ isSuccessText (String.ofList v)) := by
  refine ⟨scriptSync_isSome command child, ?_⟩
  have hkept : child.out = keepLast maxBuf (before ++ (line ++ 0x0a :: after)) := by
    rw [Child.out, (readPipeTee_eq (Nat.zero_le _) child.stdout).1, List.nil_append, hout]
  rw [script_believed_iff, hkept, lastStatus_kept hlast]
  simp

/-- A script that fails, says so, and ends with code `0`; its status is cut in two by a read. -/
def failing : Child where
  spawnError := none
  stdout := [.data (encode "fetching\nSYNORA_ST".toList),
    .data (encode "ATUS=failed\nbye\n".toList)]
  stderr := []
  wait := .ok (some 0)
  cancelledReading := false
  cancelledWaiting := false
  cancelledAfter := false

def scriptJob : JobSpec := ⟨"s", true, .script, 1, 60, 0, [], .retry, [], 1⟩

theorem last_status_decides_failing : ¬Believed scriptJob (scriptSync "sync.sh" failing) :=
  fun h => absurd ((@last_status_decides scriptJob "sync.sh" failing
    (encode "fetching\n".toList) (encode "SYNORA_STATUS=failed".toList) (encode "bye\n".toList)
    "failed".toList (by decide +kernel) ⟨by decide +kernel, by decide +kernel, by decide +kernel,
      by decide +kernel, by decide +kernel⟩).2.mp h).2 (by decide +kernel)

/-- A container says of a script what the script provider says of it, where nothing in the output
is a phrase of failure, the status is not blank and none is on the error stream. -/
theorem container_agrees (job : JobSpec) (command : String)
    (scaleSize : Text → ℕ → Option UInt64) (child : Child)
    (hphrase : scriptReportedFailure child.combined = none)
    (herr : lastStatus (fromUtf8Lossy child.err) = none)
    (hblank : lastStatus (fromUtf8Lossy child.out) ≠ some []) :
    Believed job (some (containerSync scaleSize child)) ↔
      Believed job (scriptSync command child) := by
  rw [container_believed_iff, script_believed_iff, herr, Option.none_or]
  refine and_congr_right fun _ =>
    ⟨fun h v hv => h.2 v hv ?_, fun h => ⟨hphrase, fun v hv _ => h v hv⟩⟩
  rintro rfl
  exact hblank hv

/-- The same process with another end of its output. -/
def warning : Child := { failing with
  stdout := [.data (encode "SYNORA_STATUS=success_with_warnings\n".toList)] }

theorem container_agrees_warning :
    Believed scriptJob (some (containerSync (fun _ _ => none) warning)) ↔
      Believed scriptJob (scriptSync "sync.sh" warning) :=
  container_agrees scriptJob "sync.sh" _ warning (by decide +kernel) (by decide +kernel)
    (by decide +kernel)

end Synora.Provider
