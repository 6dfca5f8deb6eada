import Mathlib.Data.List.Infix
import Synora.Lib.Utf8

namespace Synora.Engine
open Utf8

/-! # Rolling logs -/

def marker : Bytes := encode "[synora: older output discarded; retaining recent log tail]\n".toList

/-- A file that is open for reading and appending. -/
structure LogFile where
  content : Bytes
  position : ℕ
deriving DecidableEq, Repr

/-- `file.seek(SeekFrom::End(-n))` -/
def LogFile.seekEnd (file : LogFile) (n : ℕ) : LogFile :=
  { file with position := file.content.length - n }

/-- `file.read_exact`, into `n` bytes; `none` is an end of file before them. -/
def LogFile.readExact (file : LogFile) (n : ℕ) : Option (Bytes × LogFile) :=
  let bytes := (file.content.drop file.position).take n
  if bytes.length = n then some (bytes, { file with position := file.position + n }) else none

/-- `file.set_len(0)` -/
def LogFile.truncate (file : LogFile) : LogFile := { file with content := [] }

/-- Writes go to the end of the file wherever it was read. -/
def LogFile.writeAll (file : LogFile) (data : Bytes) : LogFile :=
  ⟨file.content ++ data, file.content.length + data.length⟩

/-- `&data[data.len().saturating_sub(limit / 2)..]` -/
def newest (limit : ℕ) (data : Bytes) : Bytes := data.drop (data.length - limit / 2)

def firstLine (tail : Bytes) : ℕ := (tail.findIdx? fun b => decide (b = 0x0a)).elim 0 (· + 1)

/-- `append_with_limit`, under the lock of the file. -/
def appendWithLimit (limit : ℕ) (file : LogFile) (data : Bytes) : Option LogFile :=
  let length := file.content.length
  let data := newest limit data
  if length + data.length > limit then
    let retained := min (limit / 2 - marker.length) length
    ((file.seekEnd retained).readExact retained).map fun (tail, file) =>
      ((file.truncate.writeAll marker).writeAll (tail.drop (firstLine tail))).writeAll data
  else some (file.writeAll data)

/-- One call after the other. -/
def appendAll (limit : ℕ) (file : LogFile) (chunks : List Bytes) : Option LogFile :=
  chunks.foldlM (appendWithLimit limit) file

/-- What a call keeps of a file that would grow over the limit, before the first line is cut. -/
def retainedTail (limit : ℕ) (content : Bytes) : Bytes :=
  content.drop (content.length - (limit / 2 - marker.length))

/-! ## One call -/

theorem length_newest (limit : ℕ) (data : Bytes) : (newest limit data).length ≤ limit / 2 := by
  rw [newest, List.length_drop]
  omega

section
variable {limit : ℕ} {file : LogFile} {data : Bytes}

theorem append_fits (h : file.content.length + (newest limit data).length ≤ limit) :
    appendWithLimit limit file data = some (file.writeAll (newest limit data)) :=
  if_neg (Nat.not_lt.mpr h)

theorem append_trims (h : limit < file.content.length + (newest limit data).length) :
    ∃ after, appendWithLimit limit file data = some after ∧
      after.content = marker ++ (retainedTail limit file.content).drop
        (firstLine (retainedTail limit file.content)) ++ newest limit data := by
  have hnew := length_newest limit data
  have hretained : min (limit / 2 - marker.length) file.content.length =
      limit / 2 - marker.length := by omega
  have hlen : (retainedTail limit file.content).length = limit / 2 - marker.length := by
    rw [retainedTail, List.length_drop]
    omega
  have hbytes : (file.content.drop (file.content.length - (limit / 2 - marker.length))).take
      (limit / 2 - marker.length) = retainedTail limit file.content :=
    List.take_of_length_le hlen.le
  unfold appendWithLimit
  simp only [if_pos h, hretained, LogFile.seekEnd, LogFile.readExact, hbytes, hlen, if_true,
    Option.map_some, Option.some.injEq, exists_eq_left']
  simp only [LogFile.writeAll, LogFile.truncate, List.nil_append]

end

/-- What stands behind the first line break of a tail. -/
theorem drop_firstLine {tail : Bytes} (h : 0x0a ∈ tail) :
    ∃ line, tail = line ++ 0x0a :: tail.drop (firstLine tail) := by
  induction tail with
  | nil => cases h
  | cons b tail ih =>
    by_cases hb : b = 0x0a
    · subst hb
      exact ⟨[], rfl⟩
    · have hmem : 0x0a ∈ tail := List.mem_of_ne_of_mem (Ne.symm hb) h
      obtain ⟨line, hline⟩ := ih hmem
      obtain ⟨p, hp⟩ : ∃ p, tail.findIdx? (fun b => decide (b = 0x0a)) = some p := by
        rw [← Option.isSome_iff_exists, List.findIdx?_isSome, List.any_eq_true]
        exact ⟨0x0a, hmem, by simp⟩
      have hfirst : firstLine (b :: tail) = firstLine tail + 1 := by
        simp [firstLine, List.findIdx?_cons, hb, hp]
      refine ⟨b :: line, ?_⟩
      rw [hfirst, List.drop_succ_cons, List.cons_append, ← hline]

/-! ## All calls -/

/-- What a log holds of all that was written: everything, or the marker and what stands behind the
first line of a stretch of it. Neither the stretch nor what came since has a byte of a marker. -/
def Rolled (limit : ℕ) (written content : Bytes) : Prop :=
  content = written ∨ ∃ lost tail since, written = lost ++ tail ++ since ∧
    tail.length = limit / 2 - marker.length ∧
    content = marker ++ (tail.drop (firstLine tail) ++ since)

/-- The end of a file is the end of a long enough suffix of it. -/
theorem retainedTail_append {limit : ℕ} (front : Bytes) {rest : Bytes}
    (hlen : limit / 2 - marker.length ≤ rest.length) :
    retainedTail limit (front ++ rest) = retainedTail limit rest := by
  have hcut : (front ++ rest).length - (limit / 2 - marker.length) =
      front.length + (rest.length - (limit / 2 - marker.length)) := by
    rw [List.length_append]
    omega
  rw [retainedTail, hcut, ← List.drop_drop, List.drop_left]
  rfl

theorem retainedTail_suffix (limit : ℕ) (content : Bytes) :
    retainedTail limit content <:+ content := List.drop_suffix _ _

theorem drop_append_suffix (lost tail since : Bytes) (n : ℕ) :
    tail.drop n ++ since <:+ lost ++ tail ++ since := by
  refine ⟨lost ++ tail.take n, ?_⟩
  rw [List.append_assoc, ← List.append_assoc (tail.take n), List.take_append_drop,
    ← List.append_assoc]

section
variable {limit : ℕ} {written : Bytes} {file : LogFile}

theorem length_retainedTail {content data : Bytes}
    (hfull : limit < content.length + (newest limit data).length) :
    (retainedTail limit content).length = limit / 2 - marker.length := by
  have hnew := length_newest limit data
  rw [retainedTail, List.length_drop]
  omega

/-- A file that is to be trimmed is long enough for its last bytes to lie behind the marker. -/
theorem retainedTail_behind_marker {rest data : Bytes}
    (hfull : limit < (marker ++ rest).length + (newest limit data).length) :
    retainedTail limit (marker ++ rest) = retainedTail limit rest := by
  have hnew := length_newest limit data
  rw [List.length_append] at hfull
  exact retainedTail_append marker (by omega)

theorem Rolled.retained {content data : Bytes} (h : Rolled limit written content)
    (hfull : limit < content.length + (newest limit data).length) :
    retainedTail limit content <:+ written := by
  obtain rfl | ⟨lost, tail, since, rfl, -, rfl⟩ := h
  · exact retainedTail_suffix limit content
  · rw [retainedTail_behind_marker hfull]
    exact (retainedTail_suffix limit _).trans (drop_append_suffix lost tail since _)

/-- One call keeps what a log holds and its bound. -/
theorem Rolled.append (hlimit : 2 * marker.length ≤ limit) (h : Rolled limit written file.content)
    (data : Bytes) :
    ∃ after, appendWithLimit limit file data = some after ∧
      Rolled limit (written ++ newest limit data) after.content ∧ after.content.length ≤ limit ∧
      newest limit data <:+ after.content := by
  have hnew := length_newest limit data
  by_cases hfull : limit < file.content.length + (newest limit data).length
  · obtain ⟨after, hafter, hcontent⟩ := append_trims hfull
    have hlen := length_retainedTail hfull
    obtain ⟨lost, hlost⟩ := h.retained hfull
    refine ⟨after, hafter, .inr ⟨lost, _, _, by rw [hlost], hlen, ?_⟩, ?_, ?_⟩
    · rw [hcontent, List.append_assoc]
    · rw [hcontent, List.length_append, List.length_append, List.length_drop, hlen]
      omega
    · rw [hcontent]
      exact List.suffix_append _ _
  · have hfits := append_fits (Nat.not_lt.mp hfull)
    refine ⟨_, hfits, ?_, ?_, List.suffix_append _ _⟩
    · obtain hwhole | ⟨lost, tail, since, rfl, hlen, hcontent⟩ := h
      · exact .inl (congrArg (· ++ newest limit data) hwhole)
      · refine .inr ⟨lost, tail, since ++ newest limit data, List.append_assoc _ _ _, hlen, ?_⟩
        rw [LogFile.writeAll, hcontent, List.append_assoc, List.append_assoc]
    · rw [LogFile.writeAll, List.length_append]
      omega

theorem appendAll_concat (chunks : List Bytes) (chunk : Bytes) :
    appendAll limit file (chunks ++ [chunk]) =
      (appendAll limit file chunks).bind fun before => appendWithLimit limit before chunk := by
  rw [appendAll, appendAll, List.foldlM_append]
  simp only [List.foldlM_cons, List.foldlM_nil, Option.bind_eq_bind, bind_pure]

theorem appendAll_rolled (hlimit : 2 * marker.length ≤ limit) (chunks : List Bytes) :
    ∃ file, appendAll limit ⟨[], 0⟩ chunks = some file ∧
      Rolled limit (chunks.flatMap (newest limit)) file.content ∧ file.content.length ≤ limit := by
  induction chunks using List.reverseRecOn with
  | nil => exact ⟨⟨[], 0⟩, rfl, .inl rfl, Nat.zero_le _⟩
  | append_singleton chunks chunk ih =>
    obtain ⟨before, hbefore, hrolled, hlen⟩ := ih
    obtain ⟨after, hafter, hnext, hbound, -⟩ := hrolled.append hlimit chunk
    refine ⟨after, ?_, ?_, hbound⟩
    · rw [appendAll_concat, hbefore, Option.bind_some, hafter]
    · rwa [List.flatMap_append, List.flatMap_singleton]

end

/-- After every call the log is within its limit, ends with what was written last, and is all that
was written or the marker before a suffix of it, which starts at a line if the stretch kept by the
last trim has a line break. A trim reads nothing of the marker before it. -/
theorem append_keeps_tail (limit : ℕ) (chunks : List Bytes) (chunk : Bytes)
    (hlimit : 2 * marker.length ≤ limit) :
    ∃ before after, appendAll limit ⟨[], 0⟩ chunks = some before ∧
      appendAll limit ⟨[], 0⟩ (chunks ++ [chunk]) = some after ∧
      after.content.length ≤ limit ∧ newest limit chunk <:+ after.content ∧
      (after.content = (chunks ++ [chunk]).flatMap (newest limit) ∨
        ∃ lost tail since, (chunks ++ [chunk]).flatMap (newest limit) = lost ++ tail ++ since ∧
          tail.length = limit / 2 - marker.length ∧
          after.content = marker ++ (tail.drop (firstLine tail) ++ since) ∧
          tail.drop (firstLine tail) ++ since <:+ (chunks ++ [chunk]).flatMap (newest limit) ∧
          (0x0a ∈ tail → ∃ line, tail = line ++ 0x0a :: tail.drop (firstLine tail))) ∧
      (limit < before.content.length + (newest limit chunk).length →
        after.content = marker ++ (retainedTail limit before.content).drop
          (firstLine (retainedTail limit before.content)) ++ newest limit chunk ∧
        retainedTail limit before.content <:+ chunks.flatMap (newest limit) ∧
        ∀ rest, before.content = marker ++ rest → retainedTail limit before.content <:+ rest) := by
  obtain ⟨before, hbefore, hrolled, hlen⟩ := appendAll_rolled hlimit chunks
  obtain ⟨after, hafter, hnext, hbound, hends⟩ := hrolled.append hlimit chunk
  have hwritten : chunks.flatMap (newest limit) ++ newest limit chunk =
      (chunks ++ [chunk]).flatMap (newest limit) := by
    rw [List.flatMap_append, List.flatMap_singleton]
  refine ⟨before, after, hbefore, ?_, hbound, hends, ?_, fun hfull => ⟨?_, ?_, ?_⟩⟩
  · rw [appendAll_concat, hbefore, Option.bind_some, hafter]
  · rw [hwritten] at hnext
    obtain hwhole | ⟨lost, tail, since, hsplit, htail, hcontent⟩ := hnext
    · exact .inl hwhole
    · refine .inr ⟨lost, tail, since, hsplit, htail, hcontent, ?_, drop_firstLine⟩
      rw [hsplit]
      exact drop_append_suffix lost tail since _
  · obtain ⟨after', hafter', hcontent⟩ := append_trims hfull
    rw [hafter] at hafter'
    rwa [Option.some.inj hafter']
  · exact hrolled.retained hfull
  · intro rest hrest
    rw [hrest] at hfull ⊢
    rw [retainedTail_behind_marker hfull]
    exact retainedTail_suffix limit rest

theorem append_keeps_tail_progress :
    let progress := List.replicate 40 (encode "progress\n".toList)
    ∃ before after, appendAll 256 ⟨[], 0⟩ progress = some before ∧
      appendAll 256 ⟨[], 0⟩ (progress ++ [encode "done\n".toList]) = some after ∧
      after.content.length ≤ 256 ∧ newest 256 (encode "done\n".toList) <:+ after.content := by
  intro progress
  obtain ⟨before, after, hbefore, hafter, hlen, hends, -⟩ :=
    append_keeps_tail 256 progress (encode "done\n".toList) (by decide)
  exact ⟨before, after, hbefore, hafter, hlen, hends⟩

end Synora.Engine
