import FaninMcp.StderrCapture

/-!
# The lines of a child's stderr

The log has one line for each segment of the stream between line feeds, however
the reads cut it. A carriage return in front of the line feed is taken away
after it has been counted, so a segment that fills a line exactly is marked as
cut short where its lines end in both.
-/

set_option autoImplicit false

namespace FaninMcp.StderrLines
open Foundation.RustText Foundation.LossyUtf8 FaninMcp.Redaction FaninMcp.StderrCapture

section Segments

/-- What stands between line feeds; behind the last one, only what is not empty. -/
def segments (stream : Bytes) : List Bytes :=
  let parts := stream.splitOn newline
  if parts.getLast? = some [] then parts.dropLast else parts

def withoutCarriageReturn (bytes : Bytes) : Bytes :=
  if bytes.getLast? = some carriageReturn then bytes.dropLast else bytes

def segmentLine (segment : Bytes) : Text :=
  fromUtf8Lossy (withoutCarriageReturn (segment.take maxLogLineBytes)) ++
    if maxLogLineBytes < segment.length then logLineTruncatedMarker else []

theorem lineText_segment (segment : Bytes) : lineText segment = segmentLine segment := by
  rw [lineText, segmentLine]
  split_ifs
  · rfl
  · exact (List.append_nil _).symm

theorem splitLines_splitOn (line : Bytes) (h : newline ∉ line) (bytes : Bytes) :
    (line ++ bytes).splitOn newline = (splitLines line bytes).1 ++ [(splitLines line bytes).2] := by
  induction bytes generalizing line with
  | nil => simpa [splitLines] using List.splitOn_eq_singleton h
  | cons b bs ih =>
    rw [splitLines]
    split_ifs with hb
    · rw [hb, List.splitOn_append_cons_self_of_not_mem h]
      simpa using ih [] List.not_mem_nil
    · have hgrown : newline ∉ line ++ [b] := by simp [h, Ne.symm hb]
      simpa using ih _ hgrown

theorem streamLines_segments (stream : Bytes) : streamLines stream = segments stream := by
  have hsplit := splitLines_splitOn [] List.not_mem_nil stream
  rw [List.nil_append] at hsplit
  simp only [streamLines, segments, hsplit, List.getLast?_concat, Option.some.injEq,
    List.dropLast_concat]

end Segments

structure Delivers (chunks : List Bytes) (stream : Bytes) : Prop where
  sizes : ∀ chunk ∈ chunks, 1 ≤ chunk.length ∧ chunk.length ≤ 1024
  whole : chunks.flatten = stream

/-- What is handed over when the stream has been read to its end. -/
def handedOver (orders : ℕ → List Text) (chunks : List Bytes) : List Text :=
  spawnStderrLogTask orders (chunks.map .data ++ [.data []])

section Delivery
variable {chunks : List Bytes} {stream : Bytes}

theorem handedOver_segments (orders : ℕ → List Text) (h : Delivers chunks stream) :
    handedOver orders chunks =
      (segments stream).mapIdx fun i segment => redact (orders i) (segmentLine segment) := by
  have hne : ∀ chunk ∈ chunks, chunk ≠ [] :=
    fun chunk hc => List.length_pos_iff.mp (h.sizes chunk hc).1
  rw [handedOver, handed_lines orders hne, streamLines_segments, h.whole]
  simp only [lineText_segment]

theorem handedOver_plain (h : Delivers chunks stream) :
    handedOver (fun _ => []) chunks = (segments stream).map segmentLine := by
  rw [handedOver_segments _ h]
  exact List.ext_getElem (by simp) (by simp)

/-- However the stream is delivered, its segments come out as lines, one after
the other, each redacted on its own. -/
theorem stderr_lines_of_stream (h : Delivers chunks stream) :
    handedOver (fun _ => []) chunks = (segments stream).map segmentLine ∧
    (∀ orders, handedOver orders chunks =
      (segments stream).mapIdx fun i segment => redact (orders i) (segmentLine segment)) ∧
    ∀ orders chunks', Delivers chunks' stream →
      handedOver orders chunks' = handedOver orders chunks := by
  refine ⟨handedOver_plain h, fun orders => handedOver_segments orders h,
    fun orders chunks' h' => ?_⟩
  rw [handedOver_segments orders h, handedOver_segments orders h']

theorem stderr_lines_of_stream_two :
    handedOver (fun _ => []) [[97, 10, 10], [98]] = (segments [97, 10, 10, 98]).map segmentLine :=
  (@stderr_lines_of_stream [[97, 10, 10], [98]] _ ⟨by simp, rfl⟩).1

end Delivery

section Terminators
variable {parts : List Bytes}

def terminated (terminator : Bytes) (parts : List Bytes) : Bytes :=
  parts.flatMap (· ++ terminator)

def Unbroken (parts : List Bytes) : Prop :=
  ∀ part ∈ parts, newline ∉ part ∧ carriageReturn ∉ part

theorem splitOn_terminated {init : Bytes} (h : ∀ part ∈ parts, newline ∉ part ++ init) :
    (terminated (init ++ [newline]) parts).splitOn newline = parts.map (· ++ init) ++ [[]] := by
  induction parts with
  | nil => simp [terminated]
  | cons part rest ih =>
    have hpart := h part (by simp)
    have hrest := ih fun p hp => h p (by simp [hp])
    have hsplit := List.splitOn_append_cons_self_of_not_mem hpart
      (terminated (init ++ [newline]) rest)
    rw [hrest] at hsplit
    simpa [terminated] using hsplit

theorem segments_terminated (init : Bytes) (h : ∀ part ∈ parts, newline ∉ part ++ init) :
    segments (terminated (init ++ [newline]) parts) = parts.map (· ++ init) := by
  simp only [segments, splitOn_terminated h, List.getLast?_concat, if_true, List.dropLast_concat]

theorem segments_lf (h : Unbroken parts) : segments (terminated [newline] parts) = parts := by
  have hsplit := segments_terminated [] fun part hp => by simpa using (h part hp).1
  simpa using hsplit

theorem segments_crlf (h : Unbroken parts) :
    segments (terminated [carriageReturn, newline] parts) = parts.map (· ++ [carriageReturn]) :=
  segments_terminated [carriageReturn] fun part hp => by
    have hapart : newline ≠ carriageReturn := by decide
    simp [(h part hp).1, hapart]

theorem withoutCarriageReturn_self {bytes : Bytes} (h : carriageReturn ∉ bytes) :
    withoutCarriageReturn bytes = bytes :=
  if_neg fun hlast => h (List.mem_of_getLast? hlast)

theorem segmentLine_crlf {part : Bytes} (h : carriageReturn ∉ part) :
    segmentLine (part ++ [carriageReturn]) = segmentLine part ++
      if part.length = maxLogLineBytes then logLineTruncatedMarker else [] := by
  have hcut : carriageReturn ∉ part.take maxLogLineBytes := fun hin => h (List.mem_of_mem_take hin)
  rw [segmentLine, segmentLine, withoutCarriageReturn_self hcut]
  by_cases hfits : part.length < maxLogLineBytes
  · have hshort : (part ++ [carriageReturn]).length ≤ maxLogLineBytes := by simp; omega
    rw [List.take_of_length_le hshort, List.take_of_length_le hfits.le, withoutCarriageReturn,
      List.getLast?_concat, if_pos rfl, List.dropLast_concat, if_neg hshort.not_gt,
      if_neg hfits.not_gt, if_neg hfits.ne]
    simp
  · have hlong : maxLogLineBytes < (part ++ [carriageReturn]).length := by simp; omega
    rw [List.take_append_of_le_length (by omega), withoutCarriageReturn_self hcut, if_pos hlong]
    by_cases hfull : part.length = maxLogLineBytes
    · simp [hfull]
    · rw [if_neg hfull, if_pos (by omega), List.append_nil]

theorem crlf_lines_iff (h : Unbroken parts) :
    (parts.map (· ++ [carriageReturn])).map segmentLine = parts.map segmentLine ↔
      ∀ part ∈ parts, part.length ≠ maxLogLineBytes := by
  rw [List.map_map, List.map_inj_left]
  refine forall₂_congr fun part hp => ?_
  rw [Function.comp_apply, segmentLine_crlf (h part hp).2]
  by_cases hfull : part.length = maxLogLineBytes
  · have hne : logLineTruncatedMarker ≠ [] := by decide
    rw [if_pos hfull, List.append_right_eq_self]
    exact ⟨fun hnil => absurd hnil hne, fun hother => absurd hfull hother⟩
  · rw [if_neg hfull, List.append_nil]
    exact ⟨fun _ => hfull, fun _ => rfl⟩

section Pair
variable {crlf lf : List Bytes} (h : Unbroken parts)
  (hcrlf : Delivers crlf (terminated [carriageReturn, newline] parts))
  (hlf : Delivers lf (terminated [newline] parts))
include h hcrlf hlf

theorem crlf_plain_iff : handedOver (fun _ => []) crlf = handedOver (fun _ => []) lf ↔
    ∀ part ∈ parts, part.length ≠ maxLogLineBytes := by
  rw [handedOver_plain hcrlf, handedOver_plain hlf, segments_crlf h, segments_lf h]
  exact crlf_lines_iff h

theorem crlf_same (hlength : ∀ part ∈ parts, part.length ≠ maxLogLineBytes)
    (orders : ℕ → List Text) : handedOver orders crlf = handedOver orders lf := by
  rw [handedOver_segments orders hcrlf, handedOver_segments orders hlf, segments_crlf h,
    segments_lf h, List.mapIdx_eq_iff]
  intro i
  rw [List.getElem?_mapIdx, List.getElem?_map]
  cases hpart : parts[i]? with
  | none => rfl
  | some part =>
    have hp : part ∈ parts := List.mem_of_getElem? hpart
    have hline : segmentLine (part ++ [carriageReturn]) = segmentLine part := by
      rw [segmentLine_crlf (h part hp).2, if_neg (hlength part hp), List.append_nil]
    rw [Option.map_some, Option.map_some, Option.map_some, hline]

/-- The streams give the same lines exactly when no segment fills a line to the
last byte: without secrets there is a difference, and beyond that none whatever
is redacted. -/
theorem crlf_capture_exact :
    ((∀ orders, handedOver orders crlf = handedOver orders lf) ↔
      ∀ part ∈ parts, part.length ≠ maxLogLineBytes) ∧
    (handedOver (fun _ => []) crlf = handedOver (fun _ => []) lf ↔
      ∀ part ∈ parts, part.length ≠ maxLogLineBytes) :=
  ⟨⟨fun hall => (crlf_plain_iff h hcrlf hlf).mp (hall _), crlf_same h hcrlf hlf⟩,
    crlf_plain_iff h hcrlf hlf⟩

end Pair

/-- Two letters, an empty line and another letter, with either end of a line, in
chunks that part an end from its line and in two. -/
theorem crlf_capture_exact_letter :
    handedOver (fun _ => []) [[97, 98], [13], [10, 13], [10, 99, 13, 10]] =
        handedOver (fun _ => []) [[97], [98, 10, 10], [99, 10]] ↔
      ∀ part ∈ [([97, 98] : Bytes), [], [99]], part.length ≠ maxLogLineBytes :=
  (@crlf_capture_exact [[97, 98], [], [99]] _ _ (by simp [Unbroken, newline, carriageReturn])
    ⟨by simp, rfl⟩ ⟨by simp, rfl⟩).2

def TerminatorIndependent : Prop :=
  ∀ parts, Unbroken parts → ∀ crlf lf,
    Delivers crlf (terminated [carriageReturn, newline] parts) →
    Delivers lf (terminated [newline] parts) →
    ∀ orders, handedOver orders crlf = handedOver orders lf

theorem delivers_bytes (stream : Bytes) : Delivers (stream.map fun b => [b]) stream := by
  refine ⟨fun chunk hc => ?_, ?_⟩
  · obtain ⟨b, _, rfl⟩ := List.mem_map.mp hc
    simp
  · rw [← List.flatMap_def]
    exact List.flatMap_singleton' stream

/-- A line of 8192 letters. -/
theorem full_line_differs : ¬ TerminatorIndependent := by
  intro hall
  have hunbroken : Unbroken [List.replicate maxLogLineBytes 97] := by
    intro part hp
    rw [List.mem_singleton.mp hp]
    have hletter : ∀ b ∈ List.replicate maxLogLineBytes (97 : UInt8), b = 97 :=
      fun b hb => List.eq_of_mem_replicate hb
    exact ⟨fun hin => absurd (hletter _ hin) (by decide),
      fun hin => absurd (hletter _ hin) (by decide)⟩
  have hsame := hall _ hunbroken _ _ (delivers_bytes _) (delivers_bytes _) fun _ => []
  have hlength := (crlf_plain_iff hunbroken (delivers_bytes _) (delivers_bytes _)).mp hsame
  exact hlength _ (List.mem_singleton_self _) (List.length_replicate ..)

end Terminators

end FaninMcp.StderrLines
