import FaninMcp.Foundation.LossyUtf8
import FaninMcp.Foundation.TextTiling
import FaninMcp.Redaction

/-!
# Capturing a child's stderr

The bytes a child prints are cut into lines, each line is cut at a length, and
what is kept of it is decoded and redacted on its own. A secret the child
printed whole is redacted where a line keeps all of it.
-/

set_option autoImplicit false

namespace FaninMcp.StderrCapture
open Foundation.RustText Foundation.LossyUtf8 Foundation.TextTiling Redaction

def maxLogLineBytes : ℕ := 8*1024

def logLineTruncatedMarker : Text := "... [truncated]".toList

def newline : UInt8 := 10

def carriageReturn : UInt8 := 13

/-- What the task keeps between bytes, and the lines it has handed to `append_log_line`. -/
structure Capture where
  line : Bytes
  truncated : Bool
  handed : List Text

/-- What one read of the pipe gives. No bytes mean that the pipe is closed. -/
inductive Read where
  | data (chunk : Bytes)
  | failed (error : Text)

section Task
-- the order in which the registered secrets are iterated for each line
variable (orders : ℕ → List Text)

def emitStderrLine (c : Capture) : Capture :=
  let line := if c.line.getLast? = some carriageReturn then c.line.dropLast else c.line
  let text := fromUtf8Lossy line
  let text := if c.truncated then text ++ logLineTruncatedMarker else text
  let redacted := redact (orders c.handed.length) text
  { c with line := [], handed := c.handed ++ [redacted] }

def captureByte (c : Capture) (byte : UInt8) : Capture :=
  if byte = newline then { emitStderrLine orders c with truncated := false }
  else if c.line.length < maxLogLineBytes then { c with line := c.line ++ [byte] }
  else { c with truncated := true }

def captureReads : Capture → List Read → Capture
  | c, [] => c
  | c, .data [] :: _ => if c.line ≠ [] ∨ c.truncated then emitStderrLine orders c else c
  | c, .data (b::bs) :: reads => captureReads ((b::bs).foldl (captureByte orders) c) reads
  | c, .failed error :: _ => { c with handed := c.handed ++ ["stderr read error: ".toList ++ error] }

def spawnStderrLogTask (reads : List Read) : List Text :=
  (captureReads orders ⟨[], false, []⟩ reads).handed

end Task

/-- What `append_log_line` enqueues for the writer of the log file. -/
def appendLogLine (order : List Text) (line : Text) : Text := redact order line

/-- The finished lines of a stream, and the one after the last newline. -/
def splitLines (line : Bytes) : Bytes → List Bytes × Bytes
  | [] => ([], line)
  | b::bs =>
    if b = newline then (line :: (splitLines [] bs).1, (splitLines [] bs).2)
    else splitLines (line ++ [b]) bs

def streamLines (stream : Bytes) : List Bytes :=
  let (finished, last) := splitLines [] stream
  if last = [] then finished else finished ++ [last]

/-- The bytes kept of a line: the first `MAX_LOG_LINE_BYTES`, without a carriage return at the end. -/
def kept (line : Bytes) : Bytes :=
  let cut := line.take maxLogLineBytes
  if cut.getLast? = some carriageReturn then cut.dropLast else cut

def lineText (line : Bytes) : Text :=
  if maxLogLineBytes < line.length then fromUtf8Lossy (kept line) ++ logLineTruncatedMarker
  else fromUtf8Lossy (kept line)

section Lines
variable (orders : ℕ → List Text)

/-- The state of the task in the middle of a line, from the bytes of that line. -/
def midLine (line : Bytes) (handed : List Text) : Capture :=
  ⟨line.take maxLogLineBytes, maxLogLineBytes < line.length, handed⟩

theorem emit_midLine (line : Bytes) (handed : List Text) :
    (emitStderrLine orders (midLine line handed)).handed =
      handed ++ [redact (orders handed.length) (lineText line)] := by
  by_cases h : maxLogLineBytes < line.length <;> simp [emitStderrLine, midLine, lineText, kept, h]

theorem captureByte_newline (line : Bytes) (handed : List Text) :
    captureByte orders (midLine line handed) newline =
      midLine [] (handed ++ [redact (orders handed.length) (lineText line)]) := by
  rw [captureByte, if_pos rfl, ← emit_midLine]
  simp [emitStderrLine, midLine]

theorem captureByte_inside {b : UInt8} (hb : b ≠ newline) (line : Bytes) (handed : List Text) :
    captureByte orders (midLine line handed) b = midLine (line ++ [b]) handed := by
  rw [captureByte, if_neg hb]
  simp only [midLine, List.length_take, List.length_append, List.length_singleton]
  by_cases h : line.length < maxLogLineBytes
  · rw [if_pos (by omega), List.take_of_length_le (by omega), List.take_of_length_le (by simp; omega)]
    simp
    omega
  · rw [if_neg (by omega), List.take_append_of_le_length (by omega)]
    simp
    omega

theorem capture_bytes (bytes line : Bytes) (handed : List Text) :
    bytes.foldl (captureByte orders) (midLine line handed) =
      midLine (splitLines line bytes).2 (handed ++ (splitLines line bytes).1.mapIdx fun i finished =>
        redact (orders (handed.length + i)) (lineText finished)) := by
  induction bytes generalizing line handed with
  | nil => simp [splitLines]
  | cons b bs ih =>
    rw [List.foldl_cons, splitLines]
    split_ifs with hb
    · rw [hb, captureByte_newline, ih]
      simp [List.mapIdx_cons, Nat.add_assoc, Nat.add_comm 1]
    · rw [captureByte_inside orders hb, ih]

theorem capture_chunks {chunks : List Bytes} (h : ∀ chunk ∈ chunks, chunk ≠ []) (c : Capture)
    (reads : List Read) :
    captureReads orders c (chunks.map .data ++ reads) =
      captureReads orders (chunks.flatten.foldl (captureByte orders) c) reads := by
  induction chunks generalizing c with
  | nil => rfl
  | cons chunk chunks ih =>
    obtain ⟨b, bs, rfl⟩ := List.exists_cons_of_ne_nil (h chunk (by simp))
    rw [List.map_cons, List.cons_append, captureReads, List.flatten_cons, List.foldl_append]
    exact ih (fun d hd => h d (by simp [hd])) _

/-- However the stream arrives, its lines are handed over one after the other,
each redacted on its own. -/
theorem handed_lines {chunks : List Bytes} (h : ∀ chunk ∈ chunks, chunk ≠ []) :
    spawnStderrLogTask orders (chunks.map .data ++ [.data []]) =
      (streamLines chunks.flatten).mapIdx fun i line => redact (orders i) (lineText line) := by
  have hstart : (⟨[], false, []⟩ : Capture) = midLine [] [] := by simp [midLine]
  rw [spawnStderrLogTask, capture_chunks orders h, hstart, capture_bytes, streamLines]
  generalize splitLines [] chunks.flatten = split
  obtain ⟨finished, last⟩ := split
  by_cases hl : last = []
  · simp [captureReads, hl, midLine]
  · have hline : (midLine last (([] : List Text) ++ finished.mapIdx fun i line =>
        redact (orders (([] : List Text).length + i)) (lineText line))).line ≠ [] := by
      simp [midLine, hl, maxLogLineBytes]
    rw [captureReads, if_pos (Or.inl hline), emit_midLine]
    simp [hl, List.mapIdx_append]

end Lines

section Sharing
variable {s : Text}

def Apart (s : Text) (bytes : Bytes) : Prop := ∀ b ∈ bytes, b ∉ utf8 s

def Foreign (s : Text) (c : Char) : Prop := Apart s (String.utf8EncodeChar c)

instance (bytes : Bytes) : Decidable (Apart s bytes) :=
  List.decidableBAll (· ∉ utf8 s) bytes

theorem apart_utf8 {text : Text} : Apart s (utf8 text) ↔ ∀ c ∈ text, Foreign s c := by
  simp only [Apart, Foreign, utf8, List.mem_flatMap]
  constructor
  · intro h c hc b hb
    exact h b ⟨c, hc, hb⟩
  · rintro h b ⟨c, hc, hb⟩
    exact h c hc b hb

theorem own {c : Char} (hc : c ∈ s) : ¬ Foreign s c := by
  intro h
  obtain ⟨b, bs, henc⟩ := List.exists_cons_of_ne_nil (String.utf8EncodeChar_ne_nil (c := c))
  exact h b (by simp [henc]) (List.mem_flatMap.mpr ⟨c, hc, by simp [henc]⟩)

theorem apart_around {before after left right : Bytes} (hb : Apart s before) (ha : Apart s after)
    (h : before ++ utf8 s ++ after = left ++ utf8 s ++ right) : Apart s left ∧ Apart s right := by
  have hcount := congrArg (fun bytes => (bytes.filter (· ∈ utf8 s)).length) h
  have hb0 : before.filter (· ∈ utf8 s) = [] := by simpa [List.filter_eq_nil_iff, Apart] using hb
  have ha0 : after.filter (· ∈ utf8 s) = [] := by simpa [List.filter_eq_nil_iff, Apart] using ha
  simp only [List.filter_append, hb0, ha0, List.length_append, List.length_nil] at hcount
  have hl : left.filter (· ∈ utf8 s) = [] := List.length_eq_zero_iff.mp (by omega)
  have hr : right.filter (· ∈ utf8 s) = [] := List.length_eq_zero_iff.mp (by omega)
  rw [List.filter_eq_nil_iff] at hl hr
  exact ⟨by simpa [Apart] using hl, by simpa [Apart] using hr⟩

/-- A scalar decoded from the stream is one of the secret's, or has no byte of it. -/
theorem mem_or_foreign {before after bytes : Bytes} (hs : s ≠ []) (hb : Apart s before)
    (ha : Apart s after) (hin : bytes <:+: before ++ utf8 s ++ after) {c : Char}
    (hc : some c ∈ utf8Chunks bytes) : c ∈ s ∨ Foreign s c := by
  have hstream := mem_chunks_iff.mpr ((mem_chunks_iff.mp hc).trans hin)
  rw [utf8Chunks_around hs] at hstream
  simp only [List.mem_append, List.mem_map, Option.some.injEq, exists_eq_right] at hstream
  rcases hstream with (h | h) | h
  · exact Or.inr fun b hin' => hb b ((mem_chunks_iff.mp h).subset hin')
  · exact Or.inl h
  · exact Or.inr fun b hin' => ha b ((mem_chunks_iff.mp h).subset hin')

theorem mem_lossy {bytes : Bytes} {c : Char} (h : c ∈ fromUtf8Lossy bytes) :
    c = replacement ∨ some c ∈ utf8Chunks bytes := by
  obtain ⟨piece, hpiece, rfl⟩ := List.mem_map.mp h
  cases piece with
  | none => exact Or.inl rfl
  | some d => exact Or.inr hpiece

theorem lossy_foreign {bytes : Bytes} (hr : Foreign s replacement) (h : Apart s bytes) :
    ∀ c ∈ fromUtf8Lossy bytes, Foreign s c := by
  intro c hc
  rcases mem_lossy hc with rfl | hc
  · exact hr
  · exact fun b hb => h b ((mem_chunks_iff.mp hc).subset hb)

theorem infix_of_lossy {bytes : Bytes} (hr : replacement ∉ s) (h : s <:+: fromUtf8Lossy bytes) :
    utf8 s <:+: bytes := by
  obtain ⟨left, right, heq⟩ := h
  obtain ⟨front, ys, hchunks, hfront, hys⟩ := List.map_eq_append_iff.mp heq.symm
  obtain ⟨xs, middle, rfl, hxs, hmiddle⟩ := List.map_eq_append_iff.mp hfront
  have hsome : middle = s.map some := by
    subst hmiddle
    clear heq hfront hxs hys hchunks
    induction middle with
    | nil => rfl
    | cons piece middle ih =>
      cases piece with
      | none => exact absurd (by simp) hr
      | some c =>
        simp only [List.map_cons, Option.getD_some, List.mem_cons, not_or] at hr ⊢
        rw [← ih hr.2]
  rw [hsome] at hchunks
  exact infix_of_chunks hchunks

end Sharing

/-- The secret is registered, is printed between bytes that have none of its
own, and shares none with the markers and the other registered secrets. -/
structure PrintedWhole (S : SecretSet) (s : Text) (before after : Bytes) : Prop where
  registered : s ∈ S.values
  before_apart : Apart s before
  after_apart : Apart s after
  marker_apart : Apart s (utf8 marker)
  truncated_apart : Apart s (utf8 logLineTruncatedMarker)
  others_apart : ∀ t ∈ S.values, t ≠ s → Apart s (utf8 t)

/-- What a line keeps is all of the secret or not one scalar of it. For a secret
that has a byte of U+FFFD it is told from the decoded text, where an invalid
sequence shows as U+FFFD. -/
def KeepsWhole (s : Text) (bytes : Bytes) : Prop :=
  (Foreign s replacement → utf8 s <:+: bytes ∨ ∀ c ∈ s, ¬ String.utf8EncodeChar c <:+: bytes) ∧
  (¬ Foreign s replacement → Tiled s (Foreign s) (fromUtf8Lossy bytes))

def Unseen (s : Text) (lines : List Text) : Prop := ∀ line ∈ lines, Apart s (utf8 line)

section Exactness
variable {S : SecretSet} {s : Text} {before after : Bytes}

theorem redact_foreign_iff (h : PrintedWhole S s before after) {order : List Text}
    (ho : IterationOf order S.values) (text : Text) :
    Apart s (utf8 (redact order text)) ↔ Tiled s (Foreign s) text := by
  have hs := secret_ne_nil h.registered
  have hmarker := apart_utf8.mp h.marker_apart
  obtain ⟨left, right, rfl⟩ := List.append_of_mem ((ho.mem s).mpr h.registered)
  have hother : ∀ t, t ∈ left ∨ t ∈ right → t ≠ [] ∧ ∀ c ∈ t, Foreign s c := by
    intro t ht
    have hmem : t ∈ S.values := (ho.mem t).mp (by simp; tauto)
    refine ⟨secret_ne_nil hmem, apart_utf8.mp (h.others_apart t hmem ?_)⟩
    rintro rfl
    exact (List.nodup_middle.mp ho.nodup).notMem (List.mem_append.mpr ht)
  rw [apart_utf8, redact_append, redact_cons hs]
  have hright : ∀ u : Text, (∀ c ∈ redact right u, Foreign s c) ↔ ∀ c ∈ u, Foreign s c := by
    clear ho
    induction right with
    | nil => exact fun u => Iff.rfl
    | cons t right ih =>
      intro u
      obtain ⟨ht, hforeign⟩ := hother t (by simp)
      rw [redact_cons ht, ih fun r hr => hother r (by simp; tauto)]
      refine forall_congr' fun c => ?_
      by_cases hc : Foreign s c
      · simp [hc]
      · rw [mem_replace_iff ht (fun hin => hc (hforeign c hin)) fun hin => hc (hmarker c hin)]
  rw [hright, replace_foreign_iff hs (fun c hc => own hc) hmarker]
  clear ho hright
  induction left generalizing text with
  | nil => rfl
  | cons t left ih =>
    obtain ⟨ht, hforeign⟩ := hother t (by simp)
    have hleft := ih (replace t marker text) fun r hr => hother r (by simp; tauto)
    rw [redact_cons ht]
    refine hleft.trans ?_
    exact tiled_replace hs (fun c hc => own hc) ht marker_ne_nil hforeign hmarker text

theorem lineText_foreign_iff (h : PrintedWhole S s before after) {order : List Text}
    (ho : IterationOf order S.values) (line : Bytes) :
    Apart s (utf8 (redact order (lineText line))) ↔
      Tiled s (Foreign s) (fromUtf8Lossy (kept line)) := by
  rw [redact_foreign_iff h ho, lineText]
  split_ifs
  · exact tiled_append_right (secret_ne_nil h.registered) (fun c hc => own hc)
      (apart_utf8.mp h.truncated_apart) _
  · rfl

theorem keepsWhole_iff (h : PrintedWhole S s before after) {bytes : Bytes}
    (hin : bytes <:+: before ++ utf8 s ++ after) :
    Tiled s (Foreign s) (fromUtf8Lossy bytes) ↔ KeepsWhole s bytes := by
  have hs := secret_ne_nil h.registered
  have hown : ∀ c ∈ s, ¬ Foreign s c := fun c hc => own hc
  by_cases hr : Foreign s replacement
  · have hpiece := fun c => mem_or_foreign (c := c) hs h.before_apart h.after_apart hin
    simp only [KeepsWhole, hr, forall_const, not_true_eq_false, IsEmpty.forall_iff, and_true]
    constructor
    · intro ht
      rw [or_iff_not_imp_right]
      intro hsome
      push Not at hsome
      obtain ⟨c, hc, henc⟩ := hsome
      have hmem : c ∈ fromUtf8Lossy bytes :=
        List.mem_map.mpr ⟨some c, mem_chunks_iff.mpr henc, rfl⟩
      exact infix_of_lossy (fun hin' => own hin' hr) (infix_of_tiled ht hmem (own hc))
    · rintro (⟨left, right, rfl⟩ | hnone)
      · obtain ⟨front, back, hstream⟩ := hin
        have hsplit : before ++ utf8 s ++ after = (front ++ left) ++ utf8 s ++ (right ++ back) := by
          rw [← hstream]
          simp
        obtain ⟨hleft, hright⟩ := apart_around h.before_apart h.after_apart hsplit
        rw [fromUtf8Lossy_around hs, List.append_assoc,
          tiled_append_left hs hown (lossy_foreign hr fun b hb => hleft b (by simp [hb]))]
        exact .copy (tiled_of_foreign hs hown
          (lossy_foreign hr fun b hb => hright b (by simp [hb])))
      · refine tiled_of_foreign hs hown fun c hc => ?_
        rcases mem_lossy hc with rfl | hc
        · exact hr
        · exact (hpiece c hc).resolve_left fun hin' => hnone c hin' (mem_chunks_iff.mp hc)
  · simp [KeepsWhole, hr]

theorem splitLines_within (bytes line : Bytes) : (splitLines line bytes).2 <:+: line ++ bytes ∧
    ∀ l ∈ (splitLines line bytes).1, l <:+: line ++ bytes := by
  induction bytes generalizing line with
  | nil => simp [splitLines]
  | cons b bs ih =>
    rw [splitLines]
    split_ifs
    · obtain ⟨hlast, hall⟩ := ih []
      have hrest : bs <:+: line ++ b::bs := ⟨line ++ [b], [], by simp⟩
      refine ⟨hlast.trans hrest, fun l hl => ?_⟩
      rcases List.mem_cons.mp hl with rfl | hl
      · exact (List.prefix_append _ _).isInfix
      · exact (hall l hl).trans hrest
    · simpa using ih (line ++ [b])

theorem kept_within {stream line : Bytes} (h : line ∈ streamLines stream) :
    kept line <:+: stream := by
  have hline : line <:+: stream := by
    obtain ⟨hlast, hall⟩ := splitLines_within stream []
    rw [streamLines] at h
    dsimp only at h
    split_ifs at h
    · exact hall line h
    · rcases List.mem_append.mp h with h | h
      · exact hall line h
      · rw [List.mem_singleton.mp h]
        exact hlast
  have hcut : line.take maxLogLineBytes <:+: line := (List.take_prefix _ _).isInfix
  rw [kept]
  split_ifs
  · exact ((List.dropLast_prefix _).isInfix.trans hcut).trans hline
  · exact hcut.trans hline

/-- A secret that the child printed whole stays out of the lines handed to the
log, however the reads cut the stream, exactly when every line of the stream
keeps all of it or none. -/
theorem stderr_capture_exact (h : PrintedWhole S s before after) {chunks : List Bytes}
    (hchunks : ∀ chunk ∈ chunks, chunk ≠ []) (hstream : chunks.flatten = before ++ utf8 s ++ after)
    {orders : ℕ → List Text} (ho : ∀ i, IterationOf (orders i) S.values) :
    Unseen s (spawnStderrLogTask orders (chunks.map .data ++ [.data []])) ↔
      ∀ line ∈ streamLines (before ++ utf8 s ++ after), KeepsWhole s (kept line) := by
  rw [handed_lines orders hchunks, hstream, Unseen]
  have hline : ∀ i, ∀ line ∈ streamLines (before ++ utf8 s ++ after),
      (Apart s (utf8 (redact (orders i) (lineText line))) ↔ KeepsWhole s (kept line)) :=
    fun i line hl => (lineText_foreign_iff h (ho i) line).trans (keepsWhole_iff h (kept_within hl))
  constructor
  · intro hun line hl
    obtain ⟨i, hi, rfl⟩ := List.getElem_of_mem hl
    exact (hline i _ hl).mp (hun _ (List.mem_mapIdx.mpr ⟨i, hi, rfl⟩))
  · intro hkeep handed hh
    obtain ⟨i, hi, rfl⟩ := List.mem_mapIdx.mp hh
    exact (hline i _ (List.getElem_mem hi)).mpr (hkeep _ (List.getElem_mem hi))

end Exactness

section OneSecret

theorem printedWhole_only {s : Text} (h : s ≠ []) {before after : Bytes} (hb : Apart s before)
    (ha : Apart s after) (hm : Apart s (utf8 marker)) (ht : Apart s (utf8 logLineTruncatedMarker)) :
    PrintedWhole (.only s h) s before after :=
  ⟨mem_only.mpr rfl, hb, ha, hm, ht, fun _ ht hne => absurd (mem_only.mp ht) hne⟩

theorem stderr_capture_exact_password : Unseen "k7".toList
    (spawnStderrLogTask (fun _ => ["k7".toList])
      ([utf8 "id=k".toList, utf8 "7\r\n".toList].map .data ++ [.data []])) := by
  have hprinted : PrintedWhole (.only "k7".toList (by decide)) "k7".toList
      (utf8 "id=".toList) (utf8 "\r\n".toList) :=
    printedWhole_only _ (by decide) (by decide) (by decide) (by decide)
  refine (stderr_capture_exact hprinted (by decide) (by decide)
    fun _ => iterationOf_only (by decide)).mpr fun line hl => ?_
  have hline : line = utf8 "id=k7\r".toList := by
    have hlines : streamLines (utf8 "id=".toList ++ utf8 "k7".toList ++ utf8 "\r\n".toList) =
        [utf8 "id=k7\r".toList] := by decide
    exact List.mem_singleton.mp (hlines ▸ hl)
  refine ⟨fun _ => Or.inl ⟨utf8 "id=".toList, [], ?_⟩, fun h => absurd ?_ h⟩
  · rw [hline]
    decide
  · exact (by decide : Apart "k7".toList (String.utf8EncodeChar replacement))

/-- What the capture is for: whatever way a secret that was printed whole
reaches it, no byte of it is handed to the log. -/
def CaptureRedacts : Prop :=
  ∀ (S : SecretSet) (s : Text) (before after : Bytes), PrintedWhole S s before after →
    ∀ chunks : List Bytes, (∀ chunk ∈ chunks, chunk ≠ []) →
      chunks.flatten = before ++ utf8 s ++ after →
      ∀ orders : ℕ → List Text, (∀ i, IterationOf (orders i) S.values) →
        Unseen s (spawnStderrLogTask orders (chunks.map .data ++ [.data []]))

/-- A secret of two lines is handed over as two lines, neither of which is it. -/
theorem two_line_secret_seen : ¬ CaptureRedacts := by
  intro h
  have hseen := h (.only "ok\nhi".toList (by decide)) "ok\nhi".toList [] []
    (printedWhole_only _ (by decide) (by decide) (by decide) (by decide))
    [utf8 "ok\nhi".toList] (by decide) (by decide) (fun _ => ["ok\nhi".toList])
    (fun _ => iterationOf_only (by decide))
  have hlines : spawnStderrLogTask (fun _ => ["ok\nhi".toList])
      ([utf8 "ok\nhi".toList].map .data ++ [.data []]) = ["ok".toList, "hi".toList] := by decide
  rw [hlines] at hseen
  exact absurd (hseen "ok".toList (by simp)) (by decide)

end OneSecret

end FaninMcp.StderrCapture
