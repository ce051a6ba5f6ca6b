import FaninMcp.LogDelivery

/-!
# Reading a shared log file back

Several servers may log to one file. As long as a write takes a line up to its end,
every line of the file is a line of one server, and the lines that carry a server's
label are those that its writer has received, in their order.
-/

set_option autoImplicit false

namespace FaninMcp.LogAttribution
open Foundation.RustText Foundation.EventRuns FaninMcp.StderrCapture FaninMcp.StderrLines
  FaninMcp.LogPipeline FaninMcp.LogDelivery FaninMcp.ConfigModel FaninMcp.Redaction
open Foundation.LossyUtf8 (Bytes utf8 fromUtf8 fromUtf8_utf8 fromUtf8Lossy utf8_append utf8Chunks
  mem_chunks_iff utf8Chunks_utf8 utf8Chunks_nil)

/-- The lines of a file that carry the label of a server, without it. -/
def linesOf (server : Text) (file : Bytes) : List Text :=
  (file.splitOn newline).filterMap fun line =>
    (fromUtf8 line).bind fun text => text.dropPrefix? (label server)

section Reading
variable {server other line text : Text} {left right : Bytes}

theorem newline_mem_utf8 : newline ∈ utf8 text ↔ '\n' ∈ text := by
  have hchunks : some '\n' ∈ utf8Chunks (utf8 text) ↔ '\n' ∈ text := by
    have h := utf8Chunks_utf8 text []
    rw [List.append_nil, utf8Chunks_nil, List.append_nil] at h
    simp [h]
  have hencoded : String.utf8EncodeChar '\n' = [newline] := by decide
  rw [← hchunks, mem_chunks_iff, hencoded, List.singleton_infix_iff]

theorem linesOf_append : linesOf server (left ++ newline::right) =
    linesOf server left ++ linesOf server right := by
  rw [linesOf, List.splitOn_eq_splitOnP, List.splitOnP_append_cons left right (by simp),
    List.filterMap_append]
  simp only [linesOf, List.splitOn_eq_splitOnP]

theorem linesOf_nil : linesOf server [] = [] := by
  have hnone : ([] : Text).dropPrefix? (label server) = none := by
    rw [Option.eq_none_iff_forall_ne_some]
    intro rest hrest
    obtain ⟨front, hfront, hbeq⟩ := List.dropPrefix?_eq_some_iff.mp hrest
    obtain rfl := eq_of_beq hbeq
    simp [label] at hfront
  simp [linesOf, fromUtf8, fromUtf8Lossy, hnone]

theorem label_dropped (hs : ']' ∉ server) (ho : ']' ∉ other) :
    (label other ++ line).dropPrefix? (label server) =
      if other = server then some line else none := by
  split_ifs with heq
  · subst heq
    exact List.dropPrefix?_append_of_beq line (by simp)
  · rw [Option.eq_none_iff_forall_ne_some]
    intro rest hrest
    obtain ⟨front, hfront, hbeq⟩ := List.dropPrefix?_eq_some_iff.mp hrest
    obtain rfl := eq_of_beq hbeq
    have hnames : other ++ [']'] ++ ' '::line = server ++ [']'] ++ ' '::rest := by
      simpa [label] using hfront
    have hsplit := @splitOnce_append ']' [] other (' '::line) ho
    rw [hnames, @splitOnce_append ']' [] server (' '::rest) hs] at hsplit
    exact heq (Prod.mk.inj (Option.some.inj hsplit)).1.symm

theorem linesOf_frame (hs : ']' ∉ server) (ho : ']' ∉ other) (hp : '\n' ∉ other)
    (hline : '\n' ∉ line) :
    linesOf server (utf8 (logFrame other line)) = if other = server then [line] else [] := by
  have hframe : utf8 (logFrame other line) = utf8 (label other ++ line) ++ newline::[] := by
    rw [show logFrame other line = (label other ++ line) ++ ['\n'] from rfl, utf8_append]
    rfl
  have hplain : newline ∉ utf8 (label other ++ line) := by
    rw [newline_mem_utf8]
    simp [label, hp, hline]
  rw [hframe, linesOf_append, linesOf_nil, List.append_nil, linesOf,
    List.splitOn_eq_singleton hplain]
  simp only [List.filterMap_cons, List.filterMap_nil, fromUtf8_utf8, Option.bind_some,
    label_dropped hs ho]
  split_ifs <;> rfl

def Ended (file : Bytes) : Prop := file = [] ∨ ∃ before, file = before ++ [newline]

theorem linesOf_ended (h : Ended left) :
    linesOf server (left ++ right) = linesOf server left ++ linesOf server right := by
  rcases h with rfl | ⟨before, rfl⟩
  · rw [linesOf_nil, List.nil_append, List.nil_append]
  · rw [List.append_assoc, List.singleton_append, linesOf_append, linesOf_append, linesOf_nil,
      List.append_nil]

end Reading

/-- What a log file can hold as one line, from a server with such a name. -/
def PlainLine (line : Text) : Prop := '\n' ∉ line

def PlainName (server : Text) : Prop := ']' ∉ server ∧ '\n' ∉ server

theorem plainName_valid {server : Text} (h : validateServerName server = .ok ()) :
    PlainName server := by
  have hchars := (validateServerName_ok.mp h).2
  exact ⟨fun hin => absurd (hchars _ hin) (by decide), fun hin => absurd (hchars _ hin) (by decide)⟩

theorem plainLine_redact {line : Text} (h : PlainLine line) (order : List Text) :
    PlainLine (appendLogLine order line) := by
  induction order generalizing line with
  | nil => exact h
  | cons secret order ih =>
    cases secret with
    | nil => exact ih h
    | cons c cs =>
      rw [appendLogLine, redact_cons (by simp)]
      refine ih fun hin => h ?_
      have hne : c::cs ≠ [] := by simp
      clear ih h
      induction line using replace_induction hne with
      | nil => simp at hin
      | hit rest ih =>
        rw [replace_hit marker (by simp)] at hin
        rcases List.mem_append.mp hin with hmarker | hrest
        · exact absurd hmarker (by decide)
        · exact List.mem_append_right _ (ih hrest)
      | skip d ds hno ih =>
        rw [replace_skip marker hno] at hin
        rcases List.mem_cons.mp hin with rfl | hrest
        · exact List.mem_cons_self
        · exact List.mem_cons_of_mem _ (ih hrest)

theorem newline_not_mem_part (stream : Bytes) :
    ∀ part ∈ stream.splitOn newline, newline ∉ part := by
  induction stream with
  | nil => simp
  | cons b bs ih =>
    rw [List.splitOn_cons_eq_if_modifyHead]
    split_ifs with hb
    · intro part hpart
      rcases List.mem_cons.mp hpart with rfl | hrest
      · simp
      · exact ih part hrest
    · cases hparts : bs.splitOn newline with
      | nil => simp
      | cons first others =>
        rw [hparts] at ih
        obtain ⟨hfirst, hothers⟩ := List.forall_mem_cons.mp ih
        intro part hpart
        rcases List.mem_cons.mp hpart with rfl | hrest
        · exact List.not_mem_cons_of_ne_of_not_mem (fun heq => hb (by simp [heq])) hfirst
        · exact hothers part hrest

theorem plainLine_segment {stream segment : Bytes} (h : segment ∈ segments stream) :
    PlainLine (segmentLine segment) := by
  have hpart : newline ∉ segment := by
    rw [segments] at h
    split_ifs at h
    · exact newline_not_mem_part stream segment (List.dropLast_subset _ h)
    · exact newline_not_mem_part stream segment h
  have hshort : ∀ b ∈ withoutCarriageReturn (segment.take maxLogLineBytes), b ∈ segment := by
    intro b hb
    rw [withoutCarriageReturn] at hb
    split_ifs at hb
    · exact List.mem_of_mem_take (List.dropLast_subset _ hb)
    · exact List.mem_of_mem_take hb
  intro hin
  rw [segmentLine] at hin
  rcases List.mem_append.mp hin with hlossy | hmarker
  · rcases mem_lossy hlossy with hreplacement | hpiece
    · exact absurd hreplacement (by decide)
    · have hencoded : newline ∈ String.utf8EncodeChar '\n' := by decide
      exact hpart (hshort _ ((mem_chunks_iff.mp hpiece).subset hencoded))
  · split_ifs at hmarker
    · exact absurd hmarker (by decide)
    · cases hmarker

inductive InHand (server : Text) : Writer → List Text → Prop
  | opening : InHand server .opening []
  | waiting : InHand server .waiting []
  | gone : InHand server .gone []
  | writing {line : Text} (plain : PlainLine line) :
    InHand server (.writing (utf8 (logFrame server line))) [line]

def notedFor (key : LogKey) (noted : List (LogKey × Text)) : List Text :=
  (noted.filter fun note => note.1 = key).map Prod.snd

def entered (file : Text) (noted : List (LogKey × Text)) : Bytes :=
  (noted.filter fun note => note.1.1 = file).flatMap fun note => utf8 (logFrame note.1.2 note.2)

/-- A channel whose writer has noted what it received, but for the line it is at. -/
structure Noted (c : ℕ) (es : List LogEvent) (channel : Channel) (noted : List (LogKey × Text)) :
    Prop where
  name : PlainName channel.key.2
  queue : ∀ line ∈ channel.queue, PlainLine line
  lines : ∃ current, InHand channel.key.2 channel.writer current ∧
    List.Sublist (notedFor channel.key noted ++ current) (received c es) ∧
    (.fail c ∉ es → received c es = notedFor channel.key noted ++ current)

/-- All that was written, line by line in the order of the writes. -/
structure Logged (files : Text → Bytes) (es : List LogEvent) (σ : Pipeline)
    (noted : List (LogKey × Text)) : Prop where
  notes : ∀ note ∈ noted, PlainLine note.2 ∧ PlainName note.1.2 ∧ (σ.writers note.1).isSome
  contents : ∀ file, σ.files file = files file ++ entered file noted
  sending : ∀ i c line, σ.sending i = some (c, line) → PlainLine line
  channels : ∀ c channel, σ.channels[c]? = some channel → Noted c es channel noted

/-- Lines have no line break in them, the servers' names are valid, and a write ends
where its line ends. -/
structure WholeLines (es : List LogEvent) : Prop where
  plain : ∀ i key line order, .append i key line order ∈ es →
    PlainLine line ∧ validateServerName key.2 = .ok ()
  whole : ∀ c chunk, .write c chunk ∈ es → chunk.getLast? = some newline

section Runs
variable {files : Text → Bytes} {es : List LogEvent} {e : LogEvent} {σ τ : Pipeline} {c : ℕ}
  {channel channel' : Channel} {noted : List (LogKey × Text)}

theorem WholeLines.init (h : WholeLines (es ++ [e])) : WholeLines es :=
  ⟨fun i key line order hmem => h.plain i key line order (List.mem_append_left _ hmem),
    fun c chunk hmem => h.whole c chunk (List.mem_append_left _ hmem)⟩

theorem whole_frame {server line : Text} {chunk : Bytes} (hp : PlainName server)
    (hline : PlainLine line) (hfront : chunk <+: utf8 (logFrame server line))
    (hlast : chunk.getLast? = some newline) : chunk = utf8 (logFrame server line) := by
  obtain ⟨rest, hrest⟩ := hfront
  obtain ⟨body, rfl⟩ := List.getLast?_eq_some_iff.mp hlast
  have hframe : utf8 (logFrame server line) = utf8 (label server ++ line) ++ [newline] := by
    rw [show logFrame server line = (label server ++ line) ++ ['\n'] from rfl, utf8_append]
    rfl
  have hplain : newline ∉ utf8 (label server ++ line) := by
    rw [newline_mem_utf8]
    have hn := hp.2
    simp_all [label, PlainLine]
  rw [hframe] at hrest ⊢
  rcases List.eq_nil_or_concat rest with rfl | ⟨front, last, rfl⟩
  · rw [← hrest, List.append_nil]
  · refine absurd ?_ hplain
    rw [List.concat_eq_append, ← List.append_assoc] at hrest
    rw [← (List.append_inj' hrest rfl).1]
    simp

theorem inHand_idle {server : Text} {writer : Writer} {current : List Text}
    (h : InHand server writer current) (hidle : ∀ rest, writer ≠ .writing rest) : current = [] := by
  cases h with
  | opening | waiting | gone => rfl
  | writing _ => exact absurd rfl (hidle _)

theorem inHand_length {server : Text} {writer : Writer} {current : List Text}
    (h : InHand server writer current) : current.length ≤ 1 := by
  cases h with
  | opening | waiting | gone => exact Nat.zero_le _
  | writing _ => exact le_rfl

theorem noted_other (h : Noted c es channel noted) (hc : channelOf e ≠ some c)
    {noted' : List (LogKey × Text)}
    (hnotes : notedFor channel.key noted' = notedFor channel.key noted) :
    Noted c (es ++ [e]) channel noted' := by
  obtain ⟨current, hhand, hsublist, hall⟩ := h.lines
  refine ⟨h.name, h.queue, current, hhand, ?_, fun hf => ?_⟩
  · rw [received_concat, received_other hc, List.append_nil, hnotes]
    exact hsublist
  · rw [received_concat, received_other hc, List.append_nil, hnotes]
    exact hall fun hmem => hf (List.mem_append_left _ hmem)

theorem noted_idle (h : Noted c es channel noted) (hkey : channel'.key = channel.key)
    (hqueue : ∀ line ∈ channel'.queue, PlainLine line) (hreceived : received c [e] = [])
    (hhand : ∀ current, InHand channel.key.2 channel.writer current →
      InHand channel.key.2 channel'.writer current) : Noted c (es ++ [e]) channel' noted := by
  obtain ⟨current, hold, hsublist, hall⟩ := h.lines
  refine ⟨hkey ▸ h.name, hqueue, current, hkey ▸ hhand current hold, ?_, fun hf => ?_⟩
  · rw [received_concat, hreceived, List.append_nil, hkey]
    exact hsublist
  · rw [received_concat, hreceived, List.append_nil, hkey]
    exact hall fun hmem => hf (List.mem_append_left _ hmem)

theorem noted_send (h : Noted c es channel noted) {i : ℕ} {line : Text} (hline : PlainLine line)
    (hs : channel.send line = some channel') :
    Noted c (es ++ [.send i c line]) channel' noted := by
  rw [Channel.send] at hs
  split_ifs at hs
  cases hs
  refine noted_idle h rfl (fun other hmem => ?_) rfl fun _ hhand => hhand
  rcases List.mem_append.mp hmem with hold | hnew
  · exact h.queue other hold
  · exact List.mem_singleton.mp hnew ▸ hline

theorem noted_opened (h : Noted c es channel noted) {ok : Bool}
    (hs : channel.opened ok = some channel') : Noted c (es ++ [.opened c ok]) channel' noted := by
  rw [Channel.opened] at hs
  split_ifs at hs with hopening hok
  · cases hs
    refine noted_idle h rfl h.queue rfl fun current hhand => ?_
    rw [inHand_idle hhand (by simp [hopening])]
    exact .waiting
  · cases hs
    refine noted_idle h rfl (by simp) rfl fun current hhand => ?_
    rw [inHand_idle hhand (by simp [hopening])]
    exact .gone

theorem noted_receive (h : Noted c es channel noted) {line : Text}
    (hs : channel.receive line = some channel') :
    Noted c (es ++ [.receive c line]) channel' noted := by
  rw [Channel.receive] at hs
  split at hs
  · rename_i next queue hwaiting hqueue
    split_ifs at hs with hline
    cases hs
    subst hline
    obtain ⟨current, hhand, hsublist, hall⟩ := h.lines
    obtain rfl := inHand_idle hhand (by simp [hwaiting])
    have hr : received c (es ++ [.receive c next]) = received c es ++ [next] := by simp [received]
    have hplain := List.forall_mem_cons.mp (hqueue ▸ h.queue)
    rw [List.append_nil] at hsublist
    refine ⟨h.name, hplain.2, [next], .writing hplain.1, ?_, fun hf => ?_⟩
    · rw [hr]
      exact hsublist.append_right _
    · rw [hr, hall fun hmem => hf (List.mem_append_left _ hmem), List.append_nil]
  · cases hs

theorem noted_fail (h : Noted c es channel noted) (hs : channel.fail = some channel') :
    Noted c (es ++ [.fail c]) channel' noted := by
  rw [Channel.fail] at hs
  split at hs
  · cases hs
    obtain ⟨current, _, hsublist, _⟩ := h.lines
    have hr : received c (es ++ [.fail c]) = received c es := by simp [received]
    refine ⟨h.name, h.queue, [], .waiting, ?_, fun hf => absurd (by simp) hf⟩
    rw [hr, List.append_nil]
    exact (List.sublist_append_left _ _).trans hsublist
  · cases hs

theorem noted_write (h : Noted c es channel noted) {chunk : Bytes}
    (hlast : chunk.getLast? = some newline) (hs : channel.write chunk = some channel') :
    ∃ line, PlainLine line ∧ chunk = utf8 (logFrame channel.key.2 line) ∧
      Noted c (es ++ [.write c chunk]) channel' (noted ++ [(channel.key, line)]) := by
  obtain ⟨current, hhand, hsublist, hall⟩ := h.lines
  rw [Channel.write] at hs
  split at hs
  · rename_i rest hwriting
    split_ifs at hs with hchunk hend
    all_goals
      rw [hwriting] at hhand
      cases hhand with | @writing line hplain => ?_
      have htaken := whole_frame h.name hplain hchunk.2 hlast
    · cases hs
      have hr : received c (es ++ [.write c chunk]) = received c es := by simp [received]
      have hnote : notedFor channel.key (noted ++ [(channel.key, line)]) =
          notedFor channel.key noted ++ [line] := by
        simp [notedFor]
      refine ⟨line, hplain, htaken, h.name, h.queue, [], .waiting, ?_, fun hf => ?_⟩
      · rw [hr, hnote, List.append_nil]
        exact hsublist
      · rw [hr, hnote, List.append_nil]
        exact hall fun hmem => hf (List.mem_append_left _ hmem)
    · exact absurd (congrArg List.length htaken.symm) hend
  · cases hs

theorem files_step (h : σ.step e = some τ) (he : ∀ c chunk, e ≠ .write c chunk) :
    τ.files = σ.files := by
  cases e with
  | write c chunk => exact absurd rfl (he c chunk)
  | append i key line order =>
    simp only [Pipeline.step] at h
    split at h
    · cases h
    · cases h
      cases hkey : σ.writers key <;> simp [Pipeline.logSender, Pipeline.sent, hkey]
  | send i c line =>
    simp only [Pipeline.step] at h
    split_ifs at h
    obtain ⟨ρ, hat, rfl⟩ := Option.map_eq_some_iff.mp h
    obtain ⟨_, _, _, _, rfl⟩ := at_cases hat
    rfl
  | refuse i =>
    simp only [Pipeline.step] at h
    split at h
    · split_ifs at h
      cases h
      rfl
    · cases h
  | cancel i =>
    simp only [Pipeline.step] at h
    split_ifs at h
    cases h
    rfl
  | opened _ _ | receive _ _ | fail _ =>
    obtain ⟨_, _, _, _, rfl⟩ := at_cases h
    rfl

theorem write_step {chunk : Bytes} (h : σ.step (.write c chunk) = some τ) :
    ∃ channel channel', σ.channels[c]? = some channel ∧ channel.write chunk = some channel' ∧
      τ = { (σ.update c channel') with
        files := Function.update σ.files channel.key.1 (σ.files channel.key.1 ++ chunk) } := by
  simp only [Pipeline.step] at h
  split at h
  · rename_i channel hchannel
    obtain ⟨ρ, hat, rfl⟩ := Option.map_eq_some_iff.mp h
    obtain ⟨inner, channel', hinner, hwrite, rfl⟩ := at_cases hat
    obtain rfl : channel = inner := Option.some.inj (hchannel.symm.trans hinner)
    exact ⟨channel, channel', hchannel, hwrite, rfl⟩
  · cases h

theorem sending_from (h : σ.step e = some τ) {i : ℕ} {line : Text}
    (hi : τ.sending i = some (c, line)) : σ.sending i = some (c, line) ∨
      ∃ key raw order, e = .append i key raw order ∧ line = appendLogLine order raw := by
  have hcleared : ∀ {ρ : Pipeline} {j}, (ρ.sent j none).sending i = some (c, line) →
      ρ.sending i = some (c, line) := by
    intro ρ j hj
    by_cases heq : i = j
    · simp [Pipeline.sent, heq] at hj
    · simpa [Pipeline.sent, heq] using hj
  cases e with
  | append j key raw order =>
    simp only [Pipeline.step] at h
    split at h
    · cases h
    · cases h
      by_cases heq : i = j
      · subst heq
        obtain ⟨_, rfl⟩ : _ ∧ appendLogLine order raw = line := by simpa [Pipeline.sent] using hi
        exact Or.inr ⟨key, raw, order, rfl, rfl⟩
      · left
        cases hkey : σ.writers key <;> simpa [Pipeline.sent, Pipeline.logSender, heq, hkey] using hi
  | send j d line' =>
    simp only [Pipeline.step] at h
    split_ifs at h
    obtain ⟨ρ, hat, rfl⟩ := Option.map_eq_some_iff.mp h
    obtain ⟨_, _, _, _, rfl⟩ := at_cases hat
    exact Or.inl (hcleared hi)
  | refuse j =>
    simp only [Pipeline.step] at h
    split at h
    · split_ifs at h
      cases h
      exact Or.inl (hcleared hi)
    · cases h
  | cancel j =>
    simp only [Pipeline.step] at h
    split_ifs at h
    cases h
    exact Or.inl (hcleared hi)
  | write d chunk =>
    obtain ⟨_, _, _, _, rfl⟩ := write_step h
    exact Or.inl hi
  | opened _ _ | receive _ _ | fail _ =>
    obtain ⟨_, _, _, _, rfl⟩ := at_cases h
    exact Or.inl hi

theorem noted_act (h : Noted c es channel noted) (hc : channelOf e = some c)
    (hs : acts e channel = some channel') (he : ∀ c chunk, e ≠ .write c chunk)
    (hline : ∀ i line, e = .send i c line → PlainLine line) :
    Noted c (es ++ [e]) channel' noted := by
  cases e with
  | append _ _ _ _ | refuse _ | cancel _ => cases hc
  | write d chunk => exact absurd rfl (he d chunk)
  | send i _ line =>
    cases hc
    exact noted_send h (hline i line rfl) hs
  | opened _ _ =>
    cases hc
    exact noted_opened h hs
  | receive _ _ =>
    cases hc
    exact noted_receive h hs
  | fail _ =>
    cases hc
    exact noted_fail h hs

/-- The channel that a first line makes has a writer that has noted nothing. -/
theorem noted_new {i : ℕ} {key : LogKey} {line : Text} {order : List Text}
    (h : Logged files es σ noted) (hk : Kept es σ) (hname : PlainName key.2)
    (hnone : σ.writers key = none) :
    Noted σ.channels.length (es ++ [.append i key line order]) (.new key) noted := by
  have hunnoted : notedFor key noted = [] := by
    rw [notedFor, List.map_eq_nil_iff, List.filter_eq_nil_iff]
    intro note hnote heq
    have hsome := (h.notes note hnote).2.2
    rw [of_decide_eq_true heq, hnone] at hsome
    cases hsome
  have hempty : received σ.channels.length (es ++ [.append i key line order]) = [] := by
    rw [received_concat, received_other (by simp [channelOf]),
      (silent_history (hk.fresh _ le_rfl)).2.1]
    rfl
  refine ⟨hname, by simp [Channel.new], [], .opening, ?_, fun _ => ?_⟩
  · rw [hempty, Channel.new, hunnoted]
    exact List.nil_sublist _
  · rw [hempty, Channel.new, hunnoted]
    rfl

theorem logged_write {chunk : Bytes} (h : Logged files es σ noted)
    (hk : Kept es σ) (hlast : chunk.getLast? = some newline)
    (hs : σ.step (.write c chunk) = some τ) :
    ∃ noted', Logged files (es ++ [.write c chunk]) τ noted' := by
  obtain ⟨channel, channel', hchannel, hwrite, rfl⟩ := write_step hs
  obtain ⟨line, hplain, rfl, hnoted⟩ := noted_write (h.channels c channel hchannel) hlast hwrite
  have hlt : c < σ.channels.length := (List.getElem?_eq_some_iff.mp hchannel).1
  have howner : σ.writers channel.key = some c := (hk.table _ c).mpr (by simp [hchannel])
  refine ⟨noted ++ [(channel.key, line)], fun note hnote => ?_, fun file => ?_, h.sending,
    fun d inner hd => ?_⟩
  · rcases List.mem_append.mp hnote with hold | hnew
    · exact h.notes note hold
    · rw [List.mem_singleton.mp hnew]
      refine ⟨hplain, (h.channels c channel hchannel).name, ?_⟩
      change (σ.writers channel.key).isSome = true
      rw [howner]
      rfl
  · by_cases hfile : file = channel.key.1
    · subst hfile
      simp [entered, h.contents]
    · simp [entered, h.contents, hfile, Ne.symm hfile]
  · rcases eq_or_ne d c with rfl | hne
    · obtain rfl : channel' = inner := by
        simpa [Pipeline.update, List.getElem?_set_self hlt] using hd
      exact hnoted
    · have hinner : σ.channels[d]? = some inner := by
        simpa [Pipeline.update, List.getElem?_set_ne (Ne.symm hne)] using hd
      have hkey : channel.key ≠ inner.key := by
        intro heq
        have hother := (hk.table inner.key d).mpr (by simp [hinner])
        rw [← heq, howner] at hother
        exact hne (Option.some.inj hother).symm
      refine noted_other (h.channels d inner hinner) ?_ ?_
      · exact fun heq => hne (Option.some.inj heq).symm
      · simp [notedFor, hkey]

theorem logged_step (h : Logged files es σ noted) (hk : Kept es σ) (hw : WholeLines (es ++ [e]))
    (he : ∀ c chunk, e ≠ .write c chunk) (hs : σ.step e = some τ) :
    Logged files (es ++ [e]) τ noted := by
  have hnotes : ∀ note ∈ noted, PlainLine note.2 ∧ PlainName note.1.2 ∧
      (τ.writers note.1).isSome := by
    intro note hnote
    obtain ⟨hline, hname, howned⟩ := h.notes note hnote
    obtain ⟨c, hc⟩ := Option.isSome_iff_exists.mp howned
    exact ⟨hline, hname, Option.isSome_iff_exists.mpr ⟨c, writers_kept hs hc⟩⟩
  have hcontents : ∀ file, τ.files file = files file ++ entered file noted := by
    rw [files_step hs he]
    exact h.contents
  have hsending : ∀ i c line, τ.sending i = some (c, line) → PlainLine line := by
    intro i c line hline
    rcases sending_from hs hline with hold | ⟨key, raw, order, rfl, rfl⟩
    · exact h.sending i c line hold
    · exact plainLine_redact (hw.plain i key raw order (by simp)).1 order
  refine ⟨hnotes, hcontents, hsending, fun d inner hd => ?_⟩
  cases hc : channelOf e with
  | some c =>
    obtain ⟨channel, channel', hchannel, hact, hchannels, _⟩ := channel_step hs hc
    have hlt : c < σ.channels.length := (List.getElem?_eq_some_iff.mp hchannel).1
    rcases eq_or_ne d c with rfl | hne
    · obtain rfl : channel' = inner := by
        simpa [hchannels, List.getElem?_set_self hlt] using hd
      refine noted_act (h.channels d channel hchannel) hc hact he ?_
      rintro i line rfl
      simp only [Pipeline.step] at hs
      split_ifs at hs with hi
      exact h.sending i d line hi
    · rw [hchannels, List.getElem?_set_ne (Ne.symm hne)] at hd
      refine noted_other (h.channels d inner hd) ?_ rfl
      rw [hc]
      exact fun heq => hne (Option.some.inj heq).symm
  | none =>
    have hquiet : channelOf e ≠ some d := by simp [hc]
    rcases table_step hs hc with ⟨hchannels, _⟩ |
      ⟨i, key, line, order, rfl, hnone, hchannels, _⟩
    · exact noted_other (h.channels d inner (hchannels ▸ hd)) hquiet rfl
    · rw [hchannels] at hd
      rcases getElem?_concat_iff.mp hd with hold | ⟨rfl, rfl⟩
      · exact noted_other (h.channels d inner hold) hquiet rfl
      · exact noted_new h hk (plainName_valid (hw.plain i key line order (by simp)).2) hnone

theorem exec_logged (hw : WholeLines es) (h : exec Pipeline.step (.start files) es = some σ) :
    ∃ noted, Logged files es σ noted := by
  refine exec_induction (J := fun es σ => WholeLines es → ∃ noted, Logged files es σ noted)
    (fun _ => ⟨[], ?_⟩) (fun es σ e τ hrun hJ hs hw => ?_) h hw
  · constructor <;> simp [Pipeline.start, entered]
  · obtain ⟨noted, hlogged⟩ := hJ hw.init
    have hk := exec_kept hrun
    by_cases he : ∃ c chunk, e = .write c chunk
    · obtain ⟨c, chunk, rfl⟩ := he
      exact logged_write hlogged hk (hw.whole c chunk (by simp)) hs
    · exact ⟨noted, logged_step hlogged hk hw (fun c chunk heq => he ⟨c, chunk, heq⟩) hs⟩

theorem ended_frame {before : Bytes} (server line : Text) :
    Ended (before ++ utf8 (logFrame server line)) := by
  refine Or.inr ⟨before ++ utf8 (label server ++ line), ?_⟩
  rw [show logFrame server line = (label server ++ line) ++ ['\n'] from rfl, utf8_append,
    List.append_assoc]
  rfl

theorem linesOf_entered {file server : Text} (hs : PlainName server) {before : Bytes}
    (hb : Ended before) (hn : ∀ note ∈ noted, PlainLine note.2 ∧ PlainName note.1.2) :
    linesOf server (before ++ entered file noted) =
      linesOf server before ++ notedFor (file, server) noted := by
  induction noted generalizing before with
  | nil => simp [entered, notedFor]
  | cons note noted ih =>
    obtain ⟨⟨other, name⟩, line⟩ := note
    obtain ⟨⟨hline, hname⟩, hrest⟩ := List.forall_mem_cons.mp hn
    by_cases hfile : other = file
    · subst hfile
      have hentered : before ++ entered other (((other, name), line)::noted) =
          (before ++ utf8 (logFrame name line)) ++ entered other noted := by
        simp [entered]
      rw [hentered, ih (ended_frame name line) hrest, linesOf_ended hb,
        linesOf_frame hs.1 hname.1 hname.2 hline]
      by_cases hserver : name = server <;> simp [notedFor, hserver]
    · have hentered : entered file (((other, name), line)::noted) = entered file noted := by
        simp [entered, hfile]
      have hnoted : notedFor (file, server) (((other, name), line)::noted) =
          notedFor (file, server) noted := by
        simp [notedFor, hfile]
      rw [hentered, hnoted, ih hb hrest]

/-- In every run of whole lines, reading a file back under a server's label gives what
was there before, followed by what the server's writer has received, in order and
without any other server's lines; only the line it is at, or a failed write, is missing. -/
theorem log_attribution (hw : WholeLines es)
    (h : exec Pipeline.step (.start files) es = some σ) {file server : Text}
    (hname : validateServerName server = .ok ()) (hend : Ended (files file)) :
    ∃ lines, linesOf server (σ.files file) = linesOf server (files file) ++ lines ∧
      (σ.writers (file, server) = none → lines = []) ∧
      ∀ c, σ.writers (file, server) = some c → List.Sublist lines (received c es) ∧
        (.fail c ∉ es → ∃ current, received c es = lines ++ current ∧ current.length ≤ 1 ∧
          (σ.channels[c]?.map Channel.writer = some .waiting → current = [])) := by
  obtain ⟨noted, hlogged⟩ := exec_logged hw h
  have hnotes : ∀ note ∈ noted, PlainLine note.2 ∧ PlainName note.1.2 :=
    fun note hnote => ⟨(hlogged.notes note hnote).1, (hlogged.notes note hnote).2.1⟩
  refine ⟨notedFor (file, server) noted, ?_, fun hnone => ?_, fun c hc => ?_⟩
  · rw [hlogged.contents, linesOf_entered (plainName_valid hname) hend hnotes]
  · rw [notedFor, List.map_eq_nil_iff, List.filter_eq_nil_iff]
    intro note hnote heq
    have hsome := (hlogged.notes note hnote).2.2
    rw [of_decide_eq_true heq, hnone] at hsome
    cases hsome
  · obtain ⟨channel, hchannel, hkey⟩ :=
      Option.map_eq_some_iff.mp (((exec_kept h).table (file, server) c).mp hc)
    obtain ⟨current, hhand, hsublist, hall⟩ := (hlogged.channels c channel hchannel).lines
    rw [hkey] at hsublist hall
    refine ⟨(List.sublist_append_left _ _).trans hsublist, fun hf => ⟨current, hall hf, ?_, ?_⟩⟩
    · exact inHand_length hhand
    · intro hwaiting
      rw [hchannel, Option.map_some, Option.some.injEq] at hwaiting
      exact inHand_idle hhand (by simp [hwaiting])

def sharedFile : List LogEvent :=
  let morph := ("all.log".toList, "morph".toList)
  let other := ("all.log".toList, "other".toList)
  [.append 0 morph "[other] a".toList [], .append 1 other "b".toList [], .opened 0 true,
    .opened 1 true, .send 0 0 "[other] a".toList, .send 1 1 "b".toList,
    .receive 0 "[other] a".toList, .receive 1 "b".toList, .write 1 (utf8 "[other] b\n".toList),
    .write 0 (utf8 "[morph] [other] a\n".toList)]

theorem log_attribution_shared : ∃ σ, exec Pipeline.step (.start fun _ => []) sharedFile = some σ ∧
    linesOf "other".toList (σ.files "all.log".toList) = ["b".toList] := by
  have hw : WholeLines sharedFile := by
    constructor
    · intro i key line order hmem
      simp only [sharedFile, List.mem_cons, LogEvent.append.injEq, reduceCtorEq, or_false,
        List.not_mem_nil] at hmem
      rcases hmem with ⟨_, rfl, rfl, _⟩ | ⟨_, rfl, rfl, _⟩
      · exact ⟨by unfold PlainLine; decide, by decide⟩
      · exact ⟨by unfold PlainLine; decide, by decide⟩
    · intro c chunk hmem
      simp only [sharedFile, List.mem_cons, LogEvent.write.injEq, reduceCtorEq, false_or,
        List.not_mem_nil, or_false] at hmem
      rcases hmem with ⟨_, rfl⟩ | ⟨_, rfl⟩
      · decide
      · decide
  obtain ⟨σ, hrun, hc, hwaiting⟩ : ∃ σ,
      exec Pipeline.step (.start fun _ => []) sharedFile = some σ ∧
      σ.writers ("all.log".toList, "other".toList) = some 1 ∧
      σ.channels[1]?.map Channel.writer = some .waiting :=
    ⟨_, rfl, rfl, rfl⟩
  obtain ⟨lines, hlines, _, hall⟩ :=
    @log_attribution _ _ _ hw hrun "all.log".toList "other".toList rfl (Or.inl rfl)
  obtain ⟨_, hreceived⟩ := hall 1 hc
  obtain ⟨current, hcurrent, _, hnone⟩ := hreceived (by simp [sharedFile])
  rw [hnone hwaiting, List.append_nil] at hcurrent
  refine ⟨σ, hrun, ?_⟩
  rw [hlines, linesOf_nil, List.nil_append, ← hcurrent]
  rfl

end Runs

end FaninMcp.LogAttribution
