import FaninMcp.LogPipeline

/-!
# Log lines arrive once and in order

There is one channel for each log file and server, and one writer behind it, from
the first line on. Unless its file cannot be opened, what a channel has accepted is
what its writer has received followed by what is queued, and unless a write fails,
the file has got the frames of what was received, byte for byte.
-/

set_option autoImplicit false

namespace FaninMcp.LogDelivery
open Foundation.RustText Foundation.LossyUtf8 Foundation.EventRuns FaninMcp.StderrCapture
  FaninMcp.LogPipeline

section History

def accepted (c : ℕ) (es : List LogEvent) : List (ℕ × Text) :=
  es.filterMap fun
    | .send i c' line => if c' = c then some (i, line) else none
    | _ => none

def received (c : ℕ) (es : List LogEvent) : List Text :=
  es.filterMap fun
    | .receive c' line => if c' = c then some line else none
    | _ => none

/-- The bytes that the writer of a channel has put into its file. -/
def written (c : ℕ) (es : List LogEvent) : Bytes :=
  es.flatMap fun
    | .write c' chunk => if c' = c then chunk else []
    | _ => []

/-- The lines a task has handed over for a file and server, as they are sent. -/
def handed (i : ℕ) (key : LogKey) (es : List LogEvent) : List Text :=
  es.filterMap fun
    | .append i' key' line order =>
      if i' = i ∧ key' = key then some (appendLogLine order line) else none
    | _ => none

def channelOf : LogEvent → Option ℕ
  | .send _ c _ | .opened c _ | .receive c _ | .write c _ | .fail c => some c
  | _ => none

def acts : LogEvent → Channel → Option Channel
  | .send _ _ line, channel => channel.send line
  | .opened _ ok, channel => channel.opened ok
  | .receive _ line, channel => channel.receive line
  | .write _ chunk, channel => channel.write chunk
  | .fail _, channel => channel.fail
  | _, channel => some channel

variable {c : ℕ} {es : List LogEvent} {e : LogEvent}

theorem accepted_concat : accepted c (es ++ [e]) = accepted c es ++ accepted c [e] := by
  simp [accepted]

theorem received_concat : received c (es ++ [e]) = received c es ++ received c [e] := by
  simp [received]

theorem written_concat : written c (es ++ [e]) = written c es ++ written c [e] := by
  simp [written]

theorem accepted_other (h : channelOf e ≠ some c) : accepted c [e] = [] := by
  cases e <;> simp_all [accepted, channelOf]

theorem received_other (h : channelOf e ≠ some c) : received c [e] = [] := by
  cases e <;> simp_all [received, channelOf]

theorem written_other (h : channelOf e ≠ some c) : written c [e] = [] := by
  cases e <;> simp_all [written, channelOf]

end History

section Steps
variable {σ τ : Pipeline} {e : LogEvent} {c : ℕ}

theorem at_cases {f : Channel → Option Channel} (h : σ.at c f = some τ) :
    ∃ channel channel', σ.channels[c]? = some channel ∧ f channel = some channel' ∧
      τ = σ.update c channel' := by
  simp only [Pipeline.at] at h
  split at h
  · rename_i channel hchannel
    obtain ⟨channel', hf, rfl⟩ := Option.map_eq_some_iff.mp h
    exact ⟨channel, channel', hchannel, hf, rfl⟩
  · cases h

theorem channel_step (h : σ.step e = some τ) (hc : channelOf e = some c) :
    ∃ channel channel', σ.channels[c]? = some channel ∧ acts e channel = some channel' ∧
      τ.channels = σ.channels.set c channel' ∧ τ.writers = σ.writers := by
  cases e with
  | append _ _ _ _ | refuse _ | cancel _ => cases hc
  | send i _ line =>
    cases hc
    simp only [Pipeline.step] at h
    split_ifs at h
    obtain ⟨σ', hat, rfl⟩ := Option.map_eq_some_iff.mp h
    obtain ⟨channel, channel', hchannel, hsend, rfl⟩ := at_cases hat
    exact ⟨channel, channel', hchannel, hsend, rfl, rfl⟩
  | write _ chunk =>
    cases hc
    simp only [Pipeline.step] at h
    split at h
    · obtain ⟨σ', hat, rfl⟩ := Option.map_eq_some_iff.mp h
      obtain ⟨channel, channel', hchannel, hwrite, rfl⟩ := at_cases hat
      exact ⟨channel, channel', hchannel, hwrite, rfl, rfl⟩
    · cases h
  | opened _ _ | receive _ _ | fail _ =>
    cases hc
    obtain ⟨channel, channel', hchannel, hact, rfl⟩ := at_cases h
    exact ⟨channel, channel', hchannel, hact, rfl, rfl⟩

/-- Other events leave the channels as they are, but for a new one at the end that a
first line is sent to. -/
theorem table_step (h : σ.step e = some τ) (hc : channelOf e = none) :
    (τ.channels = σ.channels ∧ τ.writers = σ.writers) ∨
    ∃ i key line order, e = .append i key line order ∧ σ.writers key = none ∧
      τ.channels = σ.channels ++ [Channel.new key] ∧
      τ.writers = Function.update σ.writers key (some σ.channels.length) := by
  cases e with
  | send _ _ _ | opened _ _ | receive _ _ | write _ _ | fail _ => cases hc
  | append i key line order =>
    simp only [Pipeline.step] at h
    split at h
    · cases h
    · cases h
      cases hkey : σ.writers key with
      | some c =>
        left
        simp [Pipeline.logSender, hkey, Pipeline.sent]
      | none =>
        right
        exact ⟨i, key, line, order, rfl, hkey, by simp [Pipeline.logSender, hkey, Pipeline.sent],
          by simp [Pipeline.logSender, hkey, Pipeline.sent]⟩
  | refuse i =>
    simp only [Pipeline.step] at h
    split at h
    · split_ifs at h
      cases h
      exact Or.inl ⟨rfl, rfl⟩
    · cases h
  | cancel i =>
    simp only [Pipeline.step] at h
    split_ifs at h
    cases h
    exact Or.inl ⟨rfl, rfl⟩

theorem writers_step (h : σ.step e = some τ) {key : LogKey} (hc : τ.writers key = some c) :
    σ.writers key = some c ∨ σ.writers key = none ∧ c = σ.channels.length := by
  cases he : channelOf e with
  | some d =>
    obtain ⟨_, _, _, _, _, hwriters⟩ := channel_step h he
    exact Or.inl (hwriters ▸ hc)
  | none =>
    rcases table_step h he with ⟨_, hwriters⟩ | ⟨_, new, _, _, _, hnone, _, hwriters⟩
    · exact Or.inl (hwriters ▸ hc)
    · rw [hwriters, Function.update_apply] at hc
      split_ifs at hc with hkey
      · exact Or.inr ⟨hkey ▸ hnone, (Option.some.inj hc).symm⟩
      · exact Or.inl hc

theorem writers_kept (h : σ.step e = some τ) {key : LogKey} (hc : σ.writers key = some c) :
    τ.writers key = some c := by
  cases he : channelOf e with
  | some d =>
    obtain ⟨_, _, _, _, _, hwriters⟩ := channel_step h he
    exact hwriters ▸ hc
  | none =>
    rcases table_step h he with ⟨_, hwriters⟩ | ⟨_, new, _, _, _, hnone, _, hwriters⟩
    · exact hwriters ▸ hc
    · have hne : key ≠ new := by
        rintro rfl
        simp [hnone] at hc
      rw [hwriters, Function.update_of_ne hne]
      exact hc

theorem channels_grow (h : σ.step e = some τ) : σ.channels.length ≤ τ.channels.length := by
  cases he : channelOf e with
  | some d =>
    obtain ⟨_, _, _, _, hchannels, _⟩ := channel_step h he
    simp [hchannels]
  | none =>
    rcases table_step h he with ⟨hchannels, _⟩ | ⟨_, _, _, _, _, _, hchannels, _⟩ <;>
      simp [hchannels]

end Steps

/-- What a channel and its writer have made of its history. -/
structure Traffic (c : ℕ) (es : List LogEvent) (channel : Channel) : Prop where
  room : channel.queue.length ≤ logChannelCapacity
  fifo : channel.writer ≠ .gone → (accepted c es).map Prod.snd = received c es ++ channel.queue
  unopened : channel.writer = .opening ∨ channel.writer = .gone →
    received c es = [] ∧ written c es = []
  bytes : .fail c ∉ es → written c es ++ channel.writer.unwritten =
    (received c es).flatMap fun line => utf8 (logFrame channel.key.2 line)

section Traffic
variable {c : ℕ} {es : List LogEvent} {e : LogEvent} {channel channel' : Channel}

theorem traffic_new (key : LogKey) (ha : accepted c es = []) (hr : received c es = [])
    (hw : written c es = []) : Traffic c es (.new key) := by
  refine ⟨Nat.zero_le _, fun _ => ?_, fun _ => ⟨hr, hw⟩, fun _ => ?_⟩
  · simp [ha, hr, Channel.new]
  · simp [hr, hw, Channel.new]

theorem traffic_other (h : Traffic c es channel) (hc : channelOf e ≠ some c) :
    Traffic c (es ++ [e]) channel := by
  have ha : accepted c (es ++ [e]) = accepted c es := by
    rw [accepted_concat, accepted_other hc, List.append_nil]
  have hr : received c (es ++ [e]) = received c es := by
    rw [received_concat, received_other hc, List.append_nil]
  have hw : written c (es ++ [e]) = written c es := by
    rw [written_concat, written_other hc, List.append_nil]
  refine ⟨h.room, ?_, ?_, fun hf => ?_⟩
  · rw [ha, hr]
    exact h.fifo
  · rw [hr, hw]
    exact h.unopened
  · rw [hr, hw]
    exact h.bytes fun hmem => hf (List.mem_append_left _ hmem)

theorem traffic_send (h : Traffic c es channel) {i : ℕ} {line : Text}
    (hs : channel.send line = some channel') : Traffic c (es ++ [.send i c line]) channel' := by
  rw [Channel.send] at hs
  split_ifs at hs with hroom
  cases hs
  have ha : accepted c (es ++ [.send i c line]) = accepted c es ++ [(i, line)] := by
    simp [accepted]
  have hr : received c (es ++ [.send i c line]) = received c es := by simp [received]
  have hw : written c (es ++ [.send i c line]) = written c es := by simp [written]
  refine ⟨?_, fun hne => ?_, ?_, fun hf => ?_⟩
  · simpa using Nat.succ_le_of_lt hroom.2
  · rw [ha, hr, List.map_append, h.fifo hne, List.append_assoc]
    rfl
  · rw [hr, hw]
    exact h.unopened
  · rw [hr, hw]
    exact h.bytes fun hmem => hf (List.mem_append_left _ hmem)

theorem traffic_opened (h : Traffic c es channel) {ok : Bool}
    (hs : channel.opened ok = some channel') : Traffic c (es ++ [.opened c ok]) channel' := by
  rw [Channel.opened] at hs
  split_ifs at hs with hopening hok
  all_goals
    cases hs
    obtain ⟨hnone, hempty⟩ := h.unopened (Or.inl hopening)
    have ha : accepted c (es ++ [.opened c ok]) = accepted c es := by simp [accepted]
    have hr : received c (es ++ [.opened c ok]) = [] := by simpa [received] using hnone
    have hw : written c (es ++ [.opened c ok]) = [] := by simpa [written] using hempty
  · refine ⟨h.room, fun _ => ?_, fun _ => ⟨hr, hw⟩, fun _ => by simp [hr, hw]⟩
    rw [ha, hr, h.fifo (by simp [hopening]), hnone]
  · exact ⟨Nat.zero_le _, fun hne => (hne rfl).elim, fun _ => ⟨hr, hw⟩, fun _ => by simp [hr, hw]⟩

theorem traffic_receive (h : Traffic c es channel) {line : Text}
    (hs : channel.receive line = some channel') : Traffic c (es ++ [.receive c line]) channel' := by
  rw [Channel.receive] at hs
  split at hs
  · rename_i next queue hwaiting hqueue
    split_ifs at hs with hline
    cases hs
    subst hline
    have ha : accepted c (es ++ [.receive c next]) = accepted c es := by simp [accepted]
    have hr : received c (es ++ [.receive c next]) = received c es ++ [next] := by simp [received]
    have hw : written c (es ++ [.receive c next]) = written c es := by simp [written]
    refine ⟨?_, fun _ => ?_, fun hun => by simp at hun, fun hf => ?_⟩
    · have hroom := h.room
      rw [hqueue, List.length_cons] at hroom
      exact Nat.le_of_succ_le hroom
    · rw [ha, hr, h.fifo (by simp [hwaiting]), hqueue, List.append_assoc]
      rfl
    · have hbytes := h.bytes fun hmem => hf (List.mem_append_left _ hmem)
      rw [hwaiting, unwritten_waiting, List.append_nil] at hbytes
      simp [hr, hw, hbytes]
  · cases hs

theorem traffic_write (h : Traffic c es channel) {chunk : Bytes}
    (hs : channel.write chunk = some channel') : Traffic c (es ++ [.write c chunk]) channel' := by
  rw [Channel.write] at hs
  split at hs
  · rename_i rest hwriting
    have ha : accepted c (es ++ [.write c chunk]) = accepted c es := by simp [accepted]
    have hr : received c (es ++ [.write c chunk]) = received c es := by simp [received]
    have hw : written c (es ++ [.write c chunk]) = written c es ++ chunk := by simp [written]
    have hfifo := h.fifo (by simp [hwriting])
    have hbytes : .fail c ∉ es ++ [.write c chunk] → written c es ++ rest =
        (received c es).flatMap fun line => utf8 (logFrame channel.key.2 line) := by
      intro hf
      simpa [hwriting] using h.bytes fun hmem => hf (List.mem_append_left _ hmem)
    split_ifs at hs with hchunk hall
    all_goals
      cases hs
      obtain ⟨_, behind, rfl⟩ := hchunk
      refine ⟨h.room, fun _ => by rw [ha, hr, hfifo], fun hun => by simp at hun, fun hf => ?_⟩
    · have hnone : behind = [] := by simpa using hall
      simpa [hr, hw, hnone] using hbytes hf
    · simpa [hr, hw] using hbytes hf
  · cases hs

theorem traffic_fail (h : Traffic c es channel) (hs : channel.fail = some channel') :
    Traffic c (es ++ [.fail c]) channel' := by
  rw [Channel.fail] at hs
  split at hs
  · rename_i rest hwriting
    cases hs
    have ha : accepted c (es ++ [.fail c]) = accepted c es := by simp [accepted]
    have hr : received c (es ++ [.fail c]) = received c es := by simp [received]
    refine ⟨h.room, fun _ => ?_, fun hun => by simp at hun, fun hf => absurd (by simp) hf⟩
    rw [ha, hr]
    exact h.fifo (by simp [hwriting])
  · cases hs

theorem traffic_act (h : Traffic c es channel) (hc : channelOf e = some c)
    (hs : acts e channel = some channel') : Traffic c (es ++ [e]) channel' := by
  cases e with
  | append _ _ _ _ | refuse _ | cancel _ => cases hc
  | send _ _ _ =>
    cases hc
    exact traffic_send h hs
  | opened _ _ =>
    cases hc
    exact traffic_opened h hs
  | receive _ _ =>
    cases hc
    exact traffic_receive h hs
  | write _ _ =>
    cases hc
    exact traffic_write h hs
  | fail _ =>
    cases hc
    exact traffic_fail h hs

end Traffic

section Tables
variable {es : List LogEvent} {e : LogEvent} {σ τ : Pipeline} {c : ℕ}
  {channel channel' : Channel}

theorem acts_key (h : acts e channel = some channel') : channel'.key = channel.key := by
  cases e <;> simp only [acts, Channel.send, Channel.opened, Channel.receive, Channel.write,
    Channel.fail] at h
  all_goals (repeat' split at h) <;> cases h <;> rfl

theorem acts_gone (hc : channelOf e = some c) (hgone : channel.writer = .gone) :
    acts e channel = none := by
  cases e with
  | append _ _ _ _ | refuse _ | cancel _ => cases hc
  | send _ _ _ => simp [acts, Channel.send, hgone]
  | opened _ _ => simp [acts, Channel.opened, hgone]
  | receive _ _ => simp [acts, Channel.receive, hgone]
  | write _ _ => simp [acts, Channel.write, hgone]
  | fail _ => simp [acts, Channel.fail, hgone]

/-- The table is one to one between its keys and the channels, and every channel is
true to its history. -/
structure Kept (es : List LogEvent) (σ : Pipeline) : Prop where
  table : ∀ key c, σ.writers key = some c ↔ σ.channels[c]?.map Channel.key = some key
  traffic : ∀ c channel, σ.channels[c]? = some channel → Traffic c es channel
  fresh : ∀ c, σ.channels.length ≤ c → ∀ e ∈ es, channelOf e ≠ some c

theorem kept_start (files : Text → Bytes) : Kept [] (.start files) := by
  constructor <;> simp [Pipeline.start]

theorem silent_history (h : ∀ e ∈ es, channelOf e ≠ some c) :
    accepted c es = [] ∧ received c es = [] ∧ written c es = [] := by
  induction es with
  | nil => exact ⟨rfl, rfl, rfl⟩
  | cons e es ih =>
    obtain ⟨hhead, htail⟩ := List.forall_mem_cons.mp h
    obtain ⟨ha, hr, hw⟩ := ih htail
    have happend : e :: es = [e] ++ es := rfl
    refine ⟨?_, ?_, ?_⟩
    · rw [happend, accepted, List.filterMap_append]
      exact List.append_eq_nil_iff.mpr ⟨accepted_other hhead, ha⟩
    · rw [happend, received, List.filterMap_append]
      exact List.append_eq_nil_iff.mpr ⟨received_other hhead, hr⟩
    · rw [happend, written, List.flatMap_append]
      exact List.append_eq_nil_iff.mpr ⟨written_other hhead, hw⟩

theorem kept_act (h : Kept es σ) (hc : channelOf e = some c) (hs : σ.step e = some τ) :
    Kept (es ++ [e]) τ := by
  obtain ⟨channel, channel', hchannel, hact, hchannels, hwriters⟩ := channel_step hs hc
  have hlt : c < σ.channels.length := (List.getElem?_eq_some_iff.mp hchannel).1
  have hother : ∀ d, d ≠ c → τ.channels[d]? = σ.channels[d]? := by
    intro d hd
    rw [hchannels, List.getElem?_set_ne (Ne.symm hd)]
  have hself : τ.channels[c]? = some channel' := by
    rw [hchannels, List.getElem?_set_self hlt]
  refine ⟨fun key d => ?_, fun d inner hd => ?_, fun d hd one hone => ?_⟩
  · rw [hwriters, h.table]
    rcases eq_or_ne d c with rfl | hne
    · rw [hself, hchannel, Option.map_some, Option.map_some, acts_key hact]
    · rw [hother d hne]
  · rcases eq_or_ne d c with rfl | hne
    · obtain rfl : channel' = inner := Option.some.inj (hself.symm.trans hd)
      exact traffic_act (h.traffic d channel hchannel) hc hact
    · refine traffic_other (h.traffic d inner (hother d hne ▸ hd)) ?_
      rw [hc]
      exact fun heq => hne (Option.some.inj heq).symm
  · rw [hchannels, List.length_set] at hd
    rcases List.mem_append.mp hone with hold | hnew
    · exact h.fresh d hd one hold
    · rw [List.mem_singleton.mp hnew, hc]
      rintro ⟨⟩
      exact absurd hd (Nat.not_le.mpr hlt)

theorem getElem?_concat_iff {l : List Channel} {new inner : Channel} {d : ℕ} :
    (l ++ [new])[d]? = some inner ↔ l[d]? = some inner ∨ d = l.length ∧ inner = new := by
  rcases Nat.lt_trichotomy d l.length with h | rfl | h
  · simp [List.getElem?_append_left h, Nat.ne_of_lt h]
  · simp [eq_comm]
  · have hne : d - l.length ≠ 0 := by omega
    simp [List.getElem?_append_right h.le, List.getElem?_eq_none h.le, hne, Nat.ne_of_gt h]

theorem kept_table (h : Kept es σ) (hc : channelOf e = none) (hs : σ.step e = some τ) :
    Kept (es ++ [e]) τ := by
  have hquiet : ∀ c, channelOf e ≠ some c := by simp [hc]
  have hfresh : ∀ d, σ.channels.length ≤ d → ∀ one ∈ es ++ [e], channelOf one ≠ some d := by
    intro d hd one hone
    rcases List.mem_append.mp hone with hold | hnew
    · exact h.fresh d hd one hold
    · rw [List.mem_singleton.mp hnew]
      exact hquiet d
  rcases table_step hs hc with ⟨hchannels, hwriters⟩ |
    ⟨_, key, _, _, _, hnone, hchannels, hwriters⟩
  · refine ⟨?_, fun d inner hd => ?_, ?_⟩
    · rw [hwriters, hchannels]
      exact h.table
    · exact traffic_other (h.traffic d inner (hchannels ▸ hd)) (hquiet d)
    · rw [hchannels]
      exact hfresh
  · refine ⟨fun other d => ?_, fun d inner hd => ?_, fun d hd => hfresh d ?_⟩
    · have hmap : τ.channels[d]?.map Channel.key = some other ↔
          σ.channels[d]?.map Channel.key = some other ∨ d = σ.channels.length ∧ other = key := by
        simp only [hchannels, Option.map_eq_some_iff, getElem?_concat_iff]
        constructor
        · rintro ⟨inner, hold | ⟨hd, rfl⟩, rfl⟩
          · exact Or.inl ⟨inner, hold, rfl⟩
          · exact Or.inr ⟨hd, rfl⟩
        · rintro (⟨inner, hold, rfl⟩ | ⟨hd, rfl⟩)
          · exact ⟨inner, Or.inl hold, rfl⟩
          · exact ⟨_, Or.inr ⟨hd, rfl⟩, rfl⟩
      rw [hmap, ← h.table, hwriters]
      by_cases hkey : other = key
      · subst hkey
        simp [hnone, eq_comm]
      · simp [hkey]
    · rw [hchannels] at hd
      rcases getElem?_concat_iff.mp hd with hold | ⟨rfl, rfl⟩
      · exact traffic_other (h.traffic d inner hold) (hquiet d)
      · obtain ⟨ha, hr, hw⟩ := silent_history (hfresh _ le_rfl)
        exact traffic_new key ha hr hw
    · rw [hchannels, List.length_append] at hd
      exact Nat.le_of_succ_le hd

theorem exec_kept {files : Text → Bytes}
    (h : exec Pipeline.step (.start files) es = some σ) : Kept es σ := by
  refine exec_induction (J := Kept) (kept_start files) (fun es σ e τ _ hk hs => ?_) h
  cases hc : channelOf e with
  | some c => exact kept_act hk hc hs
  | none => exact kept_table hk hc hs

end Tables

end FaninMcp.LogDelivery
