import FaninMcp.LogDelivery

/-!
# Log lines in the order of their tasks

A task waits for its line to be taken before it hands over the next, so a channel
takes the lines of a task in the order they were handed over, whatever the other
tasks do. A writer that is gone is not replaced, and its lines go nowhere.
-/

set_option autoImplicit false

namespace FaninMcp.LogProducers
open Foundation.RustText Foundation.EventRuns FaninMcp.StderrCapture FaninMcp.LogPipeline
  FaninMcp.LogDelivery
open Foundation.LossyUtf8 (Bytes utf8)

section Producers

def sentBy (i c : ℕ) (es : List LogEvent) : List Text :=
  ((accepted c es).filter fun line => line.1 = i).map Prod.snd

def waitingFor (i c : ℕ) (σ : Pipeline) : List Text :=
  ((σ.sending i).filter fun line => line.1 = c).toList.map Prod.snd

variable {i : ℕ} {es : List LogEvent} {e : LogEvent} {σ τ : Pipeline} {c : ℕ}

theorem waitingFor_none (h : σ.sending i = none) : waitingFor i c σ = [] := by
  simp [waitingFor, h]

theorem waitingFor_same (h : τ.sending i = σ.sending i) : waitingFor i c τ = waitingFor i c σ := by
  rw [waitingFor, waitingFor, h]

theorem sentBy_quiet (h : ∀ c' line, e ≠ .send i c' line) :
    sentBy i c (es ++ [e]) = sentBy i c es := by
  rw [sentBy, accepted_concat, List.filter_append, List.map_append, sentBy]
  suffices hnone : (accepted c [e]).filter (fun line => line.1 = i) = [] by
    rw [hnone, List.map_nil, List.append_nil]
  cases e <;> simp [accepted]
  case send j d line =>
    have hj : j ≠ i := by
      rintro rfl
      exact h d line rfl
    by_cases hd : d = c <;> simp [hd, hj]

theorem handed_quiet (h : ∀ key line order, e ≠ .append i key line order) (key : LogKey) :
    handed i key (es ++ [e]) = handed i key es := by
  rw [handed, List.filterMap_append, handed, List.append_right_eq_self]
  cases e <;> simp
  case append j key' line order =>
    rintro rfl rfl
    exact h key' line order rfl

def taskOf : LogEvent → Option ℕ
  | .append i _ _ _ | .send i _ _ | .refuse i | .cancel i => some i
  | _ => none

theorem sending_step (h : σ.step e = some τ) (hi : taskOf e ≠ some i) :
    τ.sending i = σ.sending i := by
  have hupdate : ∀ {ρ : Pipeline} {j pending}, j ≠ i →
      (ρ.sent j pending).sending i = ρ.sending i :=
    fun hj => Function.update_of_ne (Ne.symm hj) _ _
  cases e with
  | append j key line order =>
    have hj : j ≠ i := fun heq => hi (congrArg some heq)
    simp only [Pipeline.step] at h
    split at h
    · cases h
    · cases h
      rw [hupdate hj]
      cases hkey : σ.writers key <;> simp [Pipeline.logSender, hkey]
  | send j c line =>
    have hj : j ≠ i := fun heq => hi (congrArg some heq)
    simp only [Pipeline.step] at h
    split_ifs at h
    obtain ⟨ρ, hat, rfl⟩ := Option.map_eq_some_iff.mp h
    obtain ⟨_, _, _, _, rfl⟩ := at_cases hat
    exact hupdate hj
  | refuse j =>
    have hj : j ≠ i := fun heq => hi (congrArg some heq)
    simp only [Pipeline.step] at h
    split at h
    · split_ifs at h
      cases h
      exact hupdate hj
    · cases h
  | cancel j =>
    have hj : j ≠ i := fun heq => hi (congrArg some heq)
    simp only [Pipeline.step] at h
    split_ifs at h
    cases h
    exact hupdate hj
  | write c chunk =>
    simp only [Pipeline.step] at h
    split at h
    · obtain ⟨ρ, hat, rfl⟩ := Option.map_eq_some_iff.mp h
      obtain ⟨_, _, _, _, rfl⟩ := at_cases hat
      rfl
    · cases h
  | opened _ _ | receive _ _ | fail _ =>
    obtain ⟨_, _, _, _, rfl⟩ := at_cases h
    rfl

/-- What a task has handed over for a file and server comes to its channel in order,
and all of it unless a send was refused or given up. -/
structure Handing (i : ℕ) (es : List LogEvent) (σ : Pipeline) : Prop where
  ordered : ∀ key c, σ.writers key = some c →
    List.Sublist (sentBy i c es ++ waitingFor i c σ) (handed i key es)
  whole : .refuse i ∉ es → .cancel i ∉ es → ∀ key c, σ.writers key = some c →
    handed i key es = sentBy i c es ++ waitingFor i c σ
  unhanded : ∀ key, σ.writers key = none → handed i key es = []
  known : ∀ c line, σ.sending i = some (c, line) → c < σ.channels.length

theorem handing_start (files : Text → Bytes) : Handing i [] (.start files) := by
  constructor <;> simp [Pipeline.start, handed]

/-- A channel that is yet to be made has no history. -/
theorem handing_unmade (h : Handing i es σ) (hk : Kept es σ) :
    sentBy i σ.channels.length es ++ waitingFor i σ.channels.length σ = [] := by
  have hwaiting : waitingFor i σ.channels.length σ = [] := by
    rw [waitingFor]
    cases hi : σ.sending i with
    | none => rfl
    | some line => simp [Nat.ne_of_lt (h.known line.1 line.2 hi), Option.filter]
  rw [hwaiting, sentBy, (silent_history (hk.fresh _ le_rfl)).1]
  rfl

/-- A step that hands over some lines, and takes them to the channel of their key. -/
theorem handing_step {added : LogKey → List Text} (h : Handing i es σ) (hk : Kept es σ)
    (hs : σ.step e = some τ)
    (hthrough : ∀ key c, τ.writers key = some c → sentBy i c (es ++ [e]) ++ waitingFor i c τ =
      sentBy i c es ++ waitingFor i c σ ++ added key)
    (hhanded : ∀ key, handed i key (es ++ [e]) = handed i key es ++ added key)
    (hadded : ∀ key, τ.writers key = none → added key = [])
    (hknown : ∀ c line, τ.sending i = some (c, line) → c < τ.channels.length) :
    Handing i (es ++ [e]) τ := by
  have hpast : ∀ key c, τ.writers key = some c → σ.writers key = some c ∨
      handed i key es = [] ∧ sentBy i c es ++ waitingFor i c σ = [] := by
    intro key c hc
    rcases writers_step hs hc with hold | ⟨hnone, rfl⟩
    · exact Or.inl hold
    · exact Or.inr ⟨h.unhanded key hnone, handing_unmade h hk⟩
  constructor
  · intro key c hc
    rw [hthrough key c hc, hhanded]
    refine List.Sublist.append_right ?_ _
    rcases hpast key c hc with hold | ⟨_, hnew⟩
    · exact h.ordered key c hold
    · exact hnew ▸ List.nil_sublist _
  · intro hr hcan key c hc
    rw [hthrough key c hc, hhanded]
    rcases hpast key c hc with hold | ⟨hnone, hnew⟩
    · rw [h.whole (fun hm => hr (List.mem_append_left _ hm))
        (fun hm => hcan (List.mem_append_left _ hm)) key c hold]
    · rw [hnone, hnew]
  · intro key hnone
    have hbefore : σ.writers key = none := by
      cases hc : σ.writers key with
      | none => rfl
      | some c => exact absurd (hnone.symm.trans (writers_kept hs hc)) (by simp)
    rw [hhanded, h.unhanded key hbefore, hadded key hnone]
    rfl
  · exact hknown

theorem handing_same (h : Handing i es σ) (hk : Kept es σ) (hs : σ.step e = some τ)
    (hthrough : ∀ c, sentBy i c (es ++ [e]) ++ waitingFor i c τ = sentBy i c es ++ waitingFor i c σ)
    (hhanded : ∀ key, handed i key (es ++ [e]) = handed i key es)
    (hknown : ∀ c line, τ.sending i = some (c, line) → σ.sending i = some (c, line)) :
    Handing i (es ++ [e]) τ :=
  handing_step h hk hs (fun _ c _ => by rw [hthrough, List.append_nil])
    (fun key => by rw [hhanded, List.append_nil]) (fun _ _ => rfl)
    fun c line hline => (h.known c line (hknown c line hline)).trans_le (channels_grow hs)

theorem handing_send {line : Text} (h : Handing i es σ) (hk : Kept es σ)
    (hs : σ.step (.send i c line) = some τ) : Handing i (es ++ [.send i c line]) τ := by
  obtain ⟨hsending, hafter⟩ : σ.sending i = some (c, line) ∧ τ.sending i = none := by
    simp only [Pipeline.step] at hs
    split_ifs at hs with hi
    obtain ⟨ρ, _, rfl⟩ := Option.map_eq_some_iff.mp hs
    exact ⟨hi, Function.update_self ..⟩
  refine handing_same h hk hs (fun d => ?_) (fun key => handed_quiet (by simp) key)
    (by simp [hafter])
  rw [waitingFor_none hafter, waitingFor, hsending, sentBy, accepted_concat]
  by_cases hd : c = d <;> simp [accepted, sentBy, Option.filter, hd]

theorem handing_lost (h : Handing i es σ) (he : e = .refuse i ∨ e = .cancel i)
    (hτ : τ = σ.sent i none) : Handing i (es ++ [e]) τ := by
  subst hτ
  have hwaiting : ∀ d, waitingFor i d (σ.sent i none) = [] :=
    fun d => waitingFor_none (Function.update_self ..)
  have hsent : ∀ d, sentBy i d (es ++ [e]) = sentBy i d es :=
    fun d => sentBy_quiet (by rcases he with rfl | rfl <;> simp)
  have hhanded : ∀ key, handed i key (es ++ [e]) = handed i key es :=
    handed_quiet (by rcases he with rfl | rfl <;> simp)
  constructor
  · intro key d hd
    rw [hwaiting, hsent, hhanded, List.append_nil]
    exact (List.sublist_append_left _ _).trans (h.ordered key d hd)
  · intro hr hc
    rcases he with rfl | rfl
    · exact absurd (by simp) hr
    · exact absurd (by simp) hc
  · intro key hnone
    rw [hhanded, h.unhanded key hnone]
  · intro d line hline
    simp [Pipeline.sent] at hline

theorem append_cases {key : LogKey} {line : Text} {order : List Text}
    (hs : σ.step (.append i key line order) = some τ) : ∃ d, τ.writers key = some d ∧
      σ.sending i = none ∧ τ.sending i = some (d, appendLogLine order line) := by
  simp only [Pipeline.step] at hs
  split at hs
  · cases hs
  · rename_i hnone
    cases hs
    refine ⟨(σ.logSender key).1, ?_, hnone, Function.update_self ..⟩
    cases hkey : σ.writers key <;> simp [Pipeline.logSender, Pipeline.sent, hkey]

theorem handing_append {key : LogKey} {line : Text} {order : List Text} (h : Handing i es σ)
    (hk : Kept es σ) (hs : σ.step (.append i key line order) = some τ) :
    Handing i (es ++ [.append i key line order]) τ := by
  have hτ := kept_table hk rfl hs
  obtain ⟨d, hwriters, hsending, hafter⟩ := append_cases hs
  -- two keys do not have one channel
  have hone : ∀ other, τ.writers other = some d → other = key := by
    intro other hother
    have hnamed := (hτ.table other d).mp hother
    rw [(hτ.table key d).mp hwriters] at hnamed
    exact (Option.some.inj hnamed).symm
  have hwaiting : ∀ other c, τ.writers other = some c →
      waitingFor i c τ = if other = key then [appendLogLine order line] else [] := by
    intro other c hc
    rw [waitingFor, hafter]
    by_cases hkey : other = key
    · subst hkey
      obtain rfl : d = c := Option.some.inj (hwriters.symm.trans hc)
      simp [Option.filter]
    · have hd : d ≠ c := by
        rintro rfl
        exact hkey (hone other hc)
      simp [Option.filter, hkey, hd]
  have hhanded : ∀ other, handed i other (es ++ [.append i key line order]) =
      handed i other es ++ if other = key then [appendLogLine order line] else [] := by
    intro other
    by_cases hkey : other = key
    · simp [handed, hkey]
    · simp [handed, hkey, Ne.symm hkey]
  refine handing_step h hk hs (fun other c hc => ?_) hhanded (fun other hnone => ?_)
    fun c line' hline => ?_
  · rw [hwaiting other c hc, sentBy_quiet (by simp), waitingFor_none hsending, List.append_nil]
  · refine if_neg ?_
    rintro rfl
    simp [hwriters] at hnone
  · obtain ⟨rfl, rfl⟩ : d = c ∧ appendLogLine order line = line' := by simpa [hafter] using hline
    obtain ⟨channel, hchannel, _⟩ := Option.map_eq_some_iff.mp ((hτ.table key d).mp hwriters)
    exact (List.getElem?_eq_some_iff.mp hchannel).1

theorem exec_handing {files : Text → Bytes}
    (h : exec Pipeline.step (.start files) es = some σ) (i : ℕ) : Handing i es σ := by
  refine exec_induction (J := Handing i) (handing_start files) (fun es σ e τ hrun hh hs => ?_) h
  have hk := exec_kept hrun
  by_cases hi : taskOf e = some i
  · cases e with
    | append j key line order =>
      cases hi
      exact handing_append hh hk hs
    | send j c line =>
      cases hi
      exact handing_send hh hk hs
    | refuse j =>
      cases hi
      refine handing_lost hh (Or.inl rfl) ?_
      simp only [Pipeline.step] at hs
      split at hs
      · split_ifs at hs
        exact (Option.some.inj hs).symm
      · cases hs
    | cancel j =>
      cases hi
      refine handing_lost hh (Or.inr rfl) ?_
      simp only [Pipeline.step] at hs
      split_ifs at hs
      exact (Option.some.inj hs).symm
    | opened _ _ | receive _ _ | write _ _ | fail _ => cases hi
  · have hsending := sending_step hs hi
    have hquiet : ∀ c' line, e ≠ .send i c' line := by
      rintro c' line rfl
      exact hi rfl
    have hunhanded : ∀ key line order, e ≠ .append i key line order := by
      rintro key line order rfl
      exact hi rfl
    refine handing_same hh hk hs (fun c => ?_) (handed_quiet hunhanded) (by simp [hsending])
    rw [sentBy_quiet hquiet, waitingFor_same hsending]

end Producers

section Runs
variable {files : Text → Bytes} {es later : List LogEvent} {σ τ : Pipeline} {key : LogKey} {c : ℕ}

/-- In every run, the channel of a file and server has taken each task's lines in the
order they were handed over, its writer has received what was taken in the order it
was taken, and its part of the file is the frames of what was received. -/
theorem log_delivery (h : exec Pipeline.step (.start files) es = some σ)
    (hc : σ.writers key = some c) :
    ∃ channel, σ.channels[c]? = some channel ∧ channel.key = key ∧
      channel.queue.length ≤ logChannelCapacity ∧
      (∀ i, List.Sublist (sentBy i c es ++ waitingFor i c σ) (handed i key es)) ∧
      (∀ i, .refuse i ∉ es → .cancel i ∉ es →
        sentBy i c es ++ waitingFor i c σ = handed i key es) ∧
      (channel.writer ≠ .gone →
        (accepted c es).map Prod.snd = received c es ++ channel.queue) ∧
      (.fail c ∉ es → written c es ++ channel.writer.unwritten =
        (received c es).flatMap fun line => utf8 (logFrame key.2 line)) := by
  have hk := exec_kept h
  obtain ⟨channel, hchannel, hkey⟩ := Option.map_eq_some_iff.mp ((hk.table key c).mp hc)
  have ht := hk.traffic c channel hchannel
  refine ⟨channel, hchannel, hkey, ht.room, fun i => (exec_handing h i).ordered key c hc,
    fun i hr hcan => ((exec_handing h i).whole hr hcan key c hc).symm, ht.fifo, ?_⟩
  rw [← hkey]
  exact ht.bytes

/-- Two tasks log for one server, and the first line is being written. -/
def twoTasks : List LogEvent :=
  let key := ("up.log".toList, "up".toList)
  [.append 0 key "a".toList [], .append 1 key "b".toList [], .send 1 0 "b".toList, .opened 0 true,
    .send 0 0 "a".toList, .receive 0 "b".toList, .write 0 (utf8 "[up]".toList)]

theorem log_delivery_two : ∃ σ channel, exec Pipeline.step (.start fun _ => []) twoTasks = some σ ∧
    σ.channels[0]? = some channel ∧
    sentBy 0 0 twoTasks ++ waitingFor 0 0 σ =
      handed 0 ("up.log".toList, "up".toList) twoTasks ∧
    (accepted 0 twoTasks).map Prod.snd = received 0 twoTasks ++ channel.queue ∧
    written 0 twoTasks ++ channel.writer.unwritten =
      (received 0 twoTasks).flatMap fun line => utf8 (logFrame "up".toList line) := by
  obtain ⟨σ, hrun, hc, hwriter⟩ : ∃ σ, exec Pipeline.step (.start fun _ => []) twoTasks = some σ ∧
      σ.writers ("up.log".toList, "up".toList) = some 0 ∧
      σ.channels[0]?.map Channel.writer = some (.writing (utf8 " b\n".toList)) :=
    ⟨_, rfl, rfl, rfl⟩
  obtain ⟨channel, hchannel, _, _, _, hwhole, hfifo, hbytes⟩ := log_delivery hrun hc
  rw [hchannel, Option.map_some, Option.some.injEq] at hwriter
  exact ⟨σ, channel, hrun, hchannel, hwhole 0 (by simp [twoTasks]) (by simp [twoTasks]),
    hfifo (by simp [hwriter]), hbytes (by simp [twoTasks])⟩

theorem gone_step {e : LogEvent} (hs : σ.step e = some τ)
    (hc : σ.writers key = some c)
    (hgone : σ.channels[c]?.map Channel.writer = some .gone) :
    channelOf e ≠ some c ∧ τ.writers key = some c ∧
      τ.channels[c]?.map Channel.writer = some .gone := by
  obtain ⟨channel, hchannel, hwriter⟩ := Option.map_eq_some_iff.mp hgone
  cases he : channelOf e with
  | some d =>
    obtain ⟨inner, inner', hinner, hact, hchannels, hwriters⟩ := channel_step hs he
    have hne : d ≠ c := by
      rintro rfl
      obtain rfl : inner = channel := Option.some.inj (hinner.symm.trans hchannel)
      rw [acts_gone he hwriter] at hact
      cases hact
    refine ⟨fun heq => hne (Option.some.inj heq), hwriters ▸ hc, ?_⟩
    rw [hchannels, List.getElem?_set_ne hne]
    exact hgone
  | none =>
    refine ⟨nofun, ?_⟩
    refine ⟨writers_kept hs hc, ?_⟩
    have hlt := (List.getElem?_eq_some_iff.mp hchannel).1
    rcases table_step hs he with ⟨hchannels, _⟩ | ⟨_, _, _, _, _, _, hchannels, _⟩
    · rw [hchannels]
      exact hgone
    · rw [hchannels, List.getElem?_append_left hlt]
      exact hgone

/-- After a log file could not be opened, its place in the table is kept, no line for
it is taken any more and nothing is ever written to it for that server. -/
theorem unopened_for_good (h : exec Pipeline.step (.start files) es = some σ)
    (hc : σ.writers key = some c)
    (hgone : σ.channels[c]?.map Channel.writer = some .gone)
    (hl : exec Pipeline.step σ later = some τ) :
    τ.writers key = some c ∧ τ.channels[c]?.map Channel.writer = some .gone ∧
      written c (es ++ later) = [] ∧ ∀ i, sentBy i c (es ++ later) = sentBy i c es := by
  have hkept : ∀ {past ρ}, exec Pipeline.step σ past = some ρ → Kept (es ++ past) ρ :=
    fun hpast => exec_kept (exec_append.mpr ⟨σ, h, hpast⟩)
  obtain ⟨hwriters, hstill, hsilent⟩ := exec_induction
    (J := fun past ρ => ρ.writers key = some c ∧
      ρ.channels[c]?.map Channel.writer = some .gone ∧ ∀ e ∈ past, channelOf e ≠ some c)
    ⟨hc, hgone, by simp⟩ (fun past ρ e ρ' hpast hJ hs => by
      obtain ⟨hother, hwriters, hstill⟩ := gone_step hs hJ.1 hJ.2.1
      refine ⟨hwriters, hstill, fun one hone => ?_⟩
      rcases List.mem_append.mp hone with hold | hnew
      · exact hJ.2.2 one hold
      · exact List.mem_singleton.mp hnew ▸ hother) hl
  obtain ⟨haccepted, _, hwritten⟩ := silent_history hsilent
  obtain ⟨channel, hchannel, hwriter⟩ := Option.map_eq_some_iff.mp hgone
  have hnone := ((exec_kept h).traffic c channel hchannel).unopened (Or.inr hwriter)
  refine ⟨hwriters, hstill, ?_, fun i => ?_⟩
  · rw [written] at hwritten hnone ⊢
    rw [List.flatMap_append, hnone.2, hwritten, List.append_nil]
  · rw [sentBy, accepted, List.filterMap_append]
    rw [accepted] at haccepted
    rw [haccepted, List.append_nil]
    rfl

def unopened : List LogEvent :=
  [.append 0 ("no/up.log".toList, "up".toList) "a".toList [], .opened 0 false, .refuse 0]

theorem unopened_for_good_up : ∃ σ τ, exec Pipeline.step (.start fun _ => []) unopened = some σ ∧
    exec Pipeline.step σ [.append 1 ("no/up.log".toList, "up".toList) "b".toList []] = some τ ∧
    τ.writers ("no/up.log".toList, "up".toList) = some 0 ∧
    τ.channels[0]?.map Channel.writer = some .gone := by
  obtain ⟨σ, τ, hrun, hc, hgone, hl⟩ : ∃ σ τ,
      exec Pipeline.step (.start fun _ => []) unopened = some σ ∧
      σ.writers ("no/up.log".toList, "up".toList) = some 0 ∧
      σ.channels[0]?.map Channel.writer = some .gone ∧
      exec Pipeline.step σ [.append 1 ("no/up.log".toList, "up".toList) "b".toList []] = some τ :=
    ⟨_, _, rfl, rfl, rfl, rfl⟩
  obtain ⟨hwriters, hstill, _⟩ := unopened_for_good hrun hc hgone hl
  exact ⟨σ, τ, hrun, hl, hwriters, hstill⟩

end Runs

end FaninMcp.LogProducers
