import FaninMcp.MetaTools

/-!
# Texts that are displayed

What the sanitizers of upstream-authored text leave of it. Each replaces the
same class of characters by a space and trims; two of them keep a number of
characters from the front. The class has all the invisible controls but three,
the directional marks, and these are kept where they stand.
-/

set_option autoImplicit false

namespace FaninMcp.DisplayText
open Foundation.RustText FaninMcp.MetaTools

def blankOut (s : Text) : Text := s.map fun c => if shouldNeutralizeUpstreamChar c then ' ' else c

theorem neutralize_eq (s : Text) : neutralizeUpstreamDisplay s = trim (blankOut s) := rfl

theorem identifier_eq (s : Text) : sanitizeUpstreamIdentifier s = (trim (blankOut s)).take 200 := rfl

section Fixed

structure Clean (s : Text) : Prop where
  chars : ∀ c ∈ s, shouldNeutralizeUpstreamChar c = false
  ends : Trimmed s

theorem blankOut_char {s : Text} {c : Char} (h : c ∈ blankOut s) :
    shouldNeutralizeUpstreamChar c = false := by
  obtain ⟨d, _, rfl⟩ := List.mem_map.mp h
  split_ifs with hd
  · decide
  · simpa using hd

theorem blankOut_fixed {s : Text} (h : ∀ c ∈ s, shouldNeutralizeUpstreamChar c = false) :
    blankOut s = s := by
  conv_rhs => rw [← List.map_id s]
  apply List.map_congr_left
  intro c hc
  rw [h c hc, if_neg Bool.noConfusion]
  rfl

theorem neutralize_clean (s : Text) : Clean (neutralizeUpstreamDisplay s) :=
  ⟨fun _ hc => blankOut_char (mem_trim hc), trim_trimmed (blankOut s)⟩

theorem neutralize_eq_self {s : Text} : neutralizeUpstreamDisplay s = s ↔ Clean s := by
  constructor
  · intro h
    rw [← h]
    exact neutralize_clean s
  · intro h
    rw [neutralize_eq, blankOut_fixed h.chars]
    exact trim_eq_self.mpr h.ends

theorem neutralize_idempotent (s : Text) :
    neutralizeUpstreamDisplay (neutralizeUpstreamDisplay s) = neutralizeUpstreamDisplay s :=
  neutralize_eq_self.mpr (neutralize_clean s)

theorem identifier_eq_self {s : Text} :
    sanitizeUpstreamIdentifier s = s ↔ Clean s ∧ s.length ≤ 200 := by
  rw [identifier_eq]
  constructor
  · intro h
    have hcap : s.length ≤ 200 := by
      rw [← h]
      exact List.length_take_le _ _
    have hblank : (blankOut s).length = s.length := List.length_map _
    have htrim := (trim_sublist (blankOut s)).length_le
    have htake : (trim (blankOut s)).take 200 = trim (blankOut s) :=
      List.take_of_length_le (by omega)
    rw [htake] at h
    exact ⟨neutralize_eq_self.mp h, hcap⟩
  · rintro ⟨hclean, hcap⟩
    rw [← neutralize_eq, neutralize_eq_self.mpr hclean]
    exact List.take_of_length_le hcap

end Fixed

section Marks

/-- The characters that steer how the others are displayed, or hide between
them: the C0 and C1 controls, DEL, the separators, the zero-width space and
joiners, the byte order mark, and every character with the property
Bidi_Control. -/
def isInvisible (c : Char) : Bool :=
  let u := c.toNat
  u ≤ 0x001F || u == 0x007F || (0x0080 ≤ u && u ≤ 0x009F) || u == 0x2028 || u == 0x2029 ||
    u == 0x061C || u == 0x200E || u == 0x200F || (0x202A ≤ u && u ≤ 0x202E) ||
    (0x2066 ≤ u && u ≤ 0x2069) || (0x200B ≤ u && u ≤ 0x200D) || u == 0xFEFF

def isMark (c : Char) : Bool :=
  let u := c.toNat
  u == 0x061C || u == 0x200E || u == 0x200F

theorem isInvisible_eq (c : Char) :
    isInvisible c = (shouldNeutralizeUpstreamChar c || isMark c) := by
  rw [Bool.eq_iff_iff]
  simp only [isInvisible, shouldNeutralizeUpstreamChar, isMark, Bool.or_eq_true, Bool.and_eq_true,
    decide_eq_true_eq, beq_iff_eq]
  omega

theorem isMark_kept {c : Char} (h : isMark c = true) :
    shouldNeutralizeUpstreamChar c = false ∧ isWhitespace c = false := by
  simp only [isMark, Bool.or_eq_true, beq_iff_eq] at h
  simp only [shouldNeutralizeUpstreamChar, isWhitespace, Bool.or_eq_false_iff, Bool.and_eq_false_iff,
    decide_eq_false_iff_not, beq_eq_false_iff_ne]
  omega

/-- What the documentation of the display calls neutralized: `t` is `s` with a
space for every invisible control but a mark, without the white space at its
ends, and with all the rest of it. -/
structure Shows (s t : Text) : Prop where
  whole : ∃ front back, (∀ c ∈ front ++ back, isWhitespace c = true) ∧
    (s.map fun c => if isInvisible c && !isMark c then ' ' else c) = front ++ t ++ back
  visible : ∀ c ∈ t, isInvisible c = true → isMark c = true
  trimmed : Trimmed t

theorem neutralized_eq (c : Char) :
    (isInvisible c && !isMark c) = shouldNeutralizeUpstreamChar c := by
  rw [isInvisible_eq]
  cases hmark : isMark c with
  | false => simp
  | true => rw [(isMark_kept hmark).1]; rfl

theorem neutralize_shows (s : Text) : Shows s (neutralizeUpstreamDisplay s) := by
  refine ⟨?_, ?_, (neutralize_clean s).ends⟩
  · obtain ⟨front, back, heq, hspace⟩ := trim_split (blankOut s)
    refine ⟨front, back, hspace, ?_⟩
    simp only [neutralized_eq]
    exact heq
  · intro c hc hinvisible
    rw [isInvisible_eq, (neutralize_clean s).chars c hc] at hinvisible
    simpa using hinvisible

def isBlank (c : Char) : Bool := shouldNeutralizeUpstreamChar c || isWhitespace c

/-- The part of a text that a display of at most `cap` characters is made from. -/
def kept (cap : ℕ) (s : Text) : Text := (s.dropWhile isBlank).take cap

def HasMark (s : Text) : Prop := ∃ c ∈ s, isMark c = true

theorem dropWhile_blankOut (s : Text) :
    (blankOut s).dropWhile isWhitespace = blankOut (s.dropWhile isBlank) := by
  have hsame : isWhitespace ∘ (fun c => if shouldNeutralizeUpstreamChar c then ' ' else c) =
      isBlank := by
    funext c
    cases hc : shouldNeutralizeUpstreamChar c with
    | true => simp [isBlank, hc, isWhitespace]
    | false => simp [isBlank, hc]
  rw [blankOut, List.dropWhile_map, hsame]
  rfl

theorem mark_blankOut {s : Text} {c : Char} (h : isMark c = true) : c ∈ blankOut s ↔ c ∈ s := by
  rw [blankOut, List.mem_map]
  constructor
  · rintro ⟨d, hd, heq⟩
    split_ifs at heq
    · rw [← heq] at h
      exact absurd h (by decide)
    · rwa [← heq]
  · intro hc
    refine ⟨c, hc, ?_⟩
    rw [(isMark_kept h).1, if_neg Bool.noConfusion]

theorem mark_trimEnd {s : Text} {c : Char} (h : isMark c = true) (cap : ℕ) :
    c ∈ (trimEnd s).take cap ↔ c ∈ s.take cap := by
  have hsplit : trimEnd s ++ s.rtakeWhile isWhitespace = s := List.rdropWhile_append_rtakeWhile ..
  conv_rhs => rw [← hsplit, List.take_append, List.mem_append]
  constructor
  · exact Or.inl
  · rintro (hc | hc)
    · exact hc
    · have hw := List.mem_rtakeWhile_imp (List.mem_of_mem_take hc)
      rw [(isMark_kept h).2] at hw
      exact Bool.noConfusion hw

theorem mark_shown {s : Text} {c : Char} (h : isMark c = true) (cap : ℕ) :
    c ∈ (neutralizeUpstreamDisplay s).take cap ↔ c ∈ kept cap s := by
  have htrim : neutralizeUpstreamDisplay s = trimEnd (blankOut (s.dropWhile isBlank)) := by
    rw [neutralize_eq, trim, dropWhile_blankOut]
    rfl
  rw [htrim, mark_trimEnd h, kept, blankOut, ← List.map_take]
  exact mark_blankOut h

theorem shown_visible (cap : ℕ) (s : Text) :
    (∀ c ∈ (neutralizeUpstreamDisplay s).take cap, isInvisible c = false) ↔ ¬ HasMark (kept cap s) := by
  constructor
  · rintro h ⟨c, hc, hm⟩
    have hvisible := h c ((mark_shown hm cap).mpr hc)
    rw [isInvisible_eq, hm, Bool.or_true] at hvisible
    exact Bool.noConfusion hvisible
  · intro h c hc
    rw [isInvisible_eq, blankOut_char (mem_trim (List.mem_of_mem_take hc)), Bool.false_or]
    apply Bool.eq_false_iff.mpr
    intro hm
    exact h ⟨c, (mark_shown hm cap).mp hc, hm⟩

theorem neutralized_visible (s : Text) :
    (∀ c ∈ neutralizeUpstreamDisplay s, isInvisible c = false) ↔ ¬ HasMark s := by
  have hwhole : (neutralizeUpstreamDisplay s).take s.length = neutralizeUpstreamDisplay s := by
    apply List.take_of_length_le
    have hlen := (trim_sublist (blankOut s)).length_le
    rwa [blankOut, List.length_map] at hlen
  have hall : kept s.length s = s.dropWhile isBlank :=
    List.take_of_length_le (List.dropWhile_suffix _).length_le
  have hmark : HasMark (s.dropWhile isBlank) ↔ HasMark s := by
    constructor
    · rintro ⟨c, hc, hm⟩
      exact ⟨c, (List.dropWhile_suffix _).subset hc, hm⟩
    · rintro ⟨c, hc, hm⟩
      refine ⟨c, ?_, hm⟩
      rw [← List.takeWhile_append_dropWhile (p := isBlank) (l := s), List.mem_append] at hc
      rcases hc with hfront | hrest
      · have hblank := List.mem_takeWhile_imp hfront
        rw [isBlank, (isMark_kept hm).1, (isMark_kept hm).2] at hblank
        exact Bool.noConfusion hblank
      · exact hrest
  rw [← hmark, ← hall, ← shown_visible, hwhole]

end Marks

end FaninMcp.DisplayText
