import FaninMcp.Foundation.RustText
import Mathlib.Data.List.Forall2

/-!
# Lossy UTF-8 decoding

Bytes are read one maximal piece at a time: a piece is a scalar, or a sequence
that no continuation can complete and that is shown as U+FFFD. A byte that
starts a scalar never continues another, so decoding falls into step with any
encoded text in the stream, whatever stands in front of it.
-/

set_option autoImplicit false

namespace Foundation.LossyUtf8
open Foundation.RustText

abbrev Bytes := List UInt8

/-- The bytes of a `str`. -/
def utf8 (text : Text) : Bytes := text.flatMap String.utf8EncodeChar

/-- `char::REPLACEMENT_CHARACTER`. -/
def replacement : Char := Char.ofNat 0xFFFD

structure ByteRange where
  lo : ℕ
  hi : ℕ
  lo_ge : 0x80 ≤ lo
  hi_le : hi ≤ 0xBF

def ByteRange.holds (r : ByteRange) (b : UInt8) : Bool := r.lo ≤ b.toNat && b.toNat ≤ r.hi

def continuation : ByteRange := ⟨0x80, 0xBF, by omega, by omega⟩

def secondOfThree (lead : ℕ) : ByteRange :=
  if lead = 0xE0 then ⟨0xA0, 0xBF, by omega, by omega⟩
  else if lead = 0xED then ⟨0x80, 0x9F, by omega, by omega⟩
  else continuation

def secondOfFour (lead : ℕ) : ByteRange :=
  if lead = 0xF0 then ⟨0x90, 0xBF, by omega, by omega⟩
  else if lead = 0xF4 then ⟨0x80, 0x8F, by omega, by omega⟩
  else continuation

/-- The bytes that may follow a lead byte, none for a byte that leads nothing. -/
def followers (lead : ℕ) : Option (List ByteRange) :=
  if lead < 0x80 then some []
  else if lead < 0xC2 then none
  else if lead < 0xE0 then some [continuation]
  else if lead < 0xF0 then some [secondOfThree lead, continuation]
  else if lead < 0xF5 then some [secondOfFour lead, continuation, continuation]
  else none

def accepted : List ByteRange → Bytes → ℕ
  | r::rs, b::bs => if r.holds b then accepted rs bs + 1 else 0
  | _, _ => 0

def leadBits (lead : ℕ) : ℕ → ℕ
  | 0 => lead
  | 1 => lead - 0xC0
  | 2 => lead - 0xE0
  | _ => lead - 0xF0

def codePoint (lead : ℕ) (rest : Bytes) : ℕ :=
  rest.foldl (fun code b => code*64 + (b.toNat - 0x80)) (leadBits lead rest.length)

def assemble (lead : ℕ) (rest : Bytes) : Char := Char.ofNat (codePoint lead rest)

/-- The piece a lead byte starts, with the number of bytes it takes after the lead. -/
def nextPiece (lead : UInt8) (rest : Bytes) : Option Char × ℕ :=
  match followers lead.toNat with
  | none => (none, 0)
  | some rs =>
    let n := accepted rs rest
    (if n = rs.length then some (assemble lead.toNat (rest.take n)) else none, n)

def piecesFrom : ℕ → Bytes → List (Option Char)
  | _, [] => []
  | skip+1, _::bs => piecesFrom skip bs
  | 0, b::bs => (nextPiece b bs).1 :: piecesFrom (nextPiece b bs).2 bs

/-- `<[u8]>::utf8_chunks`, scalar by scalar: `none` for each invalid sequence. -/
def utf8Chunks (bytes : Bytes) : List (Option Char) := piecesFrom 0 bytes

/-- `String::from_utf8_lossy`. -/
def fromUtf8Lossy (bytes : Bytes) : Text := (utf8Chunks bytes).map (·.getD replacement)

/-- `str::from_utf8`. -/
def fromUtf8 (bytes : Bytes) : Option Text :=
  if none ∈ utf8Chunks bytes then none else some (fromUtf8Lossy bytes)

@[simp] theorem utf8_nil : utf8 [] = [] := rfl

@[simp] theorem utf8_cons (c : Char) (cs : Text) :
    utf8 (c::cs) = String.utf8EncodeChar c ++ utf8 cs := rfl

@[simp] theorem utf8_append (left right : Text) : utf8 (left ++ right) = utf8 left ++ utf8 right := by
  simp [utf8]

theorem piecesFrom_drop (k : ℕ) (bytes : Bytes) : piecesFrom k bytes = utf8Chunks (bytes.drop k) := by
  induction k generalizing bytes with
  | zero => rfl
  | succ k ih =>
    cases bytes with
    | nil => rfl
    | cons b bs => simpa [piecesFrom] using ih bs

@[simp] theorem utf8Chunks_nil : utf8Chunks [] = [] := rfl

theorem utf8Chunks_cons (b : UInt8) (bs : Bytes) :
    utf8Chunks (b::bs) = (nextPiece b bs).1 :: utf8Chunks (bs.drop (nextPiece b bs).2) := by
  rw [utf8Chunks, piecesFrom, piecesFrom_drop]

section Pieces

theorem accepted_le (rs : List ByteRange) (bytes : Bytes) :
    accepted rs bytes ≤ rs.length ∧ accepted rs bytes ≤ bytes.length := by
  induction rs generalizing bytes with
  | nil => simp [accepted]
  | cons r rs ih =>
    cases bytes with
    | nil => simp [accepted]
    | cons b bs =>
      rw [accepted]
      split_ifs
      · simpa using ih bs
      · simp

theorem nextPiece_le (b : UInt8) (bs : Bytes) : (nextPiece b bs).2 ≤ bs.length := by
  rw [nextPiece]
  split
  · simp
  · exact (accepted_le _ bs).2

def Boundary (b : UInt8) : Prop := b.toNat < 0x80 ∨ 0xC0 ≤ b.toNat

theorem accepted_boundary {b : UInt8} (hb : Boundary b) (rs : List ByteRange) (left right : Bytes) :
    accepted rs (left ++ b::right) = accepted rs left := by
  induction rs generalizing left with
  | nil => simp [accepted]
  | cons r rs ih =>
    cases left with
    | nil =>
      have hr : r.holds b = false := by
        have := r.lo_ge
        have := r.hi_le
        rcases hb with h | h <;> simp [ByteRange.holds] <;> omega
      simp [accepted, hr]
    | cons a left => simp [accepted, ih]

theorem nextPiece_boundary {b : UInt8} (hb : Boundary b) (a : UInt8) (left right : Bytes) :
    nextPiece a (left ++ b::right) = nextPiece a left := by
  rw [nextPiece, nextPiece]
  cases hf : followers a.toNat with
  | none => rfl
  | some rs =>
    simp only [accepted_boundary hb]
    rw [List.take_append_of_le_length (accepted_le rs left).2]

theorem utf8Chunks_boundary {b : UInt8} (hb : Boundary b) (left right : Bytes) :
    utf8Chunks (left ++ b::right) = utf8Chunks left ++ utf8Chunks (b::right) := by
  induction hn : left.length using Nat.strong_induction_on generalizing left with
  | _ n ih =>
    cases left with
    | nil => simp
    | cons a left =>
      have hle := nextPiece_le a left
      rw [List.cons_append, utf8Chunks_cons, utf8Chunks_cons, nextPiece_boundary hb,
        List.drop_append_of_le_length hle, List.cons_append]
      congr 1
      refine ih _ ?_ _ rfl
      simp only [List.length_drop, List.length_cons] at hn ⊢
      omega

end Pieces

section Scalars

theorem ByteRange.holds_iff {r : ByteRange} {b : UInt8} :
    r.holds b = true ↔ r.lo ≤ b.toNat ∧ b.toNat ≤ r.hi := by
  simp [ByteRange.holds]

def Fits (rs : List ByteRange) (tail : Bytes) : Prop := List.Forall₂ (fun r b => r.holds b = true) rs tail

theorem toNat_ofNat_lt {n : ℕ} (h : n < 256) : (UInt8.ofNat n).toNat = n := by
  simp [Nat.mod_eq_of_lt h]

theorem code_bounds (c : Char) : c.toNat < 0xD800 ∨ 0xDFFF < c.toNat ∧ c.toNat < 0x110000 := by
  rcases c.valid with h | h
  · exact Or.inl h
  · exact Or.inr h

theorem toNat_charOfNat {n : ℕ} (h : n < 0xD800 ∨ 0xDFFF < n ∧ n < 0x110000) :
    (Char.ofNat n).toNat = n := by
  have hv : n.isValidChar := h
  rw [Char.ofNat, dif_pos hv]
  rfl

theorem ofNat_eq {b : UInt8} {n : ℕ} (h : n = b.toNat) : UInt8.ofNat n = b := by
  rw [h, UInt8.ofNat_toNat]

theorem fits_cons {r : ByteRange} {rs : List ByteRange} {tail : Bytes} (h : Fits (r::rs) tail) :
    ∃ b bs, tail = b::bs ∧ (r.lo ≤ b.toNat ∧ b.toNat ≤ r.hi) ∧ Fits rs bs := by
  obtain ⟨b, bs, hr, hrest, rfl⟩ := List.forall₂_cons_left_iff.mp h
  exact ⟨b, bs, rfl, ByteRange.holds_iff.mp hr, hrest⟩

theorem fits_nil {tail : Bytes} (h : Fits [] tail) : tail = [] := List.forall₂_nil_left_iff.mp h

theorem secondOfThree_bounds {lead n : ℕ} (h : (secondOfThree lead).lo ≤ n ∧ n ≤ (secondOfThree lead).hi) :
    (0x80 ≤ n ∧ n ≤ 0xBF) ∧ (lead = 0xE0 → 0xA0 ≤ n) ∧ (lead = 0xED → n ≤ 0x9F) := by
  rw [secondOfThree] at h
  split_ifs at h <;> simp only [continuation] at h <;> omega

theorem secondOfFour_bounds {lead n : ℕ} (h : (secondOfFour lead).lo ≤ n ∧ n ≤ (secondOfFour lead).hi) :
    (0x80 ≤ n ∧ n ≤ 0xBF) ∧ (lead = 0xF0 → 0x90 ≤ n) ∧ (lead = 0xF4 → n ≤ 0x8F) := by
  rw [secondOfFour] at h
  split_ifs at h <;> simp only [continuation] at h <;> omega

theorem encode_assemble {b : UInt8} {rs : List ByteRange} {tail : Bytes}
    (hf : followers b.toNat = some rs) (ht : Fits rs tail) :
    String.utf8EncodeChar (assemble b.toNat tail) = b::tail := by
  rw [followers] at hf
  split_ifs at hf with h1 h2 h3 h4 h5 <;> obtain rfl := Option.some.inj hf
  · obtain rfl := fits_nil ht
    have hn : (assemble b.toNat []).val.toNat = b.toNat := toNat_charOfNat (n := b.toNat) (by omega)
    simp only [String.utf8EncodeChar, hn]
    rw [if_pos (by omega), ofNat_eq rfl]
  · obtain ⟨c, _, rfl, hc, ht⟩ := fits_cons ht
    obtain rfl := fits_nil ht
    simp only [continuation] at hc
    have hn : (assemble b.toNat [c]).val.toNat = (b.toNat - 0xC0)*64 + (c.toNat - 0x80) :=
      toNat_charOfNat (n := (b.toNat - 0xC0)*64 + (c.toNat - 0x80)) (by omega)
    simp only [String.utf8EncodeChar, hn]
    rw [if_neg (by omega), if_pos (by omega), ofNat_eq (b := b) (by omega), ofNat_eq (b := c) (by omega)]
  · obtain ⟨c, _, rfl, hc, ht⟩ := fits_cons ht
    obtain ⟨d, _, rfl, hd, ht⟩ := fits_cons ht
    obtain rfl := fits_nil ht
    have hc := secondOfThree_bounds hc
    simp only [continuation] at hd
    have hn : (assemble b.toNat [c, d]).val.toNat =
        ((b.toNat - 0xE0)*64 + (c.toNat - 0x80))*64 + (d.toNat - 0x80) :=
      toNat_charOfNat (n := ((b.toNat - 0xE0)*64 + (c.toNat - 0x80))*64 + (d.toNat - 0x80)) (by omega)
    simp only [String.utf8EncodeChar, hn]
    rw [if_neg (by omega), if_neg (by omega), if_pos (by omega), ofNat_eq (b := b) (by omega),
      ofNat_eq (b := c) (by omega), ofNat_eq (b := d) (by omega)]
  · obtain ⟨c, _, rfl, hc, ht⟩ := fits_cons ht
    obtain ⟨d, _, rfl, hd, ht⟩ := fits_cons ht
    obtain ⟨e, _, rfl, he, ht⟩ := fits_cons ht
    obtain rfl := fits_nil ht
    have hc := secondOfFour_bounds hc
    simp only [continuation] at hd he
    have hn : (assemble b.toNat [c, d, e]).val.toNat =
        (((b.toNat - 0xF0)*64 + (c.toNat - 0x80))*64 + (d.toNat - 0x80))*64 + (e.toNat - 0x80) :=
      toNat_charOfNat (n := (((b.toNat - 0xF0)*64 + (c.toNat - 0x80))*64 + (d.toNat - 0x80))*64 +
        (e.toNat - 0x80)) (by omega)
    simp only [String.utf8EncodeChar, hn]
    rw [if_neg (by omega), if_neg (by omega), if_neg (by omega), ofNat_eq (b := b) (by omega),
      ofNat_eq (b := c) (by omega), ofNat_eq (b := d) (by omega), ofNat_eq (b := e) (by omega)]

theorem secondOfThree_holds {lead : ℕ} {b : UInt8} (h : 0x80 ≤ b.toNat ∧ b.toNat ≤ 0xBF)
    (hlo : lead = 0xE0 → 0xA0 ≤ b.toNat) (hhi : lead = 0xED → b.toNat ≤ 0x9F) :
    (secondOfThree lead).holds b = true := by
  rw [ByteRange.holds_iff, secondOfThree]
  split_ifs <;> simp only [continuation] <;> omega

theorem secondOfFour_holds {lead : ℕ} {b : UInt8} (h : 0x80 ≤ b.toNat ∧ b.toNat ≤ 0xBF)
    (hlo : lead = 0xF0 → 0x90 ≤ b.toNat) (hhi : lead = 0xF4 → b.toNat ≤ 0x8F) :
    (secondOfFour lead).holds b = true := by
  rw [ByteRange.holds_iff, secondOfFour]
  split_ifs <;> simp only [continuation] <;> omega

theorem sixBits_toNat (n : ℕ) : (UInt8.ofNat (n%64 + 0x80)).toNat = n%64 + 0x80 :=
  toNat_ofNat_lt (by omega)

theorem continuation_holds (n : ℕ) : continuation.holds (UInt8.ofNat (n%64 + 0x80)) = true := by
  rw [ByteRange.holds_iff, sixBits_toNat]
  simp only [continuation]
  omega

theorem codePoint_two (lead : ℕ) (c : UInt8) :
    codePoint lead [c] = (lead - 0xC0)*64 + (c.toNat - 0x80) := rfl

theorem codePoint_three (lead : ℕ) (c d : UInt8) :
    codePoint lead [c, d] = ((lead - 0xE0)*64 + (c.toNat - 0x80))*64 + (d.toNat - 0x80) := rfl

theorem codePoint_four (lead : ℕ) (c d e : UInt8) : codePoint lead [c, d, e] =
    (((lead - 0xF0)*64 + (c.toNat - 0x80))*64 + (d.toNat - 0x80))*64 + (e.toNat - 0x80) := rfl

theorem encode_shape (c : Char) : ∃ b tail rs, String.utf8EncodeChar c = b::tail ∧
    followers b.toNat = some rs ∧ Fits rs tail ∧ codePoint b.toNat tail = c.toNat := by
  have hbounds := code_bounds c
  have hv : c.val.toNat = c.toNat := rfl
  generalize hn : c.toNat = n at *
  simp only [String.utf8EncodeChar, hv]
  split_ifs with h1 h2 h3
  · have hb : (UInt8.ofNat n).toNat = n := toNat_ofNat_lt (by omega)
    refine ⟨_, _, [], rfl, ?_, List.Forall₂.nil, ?_⟩
    · rw [hb, followers, if_pos (by omega)]
    · exact hb
  · have hb : (UInt8.ofNat (n/64%32 + 0xC0)).toNat = n/64%32 + 0xC0 := toNat_ofNat_lt (by omega)
    refine ⟨_, _, [continuation], rfl, ?_, .cons (continuation_holds n) .nil, ?_⟩
    · rw [hb, followers, if_neg (by omega), if_neg (by omega), if_pos (by omega)]
    · rw [codePoint_two, hb]
      simp only [sixBits_toNat]
      omega
  · have hb : (UInt8.ofNat (n/4096%16 + 0xE0)).toNat = n/4096%16 + 0xE0 := toNat_ofNat_lt (by omega)
    have hsecond := sixBits_toNat (n/64)
    refine ⟨_, _, [secondOfThree (n/4096%16 + 0xE0), continuation], rfl, ?_,
      .cons (secondOfThree_holds ?_ ?_ ?_) (.cons (continuation_holds n) .nil), ?_⟩
    · rw [hb, followers, if_neg (by omega), if_neg (by omega), if_neg (by omega), if_pos (by omega)]
    · rw [hsecond]
      omega
    · rw [hsecond]
      omega
    · rw [hsecond]
      omega
    · rw [codePoint_three, hb]
      simp only [sixBits_toNat]
      omega
  · have hb : (UInt8.ofNat (n/262144%8 + 0xF0)).toNat = n/262144%8 + 0xF0 := toNat_ofNat_lt (by omega)
    have hsecond := sixBits_toNat (n/4096)
    refine ⟨_, _, [secondOfFour (n/262144%8 + 0xF0), continuation, continuation], rfl, ?_,
      .cons (secondOfFour_holds ?_ ?_ ?_)
        (.cons (continuation_holds (n/64)) (.cons (continuation_holds n) .nil)), ?_⟩
    · rw [hb, followers, if_neg (by omega), if_neg (by omega), if_neg (by omega), if_neg (by omega),
        if_pos (by omega)]
    · rw [hsecond]
      omega
    · rw [hsecond]
      omega
    · rw [hsecond]
      omega
    · rw [codePoint_four, hb]
      simp only [sixBits_toNat]
      omega

end Scalars

section Decoding

theorem accepted_fits {rs : List ByteRange} {tail : Bytes} (h : Fits rs tail) (rest : Bytes) :
    accepted rs (tail ++ rest) = rs.length := by
  induction h with
  | nil => simp [accepted]
  | cons hr _ ih => simp [accepted, hr, ih]

theorem fits_accepted {rs : List ByteRange} {bytes : Bytes} (h : accepted rs bytes = rs.length) :
    Fits rs (bytes.take rs.length) := by
  induction rs generalizing bytes with
  | nil => simp [Fits]
  | cons r rs ih =>
    cases bytes with
    | nil => simp [accepted] at h
    | cons b bs =>
      rw [accepted] at h
      split_ifs at h with hr
      exact .cons hr (ih (by simpa using h))

theorem encode_of_nextPiece {b : UInt8} {bs : Bytes} {c : Char}
    (h : (nextPiece b bs).1 = some c) :
    String.utf8EncodeChar c ++ bs.drop (nextPiece b bs).2 = b::bs := by
  rw [nextPiece] at h ⊢
  cases hf : followers b.toNat with
  | none => simp [hf] at h
  | some rs =>
    simp only [hf, Option.ite_none_right_eq_some, Option.some.injEq] at h ⊢
    obtain ⟨hfull, rfl⟩ := h
    rw [hfull, encode_assemble hf (fits_accepted hfull), List.cons_append, List.take_append_drop]

theorem nextPiece_encode (c : Char) : ∃ b tail, String.utf8EncodeChar c = b::tail ∧ Boundary b ∧
    ∀ rest, nextPiece b (tail ++ rest) = (some c, tail.length) := by
  obtain ⟨b, tail, rs, henc, hf, hfits, hcode⟩ := encode_shape c
  refine ⟨b, tail, henc, ?_, fun rest => ?_⟩
  · rw [followers] at hf
    rw [Boundary]
    split_ifs at hf <;> omega
  · have hlen : rs.length = tail.length := hfits.length_eq
    have hc : assemble b.toNat tail = c := by rw [assemble, hcode, Char.ofNat_toNat]
    simp [nextPiece, hf, accepted_fits hfits, hlen, hc]

theorem utf8Chunks_encode (c : Char) (rest : Bytes) :
    utf8Chunks (String.utf8EncodeChar c ++ rest) = some c :: utf8Chunks rest := by
  obtain ⟨b, tail, henc, _, hnext⟩ := nextPiece_encode c
  rw [henc, List.cons_append, utf8Chunks_cons, hnext]
  simp

theorem utf8Chunks_utf8 (text : Text) (rest : Bytes) :
    utf8Chunks (utf8 text ++ rest) = text.map some ++ utf8Chunks rest := by
  induction text with
  | nil => rfl
  | cons c cs ih =>
    rw [utf8_cons, List.append_assoc, utf8Chunks_encode, ih, List.map_cons, List.cons_append]

theorem utf8Chunks_around {text : Text} (h : text ≠ []) (left right : Bytes) :
    utf8Chunks (left ++ utf8 text ++ right) =
      utf8Chunks left ++ text.map some ++ utf8Chunks right := by
  cases text with
  | nil => exact absurd rfl h
  | cons c cs =>
    obtain ⟨b, tail, henc, hb, _⟩ := nextPiece_encode c
    have hsplit : utf8 (c::cs) ++ right = b::(tail ++ utf8 cs ++ right) := by simp [henc]
    rw [List.append_assoc, hsplit, utf8Chunks_boundary hb, ← hsplit, utf8Chunks_utf8,
      List.append_assoc]

theorem fromUtf8_utf8 (text : Text) : fromUtf8 (utf8 text) = some text := by
  have h := utf8Chunks_utf8 text []
  rw [List.append_nil, utf8Chunks_nil, List.append_nil] at h
  simp [fromUtf8, fromUtf8Lossy, h]

theorem fromUtf8Lossy_around {text : Text} (h : text ≠ []) (left right : Bytes) :
    fromUtf8Lossy (left ++ utf8 text ++ right) =
      fromUtf8Lossy left ++ text ++ fromUtf8Lossy right := by
  rw [fromUtf8Lossy, utf8Chunks_around h]
  simp [fromUtf8Lossy]

theorem split_of_chunks {bytes : Bytes} {xs ys : List (Option Char)}
    (h : utf8Chunks bytes = xs ++ ys) :
    ∃ left right, bytes = left ++ right ∧ utf8Chunks right = ys := by
  induction xs generalizing bytes with
  | nil => exact ⟨[], bytes, rfl, h⟩
  | cons x xs ih =>
    cases bytes with
    | nil => cases h
    | cons b bs =>
      rw [utf8Chunks_cons] at h
      obtain ⟨left, right, heq, hright⟩ := ih (List.cons.inj h).2
      refine ⟨b :: bs.take (nextPiece b bs).2 ++ left, right, ?_, hright⟩
      rw [List.append_assoc, ← heq, List.cons_append, List.take_append_drop]

theorem prefix_of_chunks {bytes : Bytes} {text : Text} {ys : List (Option Char)}
    (h : utf8Chunks bytes = text.map some ++ ys) : utf8 text <+: bytes := by
  induction text generalizing bytes with
  | nil => simp
  | cons c cs ih =>
    cases bytes with
    | nil => cases h
    | cons b bs =>
      rw [utf8Chunks_cons, List.map_cons, List.cons_append] at h
      obtain ⟨hc, hrest⟩ := List.cons.inj h
      rw [utf8_cons, ← encode_of_nextPiece hc, List.prefix_append_right_inj]
      exact ih hrest

theorem infix_of_chunks {bytes : Bytes} {text : Text} {xs ys : List (Option Char)}
    (h : utf8Chunks bytes = xs ++ text.map some ++ ys) : utf8 text <:+: bytes := by
  rw [List.append_assoc] at h
  obtain ⟨left, right, rfl, hright⟩ := split_of_chunks h
  exact (prefix_of_chunks hright).isInfix.trans (List.suffix_append left right).isInfix

theorem mem_chunks_iff {bytes : Bytes} {c : Char} :
    some c ∈ utf8Chunks bytes ↔ String.utf8EncodeChar c <:+: bytes := by
  constructor
  · intro h
    obtain ⟨xs, ys, heq⟩ := List.append_of_mem h
    have hc : utf8Chunks bytes = xs ++ [c].map some ++ ys := by simp [heq]
    simpa using infix_of_chunks hc
  · rintro ⟨left, right, rfl⟩
    have h := utf8Chunks_around (List.cons_ne_nil c []) left right
    simp only [utf8_cons, utf8_nil, List.append_nil] at h
    rw [h]
    simp

theorem utf8_of_chunks {bytes : Bytes} {text : Text} (h : utf8Chunks bytes = text.map some) :
    bytes = utf8 text := by
  obtain ⟨rest, rfl⟩ := prefix_of_chunks (h.trans (List.append_nil _).symm)
  rw [utf8Chunks_utf8, List.append_right_eq_self] at h
  cases rest with
  | nil => rw [List.append_nil]
  | cons b bs =>
    rw [utf8Chunks_cons] at h
    cases h

theorem fromUtf8_cut {left right : Bytes} {text before : Text} (h : left ++ right = utf8 text)
    (hleft : fromUtf8 left = some before) : left = utf8 before ∧ before <+: text := by
  rw [fromUtf8] at hleft
  split_ifs at hleft with hall
  obtain rfl := Option.some.inj hleft
  have hchunks : utf8Chunks left = (fromUtf8Lossy left).map some := by
    rw [fromUtf8Lossy, List.map_map]
    have hsome : ∀ piece ∈ utf8Chunks left, (some ∘ fun x => x.getD replacement) piece = piece := by
      intro piece hpiece
      cases piece with
      | none => exact absurd hpiece hall
      | some c => rfl
    rw [List.map_congr_left hsome, List.map_id']
  have hsame := utf8_of_chunks hchunks
  refine ⟨hsame, ?_⟩
  have hwhole := utf8Chunks_utf8 text []
  rw [List.append_nil, utf8Chunks_nil, List.append_nil, ← h] at hwhole
  conv_lhs at hwhole => rw [hsame, utf8Chunks_utf8]
  have hpre : (fromUtf8Lossy left).map some <+: text.map some := ⟨_, hwhole⟩
  exact (List.prefix_map_iff_of_injective (Option.some_injective Char)).mp hpre

end Decoding

end Foundation.LossyUtf8
