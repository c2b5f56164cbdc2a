import Mathlib.Tactic.SplitIfs
import RecordCipher.Exchange.Leaf

/-!
# Texts as bytes

The sequences of bytes that stand for characters are those that the Unicode standard tabulates: a
byte that says how many follow it, and as many bytes of six bits each. The bounds on the second
byte leave out what could be written in fewer bytes, the surrogates, and what is beyond the last
code point. A byte string is well formed when it is made of such sequences, and this is when it is
the encoding of a text. Decoding undoes encoding, so that the byte strings that survive being looked
at as a text are the well-formed ones.

## Main definitions

* `Utf8Sequence`: the bytes of one code point
* `WellFormedUtf8`: bytes that are sequences, one after the other

## Main results

* `Utf8Sequence.decodeFrom_append`: a sequence is decoded to its character, whatever is behind it
* `Utf8Sequence.utf8EncodeChar_eq`, `utf8Sequence_utf8EncodeChar`: the sequences are the encodings
  of characters
* `decodeUtf8_utf8`: decoding undoes encoding
* `wellFormedUtf8_iff`: the well-formed byte strings are the encodings of texts
* `Item.text_alike_bytes`: a text and its bytes are the same item for every purpose
-/

namespace RecordCipher

/-- A byte behind the first one of a sequence. -/
def IsTail (b : UInt8) : Prop := 0x80 ≤ b.toNat ∧ b.toNat ≤ 0xBF

/-- The bytes of a code point. -/
inductive Utf8Sequence : Bytes → Nat → Prop where
  /-- Seven bits in one byte. -/
  | one {a : UInt8} (lead : a.toNat < 0x80) : Utf8Sequence [a] a.toNat
  /-- Eleven bits in two bytes. Leads below `C2` would make code points of seven bits. -/
  | two {a b : UInt8} (lead : 0xC2 ≤ a.toNat ∧ a.toNat < 0xE0) (second : IsTail b) :
    Utf8Sequence [a, b] ((a.toNat - 0xC0) * 64 + (b.toNat - 0x80))
  /-- Sixteen bits in three bytes. Behind `E0` eleven bits are left out, behind `ED` surrogates. -/
  | three {a b c : UInt8} (lead : 0xE0 ≤ a.toNat ∧ a.toNat < 0xF0) (second : IsTail b)
    (long : a.toNat = 0xE0 → 0xA0 ≤ b.toNat) (scalar : a.toNat = 0xED → b.toNat ≤ 0x9F)
    (third : IsTail c) :
    Utf8Sequence [a, b, c]
      (((a.toNat - 0xE0) * 64 + (b.toNat - 0x80)) * 64 + (c.toNat - 0x80))
  /-- Up to twenty-one bits in four bytes. Behind `F0` sixteen bits are left out, behind `F4` what
  is beyond the last code point. -/
  | four {a b c d : UInt8} (lead : 0xF0 ≤ a.toNat ∧ a.toNat ≤ 0xF4) (second : IsTail b)
    (long : a.toNat = 0xF0 → 0x90 ≤ b.toNat) (range : a.toNat = 0xF4 → b.toNat ≤ 0x8F)
    (third : IsTail c) (fourth : IsTail d) :
    Utf8Sequence [a, b, c, d]
      ((((a.toNat - 0xF0) * 64 + (b.toNat - 0x80)) * 64 + (c.toNat - 0x80)) * 64 +
        (d.toNat - 0x80))

/-- Bytes that are sequences, one after the other. -/
inductive WellFormedUtf8 : Bytes → Prop where
  /-- No bytes. -/
  | nil : WellFormedUtf8 []
  /-- A sequence before well-formed bytes. -/
  | cons {sequence rest : Bytes} {code : Nat} (first : Utf8Sequence sequence code)
    (others : WellFormedUtf8 rest) : WellFormedUtf8 (sequence ++ rest)

/-! ## Sequences and characters -/

theorem lead_two {a : Nat} (h : 0xC2 ≤ a ∧ a < 0xE0) :
    lead a = .more ⟨a - 0xC0, 1, 0x80, 0xBF⟩ := by
  rw [lead, if_neg (by omega), if_neg (by omega), if_pos h.2]

theorem lead_three {a : Nat} (h : 0xE0 ≤ a ∧ a < 0xF0) :
    lead a = .more ⟨a - 0xE0, 2, if a = 0xE0 then 0xA0 else 0x80,
      if a = 0xED then 0x9F else 0xBF⟩ := by
  rw [lead, if_neg (by omega), if_neg (by omega), if_neg (by omega)]
  by_cases first : a = 0xE0
  · simp [first]
  · by_cases surrogate : a = 0xED
    · simp [surrogate]
    · simp [first, surrogate, h.2]

theorem lead_four {a : Nat} (h : 0xF0 ≤ a ∧ a ≤ 0xF4) :
    lead a = .more ⟨a - 0xF0, 3, if a = 0xF0 then 0x90 else 0x80,
      if a = 0xF4 then 0x8F else 0xBF⟩ := by
  rw [lead, if_neg (by omega), if_neg (by omega), if_neg (by omega), if_neg (by omega),
    if_neg (by omega), if_neg (by omega)]
  by_cases first : a = 0xF0
  · simp [first]
  · by_cases last : a = 0xF4
    · simp [last]
    · simp [first, last, show a < 0xF4 by omega]

/-- A byte within the bounds goes on with the character under way. -/
theorem decodeFrom_more_cons {bits left least greatest : Nat} {b : UInt8}
    (h : least ≤ b.toNat ∧ b.toNat ≤ greatest) (rest : Bytes) :
    decodeFrom (some ⟨bits, left + 2, least, greatest⟩) (b :: rest) =
      decodeFrom (some ⟨bits * 64 + (b.toNat - 0x80), left + 1, 0x80, 0xBF⟩) rest := by
  simp [decodeFrom, feedByte, h]

/-- The last byte completes the character under way. -/
theorem decodeFrom_last_cons {bits least greatest : Nat} {b : UInt8}
    (h : least ≤ b.toNat ∧ b.toNat ≤ greatest) (rest : Bytes) :
    decodeFrom (some ⟨bits, 1, least, greatest⟩) (b :: rest) =
      Char.ofNat (bits * 64 + (b.toNat - 0x80)) :: decodeFrom none rest := by
  simp [decodeFrom, feedByte, h]

theorem decodeFrom_lead_cons {a : UInt8} {p : Partial} (h : lead a.toNat = .more p)
    (rest : Bytes) : decodeFrom none (a :: rest) = decodeFrom (some p) rest := by
  simp [decodeFrom, feedByte, feedFresh, h]

/-- A sequence is decoded to the character of its code point, whatever is behind it. -/
theorem Utf8Sequence.decodeFrom_append {sequence : Bytes} {code : Nat}
    (h : Utf8Sequence sequence code) (rest : Bytes) :
    decodeFrom none (sequence ++ rest) = Char.ofNat code :: decodeFrom none rest := by
  cases h with
  | one ha => simp [decodeFrom, feedByte, feedFresh, lead, ha]
  | two ha hb =>
    rw [List.cons_append, decodeFrom_lead_cons (lead_two ha)]
    exact decodeFrom_last_cons hb _
  | @three a b c ha hb hlong hscalar hc =>
    have hsecond : (if a.toNat = 0xE0 then 0xA0 else 0x80) ≤ b.toNat ∧
        b.toNat ≤ if a.toNat = 0xED then 0x9F else 0xBF := by
      unfold IsTail at hb
      split <;> split <;> omega
    rw [List.cons_append, decodeFrom_lead_cons (lead_three ha), List.cons_append,
      decodeFrom_more_cons hsecond]
    exact decodeFrom_last_cons hc _
  | @four a b c d ha hb hlong hrange hc hd =>
    have hsecond : (if a.toNat = 0xF0 then 0x90 else 0x80) ≤ b.toNat ∧
        b.toNat ≤ if a.toNat = 0xF4 then 0x8F else 0xBF := by
      unfold IsTail at hb
      split <;> split <;> omega
    rw [List.cons_append, decodeFrom_lead_cons (lead_four ha), List.cons_append,
      decodeFrom_more_cons hsecond, List.cons_append, decodeFrom_more_cons hc]
    exact decodeFrom_last_cons hd _

theorem toNat_byte {n : Nat} (h : n < 256) : (UInt8.ofNat n).toNat = n :=
  UInt8.toNat_ofNat_of_lt' h

theorem toNat_tail (n : Nat) : (UInt8.ofNat (n % 64 + 128)).toNat = n % 64 + 128 :=
  toNat_byte (by omega)

theorem isTail_tail (n : Nat) : IsTail (UInt8.ofNat (n % 64 + 128)) := by
  rw [IsTail, toNat_tail]
  omega

/-- The encoding of a character is a sequence of its code point. -/
theorem utf8Sequence_utf8EncodeChar (c : Char) :
    Utf8Sequence (String.utf8EncodeChar c) c.toNat := by
  have hvalid : c.toNat < 0xD800 ∨ 0xDFFF < c.toNat ∧ c.toNat < 0x110000 := c.valid
  have hcode : c.val.toNat = c.toNat := rfl
  unfold String.utf8EncodeChar
  rw [hcode]
  generalize c.toNat = n at hvalid
  simp only
  -- what the bytes stand for is put together again from the parts of the code point
  split_ifs with h₁ h₂ h₃
  · have ha : (UInt8.ofNat n).toNat = n := toNat_byte (by omega)
    have h := Utf8Sequence.one (a := UInt8.ofNat n) (by omega)
    rwa [ha] at h
  · have ha : (UInt8.ofNat (n / 64 % 32 + 192)).toNat = n / 64 % 32 + 192 :=
      toNat_byte (by omega)
    have h := Utf8Sequence.two (a := UInt8.ofNat (n / 64 % 32 + 192)) (by omega) (isTail_tail n)
    have hn : (n / 64 % 32 + 192 - 0xC0) * 64 + (n % 64 + 128 - 0x80) = n := by omega
    rwa [ha, toNat_tail, hn] at h
  · have ha : (UInt8.ofNat (n / 4096 % 16 + 224)).toNat = n / 4096 % 16 + 224 :=
      toNat_byte (by omega)
    have hb := toNat_tail (n / 64)
    have h := Utf8Sequence.three (a := UInt8.ofNat (n / 4096 % 16 + 224)) (by omega)
      (isTail_tail (n / 64)) (by omega) (by omega) (isTail_tail n)
    have hn : ((n / 4096 % 16 + 224 - 0xE0) * 64 + (n / 64 % 64 + 128 - 0x80)) * 64 +
        (n % 64 + 128 - 0x80) = n := by omega
    rwa [ha, hb, toNat_tail, hn] at h
  · have ha : (UInt8.ofNat (n / 262144 % 8 + 240)).toNat = n / 262144 % 8 + 240 :=
      toNat_byte (by omega)
    have hb := toNat_tail (n / 4096)
    have hc := toNat_tail (n / 64)
    have h := Utf8Sequence.four (a := UInt8.ofNat (n / 262144 % 8 + 240)) (by omega)
      (isTail_tail (n / 4096)) (by omega) (by omega) (isTail_tail (n / 64)) (isTail_tail n)
    have hn : (((n / 262144 % 8 + 240 - 0xF0) * 64 + (n / 4096 % 64 + 128 - 0x80)) * 64 +
        (n / 64 % 64 + 128 - 0x80)) * 64 + (n % 64 + 128 - 0x80) = n := by omega
    rwa [ha, hb, hc, toNat_tail, hn] at h

/-- Sequences stand for characters: no surrogate, and nothing beyond the last code point. -/
theorem Utf8Sequence.isValidChar {sequence : Bytes} {code : Nat} (h : Utf8Sequence sequence code) :
    code.isValidChar := by
  unfold Nat.isValidChar
  cases h with
  | one ha => omega
  | two ha hb =>
    unfold IsTail at hb
    omega
  | three ha hb hlong hscalar hc =>
    unfold IsTail at hb hc
    omega
  | four ha hb hlong hrange hc hd =>
    unfold IsTail at hb hc hd
    omega

/-- A sequence of a code point is the encoding of its character. -/
theorem Utf8Sequence.utf8EncodeChar_eq {sequence : Bytes} {code : Nat}
    (h : Utf8Sequence sequence code) : String.utf8EncodeChar (Char.ofNat code) = sequence := by
  have hcode : (Char.ofNat code).val.toNat = code := by
    have hvalid := h.isValidChar
    rw [Char.ofNat, dif_pos hvalid]
    rfl
  have byte : ∀ {n : Nat} {a : UInt8}, n = a.toNat → UInt8.ofNat n = a := by
    rintro n a rfl
    exact UInt8.ofNat_toNat
  unfold String.utf8EncodeChar
  simp only [hcode]
  cases h with
  | one ha => rw [if_pos (by omega), byte rfl]
  | @two a b ha hb =>
    unfold IsTail at hb
    rw [if_neg (by omega), if_pos (by omega), byte (a := a) (by omega), byte (a := b) (by omega)]
  | @three a b c ha hb hlong hscalar hc =>
    unfold IsTail at hb hc
    rw [if_neg (by omega), if_neg (by omega), if_pos (by omega), byte (a := a) (by omega),
      byte (a := b) (by omega), byte (a := c) (by omega)]
  | @four a b c d ha hb hlong hrange hc hd =>
    unfold IsTail at hb hc hd
    rw [if_neg (by omega), if_neg (by omega), if_neg (by omega), byte (a := a) (by omega),
      byte (a := b) (by omega), byte (a := c) (by omega), byte (a := d) (by omega)]

/-! ## Texts -/

/-- Decoding undoes encoding. -/
@[simp] theorem decodeUtf8_utf8 (s : String) : decodeUtf8 (utf8 s) = s := by
  have decoded : ∀ chars : List Char,
      decodeFrom none (chars.flatMap String.utf8EncodeChar) = chars := by
    intro chars
    induction chars with
    | nil => rfl
    | cons c rest ih =>
      rw [List.flatMap_cons, (utf8Sequence_utf8EncodeChar c).decodeFrom_append, ih,
        Char.ofNat_toNat]
  rw [decodeUtf8, utf8, decoded, String.ofList_toList]

/-- The well-formed byte strings are the encodings of texts. -/
theorem wellFormedUtf8_iff {raw : Bytes} : WellFormedUtf8 raw ↔ ∃ s, utf8 s = raw := by
  constructor
  · intro h
    induction h with
    | nil => exact ⟨"", rfl⟩
    | @cons sequence rest code first _ ih =>
      obtain ⟨s, rfl⟩ := ih
      refine ⟨String.ofList (Char.ofNat code :: s.toList), ?_⟩
      rw [utf8, String.toList_ofList, List.flatMap_cons, first.utf8EncodeChar_eq, utf8]
  · rintro ⟨s, rfl⟩
    unfold utf8
    induction s.toList with
    | nil => exact .nil
    | cons c rest ih => exact .cons (utf8Sequence_utf8EncodeChar c) ih

/-- A byte string is that of the text it is decoded to if and only if it is well formed. -/
theorem utf8_decodeUtf8_eq_iff {raw : Bytes} :
    utf8 (decodeUtf8 raw) = raw ↔ WellFormedUtf8 raw := by
  rw [wellFormedUtf8_iff]
  constructor
  · intro h
    exact ⟨_, h⟩
  · rintro ⟨s, rfl⟩
    rw [decodeUtf8_utf8]

theorem length_utf8 (s : String) : (utf8 s).length = utf8Length s := by
  rw [utf8, utf8Length]
  induction s.toList with
  | nil => rfl
  | cons c rest ih =>
    rw [List.flatMap_cons, List.length_append, ih, String.length_utf8EncodeChar]
    rfl

/-! ## Items -/

/-- A text and its bytes are the same item for every purpose: they are the same text, the same
bytes, the same Base64 text, and of the same length, that of the text in bytes; and they become the
same leaf, in both flavors and however items are put back. A byte string is the bytes of the text it
can be looked at as if and only if it is well formed. -/
theorem Item.text_alike_bytes :
    (∀ s : String,
      (bytes (utf8 s)).asText = (text s).asText ∧
      (bytes (utf8 s)).asBytes = (text s).asBytes ∧
      (bytes (utf8 s)).asBase64 = (text s).asBase64 ∧
      (bytes (utf8 s)).length = (text s).length ∧ (text s).length = utf8Length s ∧
      (bytes (utf8 s)).isEmpty = (text s).isEmpty ∧
      ∀ encoding : Encoding,
        (Leaf.ofItem encoding (bytes (utf8 s)) : Json) = Leaf.ofItem encoding (text s) ∧
        (Leaf.ofItem encoding (bytes (utf8 s)) : Datum) = Leaf.ofItem encoding (text s)) ∧
    ∀ raw : Bytes, utf8 (bytes raw).asText = raw ↔ WellFormedUtf8 raw := by
  refine ⟨fun s => ?_, fun raw => utf8_decodeUtf8_eq_iff⟩
  have htext : (bytes (utf8 s)).asText = (text s).asText := decodeUtf8_utf8 s
  refine ⟨htext, rfl, rfl, rfl, length_utf8 s, rfl, fun encoding => ?_⟩
  -- as a string it is the text that is put back, in binary it is the bytes or their Base64 text
  cases encoding with
  | string => exact ⟨congrArg Json.string htext, congrArg (Datum.scalar ∘ Scalar.string) htext⟩
  | binary => exact ⟨rfl, rfl⟩

end RecordCipher
