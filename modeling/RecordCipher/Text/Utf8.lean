/-!
# UTF-8

Texts are encoded character by character. Decoding never fails: what is not the encoding of a
character is replaced, one replacement character for each maximal run of bytes that began as a
character and could not go on. Decoding is a machine that holds the character it is in the
middle of and is fed one byte at a time, so that a byte that breaks a character off is looked
at again as the start of the next one.

## Main definitions

* `Bytes`: byte strings
* `utf8`, `utf8Length`: the encoding of a text and its length
* `decodeUtf8`: the lossy decoding of bytes
-/

namespace RecordCipher

/-- A byte string. -/
abbrev Bytes := List UInt8

/-- The encoding of a text. -/
def utf8 (text : String) : Bytes :=
  text.toList.flatMap String.utf8EncodeChar

/-- The number of bytes a list of characters is encoded in. -/
def byteLength (chars : List Char) : Nat :=
  chars.foldr (fun c length => c.utf8Size + length) 0

/-- The number of bytes a text is encoded in. -/
def utf8Length (text : String) : Nat :=
  byteLength text.toList

/-- The character that stands for bytes that are not the encoding of any. -/
def replacement : Char := '\uFFFD'

/-- A character begun: the bits read so far, the number of bytes still to come, and the bounds
of the next byte. -/
structure Partial where
  /-- The bits read so far. -/
  bits : Nat
  /-- The number of bytes still to come. -/
  missing : Nat
  /-- The least next byte. -/
  least : Nat
  /-- The greatest next byte. -/
  greatest : Nat
  deriving Repr, DecidableEq

/-- What a byte begins: a whole character, a longer one, or nothing. The bounds of the second
byte leave out overlong encodings, the surrogates, and what lies above the last code point. -/
inductive Lead where
  /-- A character of one byte. -/
  | char (c : Char)
  /-- A character of several bytes. -/
  | more (p : Partial)
  /-- No character. -/
  | invalid
  deriving Repr, DecidableEq

/-- What a byte begins when no character is under way. -/
def lead (b : Nat) : Lead :=
  if b < 0x80 then .char (Char.ofNat b)
  else if b < 0xC2 then .invalid
  else if b < 0xE0 then .more ⟨b - 0xC0, 1, 0x80, 0xBF⟩
  else if b = 0xE0 then .more ⟨0, 2, 0xA0, 0xBF⟩
  else if b = 0xED then .more ⟨0xD, 2, 0x80, 0x9F⟩
  else if b < 0xF0 then .more ⟨b - 0xE0, 2, 0x80, 0xBF⟩
  else if b = 0xF0 then .more ⟨0, 3, 0x90, 0xBF⟩
  else if b < 0xF4 then .more ⟨b - 0xF0, 3, 0x80, 0xBF⟩
  else if b = 0xF4 then .more ⟨4, 3, 0x80, 0x8F⟩
  else .invalid

/-- The characters completed by a byte when none is under way, and the one it begins. -/
def feedFresh (b : Nat) : List Char × Option Partial :=
  match lead b with
  | .char c => ([c], none)
  | .more p => ([], some p)
  | .invalid => ([replacement], none)

/-- The characters completed by a byte, and the character under way after it. -/
def feedByte (pending : Option Partial) (b : Nat) : List Char × Option Partial :=
  match pending with
  | none => feedFresh b
  | some p =>
    if p.least ≤ b ∧ b ≤ p.greatest then
      let bits := p.bits * 64 + (b - 0x80)
      match p.missing with
      | 0 | 1 => ([Char.ofNat bits], none)
      | left + 1 => ([], some ⟨bits, left, 0x80, 0xBF⟩)
    else
      let (done, next) := feedFresh b
      (replacement :: done, next)

/-- The characters of a byte string, after the character under way. -/
def decodeFrom : Option Partial → Bytes → List Char
  | none, [] => []
  | some _, [] => [replacement]
  | pending, b :: rest =>
    let (done, next) := feedByte pending b.toNat
    done ++ decodeFrom next rest

/-- The text of a byte string; what is not UTF-8 is replaced. -/
def decodeUtf8 (raw : Bytes) : String :=
  String.ofList (decodeFrom none raw)

end RecordCipher
