import RecordCipher.Text.Base64

/-!
# Items

An item is what is handed to the cipher service and what it hands back: a text or bytes. Each
can be looked at as the other.

## Main definitions

* `Item`: texts and byte strings
* `Item.asText`, `Item.asBytes`, `Item.asBase64`: the views of an item
-/

namespace RecordCipher

/-- A plaintext or a ciphertext. -/
inductive Item where
  /-- A text. -/
  | text (s : String)
  /-- A byte string. -/
  | bytes (raw : Bytes)
  deriving Repr, DecidableEq

namespace Item

/-- The bytes of a Base64 text. -/
def ofBase64 (text : String) : Except Base64Error Item :=
  (decodeBase64 text).map .bytes

/-- The item as a text; bytes that are not UTF-8 are replaced. -/
def asText : Item → String
  | text s => s
  | bytes raw => decodeUtf8 raw

/-- The item as bytes. -/
def asBytes : Item → Bytes
  | text s => utf8 s
  | bytes raw => raw

/-- The item as Base64. -/
def asBase64 (item : Item) : String := encodeBase64 item.asBytes

/-- The number of bytes of an item. -/
def length (item : Item) : Nat := item.asBytes.length

/-- Whether an item has no bytes. -/
def isEmpty (item : Item) : Bool := item.length == 0

/-- The text that stands for an item in messages. -/
def display : Item → String
  | text s => "Text(" ++ s ++ ")"
  | bytes raw => "Bytes(" ++ toString raw.length ++ " bytes)"

end Item

end RecordCipher
