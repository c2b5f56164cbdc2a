import RecordCipher.Exchange.Item
import RecordCipher.Json.Render
import RecordCipher.Json.Tree
import RecordCipher.Record.Tree

/-!
# Leaves

A leaf is a node that can be exchanged with the cipher service: a text, or bytes where the
flavor has them.

## Main definitions

* `Encoding`: whether items are put back as texts or as bytes
* `Leaf`: what a flavor of records needs to take part in the exchange
-/

namespace RecordCipher

/-- How items are put back into records. -/
inductive Encoding where
  /-- As texts. -/
  | string
  /-- As bytes, or their Base64 text where the flavor has no bytes. -/
  | binary
  deriving Repr, DecidableEq

/-- What a flavor of records needs to take part in the exchange. -/
class Leaf (α : Type) extends Tree α where
  /-- The item that a node is, if it is a leaf. -/
  toItem? : α → Option Item
  /-- The leaf that an item becomes. -/
  ofItem : Encoding → Item → α
  /-- The text of a node that conditions compare. -/
  render : α → String

namespace Json

/-- The item of a string. -/
def toItem? : Json → Option Item
  | string s => some (.text s)
  | _ => none

/-- The string that an item becomes. -/
def ofItem (encoding : Encoding) (item : Item) : Json :=
  match encoding with
  | .string => string item.asText
  | .binary => string item.asBase64

/-- A string as it is, and every other value as a document. -/
def plainText : Json → String
  | string s => s
  | other => other.render

end Json

instance : Leaf Json where
  toItem? := Json.toItem?
  ofItem := Json.ofItem
  render := Json.plainText

namespace Datum

/-- The item of a string or of bytes. -/
def toItem? : Datum → Option Item
  | scalar (.string s) => some (.text s)
  | scalar (.bytes raw) => some (.bytes raw)
  | _ => none

/-- The string or the bytes that an item becomes. -/
def ofItem (encoding : Encoding) (item : Item) : Datum :=
  match encoding with
  | .string => scalar (.string item.asText)
  | .binary => scalar (.bytes item.asBytes)

end Datum

instance : Leaf Datum where
  toItem? := Datum.toItem?
  ofItem := Datum.ofItem
  render := Datum.display

end RecordCipher
