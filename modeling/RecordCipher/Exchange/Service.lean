import RecordCipher.Data.SortedMap
import RecordCipher.Exchange.Item

/-!
# The cipher service

The values selected in one record are handed to a service in one batch, each under a key that
says where it came from, and are expected back under the same keys. What the service does
happens in a monad of its own choice.

## Main definitions

* `FieldKey`: where a value came from
* `ServiceError`: why a service fails
* `Service`: the operations of a service
-/

namespace RecordCipher

/-- Where a value came from: the expression that selected it and its location. -/
structure FieldKey where
  /-- The text of the expression. -/
  expression : String
  /-- The text of the location. -/
  path : String
  deriving Repr, DecidableEq

namespace FieldKey

/-- The text of a key. -/
def display (key : FieldKey) : String := key.expression ++ " @ " ++ key.path

/-- Keys are ordered by their expressions, and then by their locations. -/
def order : FieldKey → FieldKey → Ordering :=
  compareLex (compareOn (·.expression)) (compareOn (·.path))

instance : Ord FieldKey := ⟨order⟩

instance : Std.TransOrd FieldKey :=
  inferInstanceAs (Std.TransCmp (compareLex (compareOn (fun key : FieldKey => key.expression))
    (compareOn (fun key => key.path))))

end FieldKey

/-- Items under the keys that say where they came from. -/
abbrev ItemMap := SortedMap FieldKey Item

/-- Why a service fails. -/
inductive ServiceError where
  /-- The service itself failed; the same request may succeed later. -/
  | server (description : String)
  /-- The service refuses the request. -/
  | client (description : String)
  deriving Repr, DecidableEq

namespace ServiceError

/-- The text of a failure. -/
def message : ServiceError → String
  | server description => "Crypto service server error: " ++ description
  | client description => "Crypto service client error: " ++ description

/-- Whether it makes sense to try again. -/
def isRetriable : ServiceError → Bool
  | server _ => true
  | client _ => false

end ServiceError

/-- A cipher service. Keys missing from its answer leave their values as they are. -/
structure Service (m : Type → Type) where
  /-- The name of the service. -/
  name : String
  /-- Encrypts or decrypts a batch of items. -/
  process : ItemMap → m (Except ServiceError ItemMap)
  /-- Called once, before the first batch. -/
  start : m (Except ServiceError Unit)
  /-- Called once, after the last batch. -/
  stop : m Unit

/-- The service that only processes batches: it has the usual name, and starts and stops
without doing anything. -/
def Service.plain {m : Type → Type} [Monad m]
    (process : ItemMap → m (Except ServiceError ItemMap)) : Service m where
  name := "crypto-service"
  process := process
  start := pure (.ok ())
  stop := pure ()

end RecordCipher
