import RecordCipher.Exchange.Leaf
import RecordCipher.Exchange.Service
import RecordCipher.Expression.Parser
import RecordCipher.Json.Fault
import RecordCipher.Tree.Access

/-!
# Settings

What a pipeline is told to do: which fields of which records to encrypt or decrypt.

## Main definitions

* `Mode`, `Filter`, `Settings`: the settings of a pipeline
* `PipelineError`: why a pipeline cannot be set up or fails on a record
* `Settings.validate`: whether settings are consistent
-/

namespace RecordCipher

/-- The direction of a pipeline. -/
inductive Mode where
  /-- Plaintexts become ciphertexts. -/
  | encrypt
  /-- Ciphertexts become plaintexts. -/
  | decrypt
  deriving Repr, DecidableEq

/-- The name of a mode. -/
def Mode.name : Mode → String
  | encrypt => "encrypt"
  | decrypt => "decrypt"

/-- The name of an encoding. -/
def Encoding.name : Encoding → String
  | string => "string"
  | binary => "binary"

/-- Which records are meant: those with a value at `field` whose text is `equals`. -/
structure Filter where
  /-- The expression of the field. -/
  field : String
  /-- The text of the value. -/
  equals : String
  deriving Repr, DecidableEq

/-- The settings of a pipeline. -/
structure Settings where
  /-- The expressions of the fields, in the order in which they are written back. -/
  fields : List String
  /-- The direction. -/
  mode : Mode
  /-- How items are put back. -/
  encoding : Encoding := .string
  /-- Which records are meant; all of them when nothing is said. -/
  filter : Option Filter := none
  /-- The limits on expressions, if they are not the usual ones. -/
  limits : Option Limits := none
  /-- The number of worker threads, if one is asked for. -/
  threads : Option Nat := none
  deriving Repr, DecidableEq

/-- Why settings are inconsistent. -/
inductive SettingsError where
  /-- No field to work on. -/
  | noFields
  /-- No thread to work with. -/
  | noThreads
  /-- Limits beyond the hard maximum. -/
  | limits (e : LimitsError)
  deriving Repr, DecidableEq

/-- The text of an inconsistency. -/
def SettingsError.message : SettingsError → String
  | noFields => "at least one field expression is required"
  | noThreads => "threads must be greater than zero"
  | limits e => e.message

/-- Why a pipeline cannot be set up or fails on a record. -/
inductive PipelineError where
  /-- An expression is malformed. -/
  | expression (e : ParseError)
  /-- An expression cannot be followed in the record. -/
  | resolution (e : ResolutionError)
  /-- The cipher service failed. -/
  | service (e : ServiceError)
  /-- A selected value is no leaf. -/
  | unsupportedValue (path : String) (found : String)
  /-- The settings are inconsistent. -/
  | settings (e : SettingsError)
  /-- The document of the settings is refused. -/
  | document (fault : JsonFault)
  deriving Repr, DecidableEq

namespace PipelineError

/-- Whether it makes sense to try the record again. -/
def isRetriable : PipelineError → Bool
  | service e => e.isRetriable
  | _ => false

/-- The text of a failure, except for a document that ends too early or is malformed. -/
def message? : PipelineError → Option String
  | expression e => some e.message
  | resolution e => some e.message
  | service e => some e.message
  | unsupportedValue path found =>
    some ("Cannot transform field '" ++ path ++ "': found " ++ found ++
      ".\n\nOnly string and bytes values can be encrypted or decrypted.\n" ++
      "Narrow the path expression so it selects leaf text or binary fields.")
  | settings e => some ("Invalid transform configuration: " ++ e.message)
  | document (.data fault) => some fault.message
  | document _ => none

end PipelineError

namespace Settings

/-- The limits on expressions. -/
def effectiveLimits (s : Settings) : Limits := s.limits.getD {}

/-- Checks that every text is an expression within limits, one after another. -/
def checkExpressions (limits : Limits) : List String → Except ParseError Unit
  | [] => .ok ()
  | text :: rest =>
    match Expression.parseWithin limits text with
    | .ok _ => checkExpressions limits rest
    | .error e => .error e

/-- Checks settings: fields and threads, the limits, and then every expression, the one of the
filter last. -/
def validate (s : Settings) : Except PipelineError Unit :=
  if s.fields.isEmpty then .error (.settings .noFields)
  else if s.threads = some 0 then .error (.settings .noThreads)
  else
    match s.effectiveLimits.validate with
    | .error e => .error (.settings (.limits e))
    | .ok () =>
      (checkExpressions s.effectiveLimits
        (s.fields ++ (s.filter.map Filter.field).toList)).mapError .expression

end Settings

end RecordCipher
