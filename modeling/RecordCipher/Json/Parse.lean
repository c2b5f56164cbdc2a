import RecordCipher.Json.Reader

/-!
# Reading whole JSON documents

## Main definitions

* `Json.parse`: the value of a document
-/

namespace RecordCipher

mutual

/-- A value and what is behind it. Every step takes a character and goes at most one level
down, so that twice the length of the text is fuel enough, for strings as well. -/
def readValue : (fuel : Nat) → List Char → Except JsonFault (Json × List Char)
  | 0, _ => .error .malformed
  | fuel + 1, chars =>
    match chars.dropWhile isJsonBlank with
    | [] => .error .ending
    | 'n' :: rest => (readLiteral ['u', 'l', 'l'] rest).map fun rest => (.null, rest)
    | 't' :: rest => (readLiteral ['r', 'u', 'e'] rest).map fun rest => (.bool true, rest)
    | 'f' :: rest => (readLiteral ['a', 'l', 's', 'e'] rest).map fun rest => (.bool false, rest)
    | '-' :: rest => (readNumber true rest).map fun (n, rest) => (.number n, rest)
    | '"' :: rest =>
      (stringUnits fuel rest).map fun (content, rest) => (.string (String.ofList content), rest)
    | '[' :: rest =>
      match rest.dropWhile isJsonBlank with
      | [] => .error .ending
      | ']' :: rest => .ok (.array [], rest)
      | rest => (readElements fuel rest).map fun (items, rest) => (.array items, rest)
    | '\x7b' :: rest =>
      match rest.dropWhile isJsonBlank with
      | [] => .error .ending
      | '\x7d' :: rest => .ok (.object [], rest)
      | rest => (readMembers fuel rest).map fun (members, rest) => (.ofMembers members, rest)
    | c :: rest =>
      if isDecimalDigit c then
        (readNumber false (c :: rest)).map fun (n, rest) => (.number n, rest)
      else .error .malformed

/-- The elements of an array and what is behind its closing bracket. -/
def readElements : (fuel : Nat) → List Char → Except JsonFault (List Json × List Char)
  | 0, _ => .error .malformed
  | fuel + 1, chars => do
    let (item, rest) ← readValue fuel chars
    match rest.dropWhile isJsonBlank with
    | [] => throw .ending
    | ',' :: rest =>
      let (others, rest) ← readElements fuel rest
      return (item :: others, rest)
    | ']' :: rest => return ([item], rest)
    | _ => throw .malformed

/-- The members of an object, as they come, and what is behind its closing brace. -/
def readMembers : (fuel : Nat) → List Char →
    Except JsonFault (List (String × Json) × List Char)
  | 0, _ => .error .malformed
  | fuel + 1, chars =>
    match chars.dropWhile isJsonBlank with
    | [] => .error .ending
    | '"' :: rest => do
      let (key, rest) ← stringUnits fuel rest
      match rest.dropWhile isJsonBlank with
      | [] => throw .ending
      | ':' :: rest =>
        let (value, rest) ← readValue fuel rest
        match rest.dropWhile isJsonBlank with
        | [] => throw .ending
        | ',' :: rest =>
          let (others, rest) ← readMembers fuel rest
          return ((String.ofList key, value) :: others, rest)
        | '\x7d' :: rest => return ([(String.ofList key, value)], rest)
        | _ => throw .malformed
      | _ => throw .malformed
    | _ => .error .malformed

end

/-- The value of a document. -/
def Json.parse (document : String) : Except JsonFault Json := do
  let chars := document.toList
  let (value, rest) ← readValue (2 * chars.length + 2) chars
  if (rest.dropWhile isJsonBlank).isEmpty then return value else throw .malformed

end RecordCipher
