/-!
# JSON documents

The values of JSON, with numbers kept as they are written, so that `3` and `3.0`
remain different.  A document is written without blanks.  Inside a string only
the quote, the backslash and the control characters are escaped.
-/

namespace OntoQuery

/-- A JSON value. -/
inductive Json where
  | null
  | bool (b : Bool)
  /-- A number, by its digits. -/
  | number (digits : String)
  | string (s : String)
  | array (items : List Json)
  /-- The fields of an object, each name once. -/
  | object (fields : List (String × Json))
  deriving Inhabited, Repr

namespace Json

/-- The number that a natural number is written as. -/
def nat (n : Nat) : Json := .number (toString n)

/-- The escaped form of a character inside a string. -/
def escape (c : Char) : String :=
  match c with
  | '"' => "\\\""
  | '\\' => "\\\\"
  | '\n' => "\\n"
  | '\r' => "\\r"
  | '\t' => "\\t"
  | '\x08' => "\\b"
  | '\x0c' => "\\f"
  | c =>
    if c.toNat < 32 then
      "\\u00" ++ String.ofList [Nat.digitChar (c.toNat / 16), Nat.digitChar (c.toNat % 16)]
    else
      String.singleton c

/-- A string between quotes. -/
def quote (s : String) : String :=
  s.foldl (fun out c => out ++ escape c) "\"" ++ "\""

mutual

/-- The document of a value, without blanks. -/
def text : Json → String
  | .null => "null"
  | .bool true => "true"
  | .bool false => "false"
  | .number digits => digits
  | .string s => quote s
  | .array items => "[" ++ String.intercalate "," (itemTexts items) ++ "]"
  | .object fields => "\x7b" ++ String.intercalate "," (fieldTexts fields) ++ "\x7d"

/-- The documents of the items of an array. -/
def itemTexts : List Json → List String
  | [] => []
  | v :: vs => text v :: itemTexts vs

/-- The documents of the fields of an object. -/
def fieldTexts : List (String × Json) → List String
  | [] => []
  | (name, v) :: fields => (quote name ++ ":" ++ text v) :: fieldTexts fields

end

/-- The value of a field of an object. -/
def field? (v : Json) (name : String) : Option Json :=
  match v with
  | .object fields => (fields.find? fun f => f.1 = name).map Prod.snd
  | _ => none

end Json

end OntoQuery
