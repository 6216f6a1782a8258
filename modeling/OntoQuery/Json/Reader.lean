import OntoQuery.Json

/-!
# Reading JSON documents

`Json.parse?` reads a document and answers `none` if it is malformed.  Strings
must not contain bare control characters or halves of a surrogate pair, numbers
have no leading zeros, and of two fields with one name the later one counts.

The reader walks over the characters of the document.  Of two calls in a row,
one inside the other, at least one consumes a character before, so twice the
length of the document bounds the nesting of calls, and the number of calls that
are left is passed along.
-/

namespace OntoQuery

namespace Json

namespace Reader

/-- A reader takes what it needs from the front of a text. -/
abbrev Read (α : Type) := List Char → Option (α × List Char)

/-- Drops blanks. -/
def skipBlanks (cs : List Char) : List Char :=
  cs.dropWhile fun c => c = ' ' ∨ c = '\n' ∨ c = '\r' ∨ c = '\t'

/-- Takes an expected text. -/
def expect (word : String) : Read Unit := fun cs =>
  if word.toList.isPrefixOf cs then some ((), cs.drop word.length) else none

/-- The value of a hexadecimal digit. -/
def hexDigit? (c : Char) : Option Nat :=
  if '0' ≤ c ∧ c ≤ '9' then some (c.toNat - '0'.toNat)
  else if 'a' ≤ c ∧ c ≤ 'f' then some (c.toNat - 'a'.toNat + 10)
  else if 'A' ≤ c ∧ c ≤ 'F' then some (c.toNat - 'A'.toNat + 10)
  else none

/-- Four hexadecimal digits. -/
def hex4 : Read Nat
  | a :: b :: c :: d :: cs => do
    let a ← hexDigit? a
    let b ← hexDigit? b
    let c ← hexDigit? c
    let d ← hexDigit? d
    some (((a * 16 + b) * 16 + c) * 16 + d, cs)
  | _ => none

/-- The code point after `\u`: one unit, or a pair of surrogates. -/
def codePoint : Read Char := fun cs => do
  let (hi, cs) ← hex4 cs
  if 0xD800 ≤ hi ∧ hi < 0xDC00 then
    let (_, cs) ← expect "\\u" cs
    let (lo, cs) ← hex4 cs
    if 0xDC00 ≤ lo ∧ lo < 0xE000 then
      some (Char.ofNat (0x10000 + (hi - 0xD800) * 0x400 + (lo - 0xDC00)), cs)
    else
      none
  else if 0xDC00 ≤ hi ∧ hi < 0xE000 then
    none
  else
    some (Char.ofNat hi, cs)

/-- The character after a backslash. -/
def escaped : Read Char
  | '"' :: cs => some ('"', cs)
  | '\\' :: cs => some ('\\', cs)
  | '/' :: cs => some ('/', cs)
  | 'b' :: cs => some ('\x08', cs)
  | 'f' :: cs => some ('\x0c', cs)
  | 'n' :: cs => some ('\n', cs)
  | 'r' :: cs => some ('\r', cs)
  | 't' :: cs => some ('\t', cs)
  | 'u' :: cs => codePoint cs
  | _ => none

/-- The rest of a string, after what has been read of it in reverse. -/
def stringRest : Nat → List Char → Read String
  | 0, _, _ => none
  | _ + 1, _, [] => none
  | n + 1, acc, c :: cs =>
    if c = '"' then
      some (String.ofList acc.reverse, cs)
    else if c = '\\' then
      (escaped cs).bind fun (e, cs) => stringRest n (e :: acc) cs
    else if c.toNat < 32 then
      none
    else
      stringRest n (c :: acc) cs

/-- A string. -/
def string : Read String := fun cs => do
  let (_, cs) ← expect "\"" cs
  stringRest (cs.length + 1) [] cs

/-- One or more decimal digits. -/
def digits : Read (List Char) := fun cs =>
  match cs.takeWhile Char.isDigit with
  | [] => none
  | ds => some (ds, cs.dropWhile Char.isDigit)

/-- A whole number without leading zeros. -/
def whole : Read (List Char)
  | '0' :: cs => some (['0'], cs)
  | cs => digits cs

/-- The fraction of a number, if it has one. -/
def fraction : Read (List Char)
  | '.' :: cs => (digits cs).map fun (ds, cs) => ('.' :: ds, cs)
  | cs => some ([], cs)

/-- The exponent of a number, if it has one. -/
def exponent : Read (List Char)
  | 'e' :: '+' :: cs | 'E' :: '+' :: cs =>
    (digits cs).map fun (ds, cs) => ('e' :: '+' :: ds, cs)
  | 'e' :: '-' :: cs | 'E' :: '-' :: cs =>
    (digits cs).map fun (ds, cs) => ('e' :: '-' :: ds, cs)
  | 'e' :: cs | 'E' :: cs => (digits cs).map fun (ds, cs) => ('e' :: ds, cs)
  | cs => some ([], cs)

/-- A number, kept by its digits. -/
def number : Read Json := fun cs => do
  let (sign, cs) := match cs with
    | '-' :: cs => (['-'], cs)
    | cs => ([], cs)
  let (ds, cs) ← whole cs
  let (fs, cs) ← fraction cs
  let (es, cs) ← exponent cs
  some (.number (String.ofList (sign ++ ds ++ fs ++ es)), cs)

/-- Of several fields with one name, only the last. -/
def lastFields : List (String × Json) → List (String × Json)
  | [] => []
  | f :: fs => if fs.any fun g => g.1 = f.1 then lastFields fs else f :: lastFields fs

mutual

/-- A value, after blanks. -/
def value : Nat → Read Json
  | 0, _ => none
  | n + 1, cs =>
    match skipBlanks cs with
    | [] => none
    | c :: cs =>
      if c = '[' then
        match skipBlanks cs with
        | ']' :: cs => some (.array [], cs)
        | cs => (items n cs).map fun (vs, cs) => (.array vs, cs)
      else if c = '\x7b' then
        match skipBlanks cs with
        | '\x7d' :: cs => some (.object [], cs)
        | cs => (fields n cs).map fun (fs, cs) => (.object (lastFields fs), cs)
      else if c = '"' then
        (string (c :: cs)).map fun (s, cs) => (.string s, cs)
      else if c = 'n' then
        (expect "ull" cs).map fun (_, cs) => (.null, cs)
      else if c = 't' then
        (expect "rue" cs).map fun (_, cs) => (.bool true, cs)
      else if c = 'f' then
        (expect "alse" cs).map fun (_, cs) => (.bool false, cs)
      else
        number (c :: cs)

/-- The items of an array that has some, up to its closing bracket. -/
def items : Nat → Read (List Json)
  | 0, _ => none
  | n + 1, cs => do
    let (v, cs) ← value n cs
    match skipBlanks cs with
    | ',' :: cs => (items n cs).map fun (vs, cs) => (v :: vs, cs)
    | ']' :: cs => some ([v], cs)
    | _ => none

/-- The fields of an object that has some, up to its closing brace. -/
def fields : Nat → Read (List (String × Json))
  | 0, _ => none
  | n + 1, cs => do
    let (name, cs) ← string (skipBlanks cs)
    let (_, cs) ← expect ":" (skipBlanks cs)
    let (v, cs) ← value n cs
    match skipBlanks cs with
    | ',' :: cs => (fields n cs).map fun (fs, cs) => ((name, v) :: fs, cs)
    | '\x7d' :: cs => some ([(name, v)], cs)
    | _ => none

end

end Reader

/-- Reads a document. -/
def parse? (s : String) : Option Json :=
  let cs := s.toList
  match Reader.value (2 * cs.length + 1) cs with
  | some (v, rest) => if (Reader.skipBlanks rest).isEmpty then some v else none
  | none => none

end Json

end OntoQuery
