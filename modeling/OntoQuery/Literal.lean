/-!
# Literals

A literal is a constant with a lexical form.  It either carries a datatype or is
tagged with a language, and then its datatype is always `Datatype.literal`.

* `Literal.text` writes the lexical form between quotes, followed by `@` and the
  language, or by `^^` and the datatype, which is left out for plain strings.
  Nothing inside the lexical form is escaped.
* `Literal.compare` orders literals by lexical form, then datatype, then
  language, a missing language first.
-/

namespace OntoQuery

/-- The datatypes of literals. -/
inductive Datatype where
  | literal | string | integer | decimal | double | boolean | dateTime
  deriving DecidableEq, Repr

namespace Datatype

/-- A literal of no particular type. -/
instance : Inhabited Datatype := ⟨.literal⟩

/-- All datatypes, in their order. -/
def all : List Datatype :=
  [.literal, .string, .integer, .decimal, .double, .boolean, .dateTime]

/-- The iri that names a datatype. -/
def iri : Datatype → String
  | .literal => "http://www.w3.org/2000/01/rdf-schema#Literal"
  | .string => "http://www.w3.org/2001/XMLSchema#string"
  | .integer => "http://www.w3.org/2001/XMLSchema#integer"
  | .decimal => "http://www.w3.org/2001/XMLSchema#decimal"
  | .double => "http://www.w3.org/2001/XMLSchema#double"
  | .boolean => "http://www.w3.org/2001/XMLSchema#boolean"
  | .dateTime => "http://www.w3.org/2001/XMLSchema#dateTime"

/-- The datatype that an iri names. -/
def ofIri? (iri : String) : Option Datatype :=
  all.find? fun d => d.iri = iri

/-- The position of a datatype in the order of datatypes. -/
def rank : Datatype → Nat
  | .literal => 0
  | .string => 1
  | .integer => 2
  | .decimal => 3
  | .double => 4
  | .boolean => 5
  | .dateTime => 6

/-- Datatypes are ordered as they are declared. -/
def compare (d e : Datatype) : Ordering := Ord.compare d.rank e.rank

instance : Ord Datatype := ⟨Datatype.compare⟩

end Datatype

/-- A constant with a lexical form. -/
inductive Literal where
  /-- A lexical form of a datatype. -/
  | typed (lexical : String) (datatype : Datatype)
  /-- A text in a language. -/
  | tagged (lexical : String) (language : String)
  deriving DecidableEq, Inhabited, Repr

namespace Literal

/-- The lexical form. -/
def lexical : Literal → String
  | typed lex _ => lex
  | tagged lex _ => lex

/-- The datatype, which is `Datatype.literal` for a text in a language. -/
def datatype : Literal → Datatype
  | typed _ d => d
  | tagged _ _ => .literal

/-- The language tag, if there is one. -/
def language? : Literal → Option String
  | typed _ _ => none
  | tagged _ lang => some lang

/-- A plain string. -/
def string (lex : String) : Literal := typed lex .string

/-- An integer in the given decimal notation. -/
def integer (digits : String) : Literal := typed digits .integer

/-- A truth value. -/
def boolean (b : Bool) : Literal := typed (if b then "true" else "false") .boolean

/-- The written form of a literal. -/
def text : Literal → String
  | typed lex .string => "\"" ++ lex ++ "\""
  | typed lex d => "\"" ++ lex ++ "\"^^<" ++ d.iri ++ ">"
  | tagged lex lang => "\"" ++ lex ++ "\"@" ++ lang

/-- Literals are ordered by lexical form, datatype and language. -/
def compare (l m : Literal) : Ordering :=
  (Ord.compare l.lexical m.lexical).then <|
    (Ord.compare l.datatype m.datatype).then <|
      match l.language?, m.language? with
      | none, none => .eq
      | none, some _ => .lt
      | some _, none => .gt
      | some s, some t => Ord.compare s t

instance : Ord Literal := ⟨Literal.compare⟩

end Literal

end OntoQuery
