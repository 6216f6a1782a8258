/-!
# Symbols and built-in predicates

A *symbol* is a name together with an arity.  Predicates and function symbols
are both symbols, and `p/1` and `p/2` are two different ones.

Eleven predicates are *built in*: comparisons, null tests and Boolean
connectives.  A symbol is built in exactly when its name and its arity are those
of a `Builtin`; `EQ/3` is an ordinary predicate.  Built-in atoms are conditions:
they are no dependencies, unfolding leaves them as they are, and the plan of a rule
has them in a filter.  Only rewriting makes no difference between them and other
atoms: an ontology rule with a built-in predicate in its head replaces them.

* `Symbol.compare` orders symbols by name, then by arity.
* `Symbol.builtin?` reads a symbol as a built-in predicate, and
  `Symbol.builtin?_symbol` says that it finds every one of them.
-/

namespace OntoQuery

/-- A name with an arity. -/
structure Symbol where
  /-- The name, which alone is shown. -/
  name : String
  /-- The number of arguments. -/
  arity : Nat
  deriving DecidableEq, Inhabited, Repr

namespace Symbol

/-- Symbols are ordered by name and, under one name, by arity. -/
def compare (p q : Symbol) : Ordering :=
  (Ord.compare p.name q.name).then (Ord.compare p.arity q.arity)

instance : Ord Symbol := ⟨Symbol.compare⟩

/-- A symbol is shown by its name. -/
def text (p : Symbol) : String := p.name

/-- The symbol of the same name with another arity. -/
def withArity (p : Symbol) (n : Nat) : Symbol := { p with arity := n }

end Symbol

/-- The predicates with a fixed meaning. -/
inductive Builtin where
  | eq | neq | lt | lte | gt | gte | isNull | isNotNull | and | or | not
  deriving DecidableEq, Inhabited, Repr

namespace Builtin

/-- All built-in predicates, in the order of their declaration. -/
def all : List Builtin :=
  [.eq, .neq, .lt, .lte, .gt, .gte, .isNull, .isNotNull, .and, .or, .not]

/-- The name under which a built-in predicate is written. -/
def name : Builtin → String
  | .eq => "EQ"
  | .neq => "NEQ"
  | .lt => "LT"
  | .lte => "LTE"
  | .gt => "GT"
  | .gte => "GTE"
  | .isNull => "IS_NULL"
  | .isNotNull => "IS_NOT_NULL"
  | .and => "AND"
  | .or => "OR"
  | .not => "NOT"

/-- The number of arguments of a built-in predicate. -/
def arity : Builtin → Nat
  | .isNull | .isNotNull | .not => 1
  | _ => 2

/-- The predicate symbol of a built-in predicate. -/
def symbol (b : Builtin) : Symbol := ⟨b.name, b.arity⟩

/-- The enumeration leaves no built-in predicate out. -/
theorem mem_all (b : Builtin) : b ∈ all := by
  cases b <;> decide

end Builtin

namespace Symbol

/-- The built-in predicate with this name and this arity. -/
def builtin? (p : Symbol) : Option Builtin :=
  Builtin.all.find? fun b => b.symbol = p

/-- Whether the symbol is that of a built-in predicate. -/
def isBuiltin (p : Symbol) : Bool := p.builtin?.isSome

@[simp] theorem builtin?_symbol (b : Builtin) : b.symbol.builtin? = some b := by
  cases b <;> decide

theorem symbol_of_builtin? {p : Symbol} {b : Builtin} (h : p.builtin? = some b) :
    b.symbol = p := by
  simpa using List.find?_some h

end Symbol

/-- The kinds of things that rules are made of, as error messages name them. -/
inductive ComponentKind where
  | var | iri | value | function | predicate | atom | rule | program
  deriving DecidableEq, Inhabited, Repr

namespace ComponentKind

/-- All kinds of components, in the order of their declaration. -/
def all : List ComponentKind :=
  [.var, .iri, .value, .function, .predicate, .atom, .rule, .program]

/-- The word for a kind of component. -/
def text : ComponentKind → String
  | .var => "variable"
  | .iri => "iri"
  | .value => "value"
  | .function => "function"
  | .predicate => "predicate"
  | .atom => "atom"
  | .rule => "rule"
  | .program => "program"

end ComponentKind

end OntoQuery
