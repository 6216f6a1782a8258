import OntoQuery.Atom

/-!
# Operators of query plans

A plan is made of five kinds of operators.  A *data* operator fetches the facts
that match an atom and has no children.  A *join* combines the tuples of its
children, a *filter* keeps those of its child that satisfy conditions, a *union*
puts the tuples of its children together, and a *projection* cuts the tuples of
its child down to the terms of a rule head.

`OperatorKind.accepts` says how many children an operator of a kind may have:
none for data, exactly one for filters and projections, and at least one for
joins and unions.
-/

namespace OntoQuery

/-- The kinds of operators. -/
inductive OperatorKind where
  | data | join | filter | union | projection
  deriving DecidableEq, Inhabited, Repr

namespace OperatorKind

/-- All kinds, in the order of their declaration. -/
def all : List OperatorKind := [.data, .join, .filter, .union, .projection]

/-- The word for a kind. -/
def text : OperatorKind → String
  | data => "data"
  | join => "join"
  | filter => "filter"
  | union => "union"
  | projection => "projection"

/-- The least number of children. -/
def minChildren : OperatorKind → Nat
  | data => 0
  | _ => 1

/-- The greatest number of children, if there is one. -/
def maxChildren? : OperatorKind → Option Nat
  | data => some 0
  | filter | projection => some 1
  | join | union => none

/-- Whether an operator of this kind has room for a number of children. -/
def hasRoom (k : OperatorKind) (n : Nat) : Bool :=
  match k.maxChildren? with
  | none => true
  | some m => n ≤ m

/-- Whether an operator of this kind is complete with a number of children. -/
def accepts (k : OperatorKind) (n : Nat) : Bool := k.minChildren ≤ n && k.hasRoom n

end OperatorKind

/-- The operator of a node of a plan. -/
inductive Operator where
  /-- Fetches an atom. -/
  | data (atom : Atom)
  /-- Joins all children under conditions. -/
  | join (conditions : List Atom)
  /-- Keeps the tuples that satisfy all conditions. -/
  | filter (conditions : List Atom)
  /-- Unites children of one arity. -/
  | union (arity : Nat)
  /-- Projects onto the terms of a head. -/
  | projection (head : Atom)
  deriving DecidableEq, Inhabited, Repr

namespace Operator

/-- The kind of an operator. -/
def kind : Operator → OperatorKind
  | data _ => .data
  | join _ => .join
  | filter _ => .filter
  | union _ => .union
  | projection _ => .projection

/-- The number of terms that an operator produces, where it determines it. -/
def outputArity? : Operator → Option Nat
  | union n => some n
  | projection head => some head.arity
  | _ => none

/-- A conjunction of conditions. -/
def conjunction (conditions : List Atom) : String :=
  String.intercalate " AND " (conditions.map Atom.text)

/-- The written form of an operator. -/
def text : Operator → String
  | data a => "DATA " ++ a.text
  | join [] => "JOIN"
  | join conditions => "JOIN " ++ conjunction conditions
  | filter conditions => "FILTER " ++ conjunction conditions
  | union n => "UNION/" ++ toString n
  | projection head => "PROJECTION " ++ head.text

/-- The conditions of a filter followed by those of another one that are new. -/
def mergeConditions (outer : List Atom) : List Atom → List Atom
  | [] => outer
  | c :: inner => mergeConditions (if c ∈ outer then outer else outer ++ [c]) inner

end Operator

end OntoQuery
