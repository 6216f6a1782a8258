import OntoQuery.Rule
import OntoQuery.Plan.Operator

/-!
# Errors of query plans

A plan cannot be built, edited or transformed in arbitrary ways.  Each way to go
wrong is a case of `PlanError`; the proposals that do not fit a plan are told
apart by `Misfit`.
-/

namespace OntoQuery

/-- The number of a node of a plan. -/
abbrev NodeId := Nat

/-- The written form of the number of a node. -/
def nodeText (id : NodeId) : String := "#" ++ toString id

/-- Why a proposed change does not fit a plan. -/
inductive Misfit where
  /-- A node does not have exactly one child. -/
  | notSingle (target : NodeId)
  /-- A node is not a child of another one. -/
  | notChild (parent child : NodeId)
  /-- An operator cannot take the children of one of another kind. -/
  | notFlat (outer inner : OperatorKind)
  /-- A node has no children. -/
  | childless (child : NodeId)
  /-- Two nodes are not both filters. -/
  | notFilters (parent child : NodeId)
  /-- Several nodes, or none, cannot take the place of the root. -/
  | rootNotSingle
  deriving DecidableEq, Inhabited, Repr

namespace Misfit

/-- The text of a misfit. -/
def text : Misfit → String
  | notSingle target => nodeText target ++ " does not have exactly one child"
  | notChild parent child => nodeText child ++ " is not a child of " ++ nodeText parent
  | notFlat outer inner => "cannot flatten " ++ inner.text ++ " into " ++ outer.text
  | childless child => nodeText child ++ " has no children"
  | notFilters parent child =>
    nodeText parent ++ " and " ++ nodeText child ++ " are not both filters"
  | rootNotSingle => "the root can only be replaced by a single node"

end Misfit

/-- What can be wrong with a plan or a change of it. -/
inductive PlanError where
  /-- A node has, or would get, a wrong number of children. -/
  | childCount (kind : OperatorKind) (found : Nat)
  /-- There is no node with this number. -/
  | unknownNode (id : NodeId)
  /-- The root cannot be taken out. -/
  | rootRemoval
  /-- A child of a union has another arity than the union. -/
  | unionArityMismatch (expected found : Nat)
  /-- There are no rules to make a plan of. -/
  | noRules
  /-- A rule has no counterpart among plans. -/
  | unsupportedRule (r : Rule)
  /-- A proposed change does not fit the plan. -/
  | invalidProposal (misfit : Misfit)
  deriving DecidableEq, Inhabited, Repr

namespace PlanError

/-- The number of an error. -/
def code : PlanError → Nat
  | childCount .. => 201
  | unknownNode _ => 202
  | rootRemoval => 203
  | unionArityMismatch .. => 204
  | noRules => 205
  | unsupportedRule _ => 206
  | invalidProposal _ => 207

/-- Advice on how to avoid an error. -/
def note? : PlanError → Option String
  | childCount .. =>
    some "data nodes have no children, filter and projection nodes exactly one"
  | unsupportedRule _ =>
    some "rules need a head without wildcard and at least one data atom in the body"
  | _ => none

/-- The text of an error. -/
def message : PlanError → String
  | childCount kind found => kind.text ++ " node cannot have " ++ toString found ++ " children"
  | unknownNode id => "unknown node `" ++ nodeText id ++ "`"
  | rootRemoval => "the root node cannot be removed"
  | unionArityMismatch expected found =>
    "union of arity " ++ toString expected ++ " has a child of arity " ++ toString found
  | noRules => "cannot build a query plan without rules"
  | unsupportedRule r => "rule `" ++ r.text ++ "` cannot be translated into a query plan"
  | invalidProposal misfit => "invalid optimization proposal: " ++ misfit.text

end PlanError

namespace OperatorKind

/-- Fails if a node of this kind cannot have a number of children. -/
def checkChildren (k : OperatorKind) (n : Nat) : Except PlanError Unit :=
  if k.accepts n then .ok () else .error (.childCount k n)

/-- Fails if a node of this kind has no room for a number of children. -/
def checkRoom (k : OperatorKind) (n : Nat) : Except PlanError Unit :=
  if k.hasRoom n then .ok () else .error (.childCount k n)

end OperatorKind

end OntoQuery
