import OntoQuery.Plan.Edit

/-!
# Proposals

A proposal is a local change of a plan that an optimizer suggests.  It names the
nodes it is about, by numbers or by other names, and it can be applied to any plan,
also to one that has changed in the meantime; it fails if it does not fit.

Three of the four proposals take exactly one node out and hand its children over
to its parent, in its place.
-/

namespace OntoQuery

/-- A suggested change of a plan whose nodes are named by values of type `ι`. -/
inductive Proposal (ι : Type) where
  /-- Give a node another operator. -/
  | replaceOperator (target : ι) (op : Operator)
  /-- Put the only child of a node in its place. -/
  | replaceByChild (target : ι)
  /-- Hand the children of a node over to a parent of the same kind. -/
  | flattenChild (parent child : ι)
  /-- Merge a filter into the filter above it. -/
  | mergeFilters (parent child : ι)
  deriving DecidableEq, Repr

namespace Proposal

/-- The same change, with the nodes named in another way. -/
def map {ι κ : Type} (f : ι → κ) : Proposal ι → Proposal κ
  | replaceOperator target op => replaceOperator (f target) op
  | replaceByChild target => replaceByChild (f target)
  | flattenChild parent child => flattenChild (f parent) (f child)
  | mergeFilters parent child => mergeFilters (f parent) (f child)

/-- The written form of a proposal. -/
def text : Proposal NodeId → String
  | replaceOperator target op => "replace " ++ nodeText target ++ " by " ++ op.text
  | replaceByChild target => "replace " ++ nodeText target ++ " by its child"
  | flattenChild parent child => "flatten " ++ nodeText child ++ " into " ++ nodeText parent
  | mergeFilters parent child => "merge filter " ++ nodeText child ++ " into " ++ nodeText parent

/-- The child of a node with a given number. -/
def childOf (parent : PlanTree) (child : NodeId) : Except PlanError PlanTree :=
  match parent.children.find? fun c => c.id = child with
  | some c => .ok c
  | none => .error (.invalidProposal (.notChild parent.id child))

/-- The operator of a node that takes over the children of a node of its kind. -/
def flatten (outer inner : Operator) : Except PlanError Operator :=
  match outer, inner with
  | .join outer, .join inner => .ok (.join (outer ++ inner))
  | .union m, .union n =>
    if m = n then .ok (.union m) else .error (.invalidProposal (.notFlat .union .union))
  | outer, inner => .error (.invalidProposal (.notFlat outer.kind inner.kind))

/-- The children of a node, with one of them replaced by its own children. -/
def spliced (parent child : PlanTree) : List PlanTree :=
  parent.children.flatMap fun c => if c.id = child.id then child.children else [c]

/-- Applies a proposal. -/
def apply : Proposal NodeId → Edit Unit
  | replaceOperator target op => do
    let t ← Edit.find target
    ofExcept (op.kind.checkChildren t.children.length)
    Edit.graft target (.node target op t.children)
  | replaceByChild target => do
    let t ← Edit.find target
    match t.children with
    | [c] => Edit.graft target c
    | _ => throw (.invalidProposal (.notSingle target))
  | flattenChild parent child => do
    let t ← Edit.find parent
    let c ← ofExcept (childOf t child)
    let op ← ofExcept (flatten t.op c.op)
    if c.children.isEmpty then
      throw (.invalidProposal (.childless child))
    else
      Edit.graft parent (.node parent op (spliced t c))
  | mergeFilters parent child => do
    let t ← Edit.find parent
    let c ← ofExcept (childOf t child)
    match t.op, c.op with
    | .filter outer, .filter inner =>
      Edit.graft parent
        (.node parent (.filter (Operator.mergeConditions outer inner)) (spliced t c))
    | _, _ => throw (.invalidProposal (.notFilters parent child))

end Proposal

end OntoQuery
