import OntoQuery.Plan.Proposal

/-!
# Optimizers

An optimizer looks at a node and what is below it and may propose a change.
Optimization applies the first proposal found, going through the nodes in
pre-order and at each node through the optimizers in order, and starts again,
until there is no proposal or the number of changes is used up.
-/

namespace OntoQuery

/-- The ways to simplify a plan. -/
inductive Optimizer where
  /-- Removes joins and unions with one child; a join with conditions becomes a
  filter. -/
  | trivialNodes
  /-- Flattens joins below joins and unions below unions of the same arity. -/
  | nestedOperators
  /-- Merges filters below filters. -/
  | filters
  deriving DecidableEq, Inhabited, Repr

namespace Optimizer

/-- The optimizers that are used unless others are asked for. -/
def all : List Optimizer := [.trivialNodes, .nestedOperators, .filters]

/-- The name of an optimizer. -/
def name : Optimizer → String
  | trivialNodes => "trivial node elimination"
  | nestedOperators => "nested operator flattening"
  | filters => "filter merging"

/-- The change that an optimizer proposes at a node. -/
def propose : Optimizer → PlanTree → Option (Proposal NodeId)
  | trivialNodes, .node id (.join []) [_] => some (.replaceByChild id)
  | trivialNodes, .node id (.join conditions) [_] =>
    some (.replaceOperator id (.filter conditions))
  | trivialNodes, .node id (.union _) [_] => some (.replaceByChild id)
  | nestedOperators, .node id (.join _) children =>
    (children.find? fun c => c.op.kind = .join).map fun c => .flattenChild id c.id
  | nestedOperators, .node id (.union arity) children =>
    (children.find? fun c => c.op = .union arity).map fun c => .flattenChild id c.id
  | filters, .node id (.filter _) (c :: _) =>
    if c.op.kind = .filter then some (.mergeFilters id c.id) else none
  | _, _ => none

end Optimizer

namespace Plan

/-- The first change that is proposed for a plan. -/
def nextProposal (os : List Optimizer) (p : Plan) : Option (Proposal NodeId) :=
  p.nodes.findSome? fun t => os.findSome? fun o => o.propose t

end Plan

namespace Edit

/-- Makes proposed changes, as long as there are any and at most the given
number, and returns how many were made. -/
def optimize (os : List Optimizer) : Nat → Edit Nat
  | 0 => return 0
  | n + 1 => do
    match (← get).nextProposal os with
    | none => return 0
    | some proposal =>
      proposal.apply
      return (← optimize os n) + 1

end Edit

end OntoQuery
