import OntoQuery.Plan.Tree

/-!
# The plan of a union of conjunctive queries

A list of rules with heads of one arity is planned as a union.  Each rule becomes
a projection onto its head, over a filter with its built-in atoms if it has any,
over a join of its other atoms if it has more than one.  The nodes are numbered
in this order, rule after rule.

A rule without a head, with a wildcard head, or without an atom that is not built
in cannot be planned.
-/

namespace OntoQuery

namespace Plan

/-- The trees for a list of data atoms, numbered from `id` on. -/
def dataLeaves (id : NodeId) : List Atom → List PlanTree
  | [] => []
  | a :: as => .leaf id (.data a) :: dataLeaves (id + 1) as

/-- The tree for the data atoms of a rule, numbered from `id` on: the leaf of a
single atom, or a join of several. -/
def dataTree (id : NodeId) : List Atom → List PlanTree
  | [a] => dataLeaves id [a]
  | as => [.node id (.join []) (dataLeaves (id + 1) as)]

/-- The tree for the body of a rule, numbered from `id` on: its data atoms, below
a filter if there are conditions. -/
def bodyTree (id : NodeId) (conditions data : List Atom) : List PlanTree :=
  match conditions with
  | [] => dataTree id data
  | conditions => [.node id (.filter conditions) (dataTree (id + 1) data)]

/-- The tree for a rule with a head of the given arity, numbered from `id` on. -/
def ruleTree (arity : Nat) (id : NodeId) (r : Rule) : Except PlanError PlanTree :=
  match r.head with
  | none | some (.wildcard _) => .error (.unsupportedRule r)
  | some head =>
    if head.arity ≠ arity then
      .error (.unionArityMismatch arity head.arity)
    else
      let (conditions, data) := r.bodyAtoms.partition Atom.isBuiltin
      if data.isEmpty then
        .error (.unsupportedRule r)
      else
        .ok (.node id (.projection head) (bodyTree (id + 1) conditions data))

/-- The trees for a list of rules, numbered from `id` on, and the first number
that is left. -/
def ruleTrees (arity : Nat) : NodeId → List Rule → Except PlanError (List PlanTree × NodeId)
  | id, [] => .ok ([], id)
  | id, r :: rs => do
    let t ← ruleTree arity id r
    let (ts, next) ← ruleTrees arity (id + t.size) rs
    return (t :: ts, next)

/-- The plan of a list of rules. -/
def ofRules (rs : List Rule) : Except PlanError Plan :=
  match rs with
  | [] => .error .noRules
  | first :: _ =>
    match first.head with
    | none => .error (.unsupportedRule first)
    | some head => do
      let (ts, next) ← ruleTrees head.arity 1 rs
      return ⟨.node 0 (.union head.arity) ts, next⟩

end Plan

end OntoQuery
