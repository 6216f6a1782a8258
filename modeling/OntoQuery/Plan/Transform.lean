import OntoQuery.Substitution
import OntoQuery.Plan.Tree

/-!
# Substitution in plans

A substitution can be applied to all operators of a plan at once.  The terms that
a projection produces are variables that its consumers know, so a variable of a
projection head may only be renamed; if it is bound to anything else, or if the
plan is not valid, nothing is transformed.
-/

namespace OntoQuery

/-- Why a plan cannot be transformed. -/
inductive TransformError where
  /-- A projected variable would be replaced by a term that is not a variable. -/
  | projectedVariable (x : Var) (image : Term)
  /-- The transformed plan is not valid. -/
  | invalidPlan (error : PlanError)
  deriving DecidableEq, Inhabited, Repr

namespace TransformError

/-- The kind of the node that is to blame. -/
def kind : TransformError → OperatorKind
  | projectedVariable _ _ => .projection
  | invalidPlan (.childCount kind _) => kind
  | invalidPlan _ => .union

/-- What is wrong with the node. -/
def reason : TransformError → String
  | projectedVariable x image =>
    "projected variable " ++ x.text ++ " would be replaced by " ++ image.text
  | invalidPlan error => error.message

/-- The text of an error. -/
def message (e : TransformError) : String :=
  "cannot transform " ++ e.kind.text ++ " node: " ++ e.reason

end TransformError

namespace Operator

/-- Applies a substitution to all atoms of an operator. -/
def substitute (s : Substitution) : Operator → Operator
  | data a => data (s.applyAtom a)
  | join conditions => join (conditions.map s.applyAtom)
  | filter conditions => filter (conditions.map s.applyAtom)
  | union arity => union arity
  | projection head => projection (s.applyAtom head)

/-- Fails if a variable of a projection head is bound to anything but a
variable. -/
def checkSubstitution (s : Substitution) : Operator → Except TransformError Unit
  | projection head =>
    head.vars.forM fun x =>
      match s.get? x with
      | none | some (.var _) => .ok ()
      | some image => .error (.projectedVariable x image)
  | _ => .ok ()

/-- Applies a substitution to an operator on its own. -/
def transform (s : Substitution) (op : Operator) : Except TransformError Operator := do
  op.checkSubstitution s
  return op.substitute s

end Operator

namespace Plan

/-- The nodes in the order in which they were made. -/
def nodesByAge (p : Plan) : List PlanTree := p.nodes.mergeSort fun t u => t.id ≤ u.id

/-- Applies a substitution to a plan. -/
def transform (s : Substitution) (p : Plan) : Except TransformError Plan := do
  p.nodesByAge.forM fun t => t.op.checkSubstitution s
  let p' := { p with root := p.root.mapOperators (Operator.substitute s) }
  match p'.validate with
  | .ok () => .ok p'
  | .error e => .error (.invalidPlan e)

end Plan

end OntoQuery
