import OntoQuery.Plan.Tree

/-!
# Folding plans

A fold computes a result for every node from the results for its children.  It is
given by one function for each kind of operator (`PlanAlgebra`), and it fails if
some node has a wrong number of children; the nodes below are looked at first.

Two folds are given here: `Plan.dataAtoms` collects the atoms of the data nodes,
and `Plan.text` draws the tree.
-/

namespace OntoQuery

/-- What a fold does at each kind of node. -/
structure PlanAlgebra (α : Type) where
  /-- The result of a data node. -/
  data : Atom → α
  /-- The result of a join of its children's results. -/
  join : List Atom → List α → α
  /-- The result of a filter of its child's result. -/
  filter : List Atom → α → α
  /-- The result of a union of its children's results. -/
  union : Nat → List α → α
  /-- The result of a projection of its child's result. -/
  projection : Atom → α → α

/-- The result of a node, given those of its children. -/
def Operator.combine {α : Type} (alg : PlanAlgebra α) (op : Operator) (results : List α) :
    Except PlanError α :=
  match op, results with
  | .data a, [] => .ok (alg.data a)
  | .join conditions, r :: rs => .ok (alg.join conditions (r :: rs))
  | .filter conditions, [r] => .ok (alg.filter conditions r)
  | .union arity, r :: rs => .ok (alg.union arity (r :: rs))
  | .projection head, [r] => .ok (alg.projection head r)
  | op, rs => .error (.childCount op.kind rs.length)

namespace PlanTree

mutual

/-- The result of a tree. -/
def fold {α : Type} (alg : PlanAlgebra α) : PlanTree → Except PlanError α
  | .node _ op children => do
    let results ← foldList alg children
    op.combine alg results

/-- The results of a list of trees. -/
def foldList {α : Type} (alg : PlanAlgebra α) : List PlanTree → Except PlanError (List α)
  | [] => .ok []
  | t :: ts => do
    let r ← fold alg t
    let rs ← foldList alg ts
    return r :: rs

end

end PlanTree

/-- Collects the atoms of the data nodes, from left to right. -/
def PlanAlgebra.dataAtoms : PlanAlgebra (List Atom) where
  data a := [a]
  join _ results := results.flatten
  filter _ result := result
  union _ results := results.flatten
  projection _ result := result

/-! ## Drawing -/

/-- A tree of titles. -/
inductive Outline where
  | node (title : String) (children : List Outline)
  deriving Inhabited, Repr

namespace Outline

mutual

/-- Draws a tree.  `own` stands before the title, and `below` before whatever
hangs below it. -/
def draw (own below : String) : Outline → String
  | .node title children => own ++ " " ++ title ++ "\n" ++ drawList below children

/-- Draws the trees below a node.  The last one closes the line at the left. -/
def drawList (below : String) : List Outline → String
  | [] => ""
  | [t] => draw (below ++ " └─") (below ++ "   ") t
  | t :: u :: ts => draw (below ++ " ├─") (below ++ " │ ") t ++ drawList below (u :: ts)

end

/-- The drawing of a whole tree. -/
def text (t : Outline) : String := draw "" "" t

end Outline

/-- Collects the written forms of all operators. -/
def PlanAlgebra.outline : PlanAlgebra Outline where
  data a := .node (Operator.data a).text []
  join conditions results := .node (Operator.join conditions).text results
  filter conditions result := .node (Operator.filter conditions).text [result]
  union arity results := .node (Operator.union arity).text results
  projection head result := .node (Operator.projection head).text [result]

namespace Plan

/-- The result of a plan. -/
def fold {α : Type} (alg : PlanAlgebra α) (p : Plan) : Except PlanError α := p.root.fold alg

/-- The atoms of the data nodes, from left to right. -/
def dataAtoms (p : Plan) : Except PlanError (List Atom) := p.fold .dataAtoms

/-- The drawing of a plan. -/
def text (p : Plan) : Except PlanError String := (p.fold .outline).map Outline.text

end Plan

end OntoQuery
