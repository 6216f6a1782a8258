import OntoQuery.Plan.Error

/-!
# Query plans

A plan is a tree of operators.  Its nodes are numbered in the order in which they
were made, and a number is not used again when its node is gone.

The nodes of a plan are listed in pre-order by a traversal that keeps the nodes
still to be visited on a stack (`PlanTree.walk`).  Everything that is asked about
a node by its number goes through this list: `Plan.find?` is the subtree at a
node, `Plan.parent?` the subtree at its parent.

`Plan.graft` puts a tree in the place of the subtree at a node.
-/

namespace OntoQuery

/-- A node of a plan with everything below it. -/
inductive PlanTree where
  | node (id : NodeId) (op : Operator) (children : List PlanTree)
  deriving Inhabited, Repr

namespace PlanTree

/-- The number of the topmost node. -/
def id : PlanTree → NodeId
  | node id _ _ => id

/-- The operator of the topmost node. -/
def op : PlanTree → Operator
  | node _ op _ => op

/-- The trees below the topmost node, from left to right. -/
def children : PlanTree → List PlanTree
  | node _ _ children => children

/-- A tree of one node. -/
def leaf (id : NodeId) (op : Operator) : PlanTree := node id op []

mutual

/-- The number of nodes. -/
def size : PlanTree → Nat
  | .node _ _ children => 1 + sizes children

/-- The number of nodes of a list of trees. -/
def sizes : List PlanTree → Nat
  | [] => 0
  | t :: ts => size t + sizes ts

end

theorem sizes_append (ts us : List PlanTree) : sizes (ts ++ us) = sizes ts + sizes us := by
  induction ts with
  | nil => simp [sizes]
  | cons t ts ih => simp only [List.cons_append, sizes, ih]; omega

/-- The nodes of the trees on a stack in pre-order, each with what is below it. -/
def walk : List PlanTree → List PlanTree
  | [] => []
  | t :: stack => t :: walk (t.children ++ stack)
termination_by stack => sizes stack
decreasing_by
  cases t
  simp only [children, sizes_append, sizes, size]
  omega

/-- The nodes of a tree in pre-order. -/
def nodes (t : PlanTree) : List PlanTree := walk [t]

mutual

/-- Puts a tree in the place of the subtree at a node. -/
def graft (id : NodeId) (new : PlanTree) : PlanTree → PlanTree
  | .node i op children =>
    if i = id then new else .node i op (graftList id new children)

/-- Puts a tree in the place of the subtree at a node, in a list of trees. -/
def graftList (id : NodeId) (new : PlanTree) : List PlanTree → List PlanTree
  | [] => []
  | t :: ts => graft id new t :: graftList id new ts

end

mutual

/-- Changes the operator of every node. -/
def mapOperators (f : Operator → Operator) : PlanTree → PlanTree
  | .node id op children => .node id (f op) (mapOperatorsList f children)

/-- Changes the operator of every node in a list of trees. -/
def mapOperatorsList (f : Operator → Operator) : List PlanTree → List PlanTree
  | [] => []
  | t :: ts => mapOperators f t :: mapOperatorsList f ts

end

end PlanTree

/-- A query plan. -/
structure Plan where
  /-- The tree of operators. -/
  root : PlanTree
  /-- The number of the next node. -/
  next : NodeId
  deriving Inhabited, Repr

namespace Plan

/-- The plan with one node. -/
def single (op : Operator) : Plan := ⟨.leaf 0 op, 1⟩

/-- The nodes in pre-order, each with what is below it. -/
def nodes (p : Plan) : List PlanTree := p.root.nodes

/-- The number of nodes. -/
def size (p : Plan) : Nat := p.nodes.length

/-- Whether there are no nodes. -/
def isEmpty (p : Plan) : Bool := p.nodes.isEmpty

/-- The numbers of the nodes in pre-order. -/
def preOrder (p : Plan) : List NodeId := p.nodes.map PlanTree.id

/-- The subtree at a node. -/
def find? (p : Plan) (id : NodeId) : Option PlanTree := p.nodes.find? fun t => t.id = id

/-- The subtree at a node, which must exist. -/
def find (p : Plan) (id : NodeId) : Except PlanError PlanTree :=
  match p.find? id with
  | some t => .ok t
  | none => .error (.unknownNode id)

/-- The subtree at the parent of a node. -/
def parent? (p : Plan) (id : NodeId) : Option PlanTree :=
  p.nodes.find? fun t => t.children.any fun c => c.id = id

/-- Puts a tree in the place of the subtree at a node. -/
def graft (p : Plan) (id : NodeId) (new : PlanTree) : Plan :=
  { p with root := PlanTree.graft id new p.root }

/-- The atoms of the data nodes, from left to right. -/
def leafAtoms (p : Plan) : List Atom :=
  p.nodes.filterMap fun t =>
    match t.op with
    | .data a => some a
    | _ => none

/-- Fails if a child of a union has another arity. -/
def checkArities (arity : Nat) : List PlanTree → Except PlanError Unit
  | [] => .ok ()
  | t :: ts =>
    match t.op.outputArity? with
    | none => checkArities arity ts
    | some n => if n = arity then checkArities arity ts else .error (.unionArityMismatch arity n)

/-- Fails if a node has a wrong number of children, or children of a wrong
arity. -/
def checkNode (t : PlanTree) : Except PlanError Unit := do
  t.op.kind.checkChildren t.children.length
  match t.op with
  | .union arity => checkArities arity t.children
  | _ => .ok ()

/-- Checks all nodes in pre-order and reports the first error. -/
def validate (p : Plan) : Except PlanError Unit := p.nodes.forM checkNode

end Plan

end OntoQuery
