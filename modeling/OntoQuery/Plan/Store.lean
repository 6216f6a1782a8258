import OntoQuery.Arena
import OntoQuery.Plan.Fold

/-!
# Plans in arenas

A `PlanTree` says what a plan is, but a plan that is edited is kept in another form:
its nodes lie in an arena and refer to each other by keys.  A node lists the keys
of its children and has the key of its parent, and the plan has the key of the
root.  So every edge of the tree is written down twice, and nothing but care keeps
the two from contradicting each other.

Whatever goes through such a plan follows the lists of children, and comes to an
end only if they do not lead in a circle.  `PlanStore.walk` and `PlanStore.foldAt`
are therefore partial functions: `none` is the result of a search that never ends.

`PlanStore.ofPlan` stores the nodes of a tree under their numbers.
-/

namespace OntoQuery

/-- A node of a plan in an arena. -/
structure PlanNode where
  /-- What the node does. -/
  op : Operator
  /-- The children, from left to right. -/
  children : List Arena.Key
  /-- The parent, unless the node is the root. -/
  parent : Option Arena.Key
  deriving DecidableEq, Repr

/-- A plan whose nodes are kept in an arena. -/
structure PlanStore where
  /-- The nodes. -/
  arena : Arena PlanNode
  /-- The key of the root. -/
  root : Arena.Key
  deriving DecidableEq, Repr

namespace PlanStore

/-- The plan with one node, in a new arena with the given tag. -/
def single (tag : Nat) (op : Operator) : PlanStore :=
  let (k, a) := Arena.alloc { tag } ⟨op, [], none⟩
  ⟨a, k⟩

/-- The key of the node with the given number. -/
def key (s : PlanStore) (id : NodeId) : Arena.Key := ⟨s.arena.tag, id⟩

/-- The node under a key. -/
def get? (s : PlanStore) (k : Arena.Key) : Option PlanNode := s.arena.get? k

/-- The node under a key, which must exist. -/
def find (s : PlanStore) (k : Arena.Key) : Except PlanError PlanNode :=
  match s.get? k with
  | some n => .ok n
  | none => .error (.unknownNode k.offset)

/-- The children of a node, or none if there is no node under the key. -/
def children (s : PlanStore) (k : Arena.Key) : List Arena.Key :=
  (s.get? k).elim [] PlanNode.children

/-- The parent of a node. -/
def parent? (s : PlanStore) (k : Arena.Key) : Option Arena.Key := (s.get? k).bind PlanNode.parent

/-- The number of nodes. -/
def size (s : PlanStore) : Nat := s.arena.size

/-- Whether there are no nodes. -/
def isEmpty (s : PlanStore) : Bool := s.arena.isEmpty

/-! ## Traversal -/

/-- The keys on a stack in pre-order, each followed by what is below it. -/
def walk (s : PlanStore) : List Arena.Key → Option (List Arena.Key)
  | [] => some []
  | k :: stack => do
    let keys ← s |>.walk (s.children k ++ stack)
    return k :: keys
partial_fixpoint

/-- The keys of the nodes in pre-order. -/
def preOrder (s : PlanStore) : Option (List Arena.Key) := s.walk [s.root]

/-- The atom of a data node. -/
def dataAtom? (s : PlanStore) (k : Arena.Key) : Option Atom :=
  match s.get? k with
  | some ⟨.data a, _, _⟩ => some a
  | _ => none

/-- The atoms of the data nodes, from left to right. -/
def leafAtoms (s : PlanStore) : Option (List Atom) := do
  return (← s.preOrder).filterMap s.dataAtom?

/-- Fails if a child of a union has another arity. -/
def checkArities (s : PlanStore) (arity : Nat) : List Arena.Key → Except PlanError Unit
  | [] => .ok ()
  | k :: ks => do
    match (← s.find k).op.outputArity? with
    | none => checkArities s arity ks
    | some n =>
      if n = arity then checkArities s arity ks else .error (.unionArityMismatch arity n)

/-- Fails if a node has a wrong number of children, or children of a wrong
arity. -/
def checkNode (s : PlanStore) (k : Arena.Key) : Except PlanError Unit := do
  let n ← s.find k
  n.op.kind.checkChildren n.children.length
  match n.op with
  | .union arity => s.checkArities arity n.children
  | _ => .ok ()

/-- Checks all nodes in pre-order and reports the first error. -/
def validate (s : PlanStore) : Option (Except PlanError Unit) := do
  return (← s.preOrder).forM s.checkNode

/-- The result of a fold for the node under a key. -/
def foldAt {α : Type} (alg : PlanAlgebra α) (s : PlanStore) (k : Arena.Key) :
    ExceptT PlanError Option α := do
  let n ← liftM (s.find k)
  let results ← n.children.mapM (s |>.foldAt alg)
  liftM (n.op.combine alg results)
partial_fixpoint

/-- The result of a fold for the whole plan. -/
def fold {α : Type} (alg : PlanAlgebra α) (s : PlanStore) : Option (Except PlanError α) :=
  (s.foldAt alg s.root).run

/-- The atoms of the data nodes, from left to right. -/
def dataAtoms (s : PlanStore) : Option (Except PlanError (List Atom)) := s.fold .dataAtoms

/-- The drawing of a plan. -/
def text (s : PlanStore) : Option (Except PlanError String) := do
  return (← s.fold .outline).map Outline.text

end PlanStore

/-! ## Storing a tree -/

namespace PlanTree

mutual

/-- The nodes of a tree as they are kept in an arena, with their numbers. -/
def entries (tag : Nat) (parent : Option Arena.Key) : PlanTree → List (NodeId × PlanNode)
  | .node i op children =>
    (i, ⟨op, children.map fun c => ⟨tag, c.id⟩, parent⟩) :: entriesList tag (some ⟨tag, i⟩) children

/-- The nodes of a list of trees with one parent. -/
def entriesList (tag : Nat) (parent : Option Arena.Key) :
    List PlanTree → List (NodeId × PlanNode)
  | [] => []
  | t :: ts => entries tag parent t ++ entriesList tag parent ts

end

end PlanTree

/-- Keeps the nodes of a plan in an arena with the given tag, under their numbers. -/
def PlanStore.ofPlan (tag : Nat) (p : Plan) : PlanStore :=
  let entries := p.root.entries tag none
  ⟨⟨tag, (List.range p.next).map fun i => entries.lookup i⟩, ⟨tag, p.root.id⟩⟩

end OntoQuery
