import OntoQuery.Plan.Tree

/-!
# Editing plans

Edits change a plan in place or fail.  The plan that is at hand when an edit
fails stays at hand, so it matters that every edit checks all it has to check
before it changes anything.
-/

namespace OntoQuery

/-- A change of a plan that may fail. -/
abbrev Edit (α : Type) := EStateM PlanError Plan α

namespace Edit

/-- The subtree at a node of the current plan. -/
def find (id : NodeId) : Edit PlanTree := do
  ofExcept ((← get).find id)

/-- Puts a tree in the place of the subtree at a node. -/
def graft (id : NodeId) (new : PlanTree) : Edit Unit := modify fun p => p.graft id new

/-- Adds a node as the last child of another one and returns its number.  The
parent must have room for it. -/
def addChild (parent : NodeId) (op : Operator) : Edit NodeId := do
  let t ← find parent
  ofExcept (t.op.kind.checkRoom (t.children.length + 1))
  let id := (← get).next
  modify fun p =>
    { p.graft parent (.node parent t.op (t.children ++ [.leaf id op])) with next := id + 1 }
  return id

/-- Gives a node another operator, which must have room for its children, and
returns the old one. -/
def replaceOperator (id : NodeId) (op : Operator) : Edit Operator := do
  let t ← find id
  ofExcept (op.kind.checkRoom t.children.length)
  graft id (.node id op t.children)
  return t.op

/-- Takes out a node with everything below it.  The root has to stay. -/
def removeSubtree (id : NodeId) : Edit Unit := do
  let p ← get
  if id = p.root.id then
    throw .rootRemoval
  else
    match p.parent? id with
    | none => throw (.unknownNode id)
    | some t => graft t.id (.node t.id t.op (t.children.filter fun c => c.id ≠ id))

end Edit

end OntoQuery
