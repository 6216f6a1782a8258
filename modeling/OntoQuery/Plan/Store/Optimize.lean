import OntoQuery.Plan.Store.Edit
import OntoQuery.Plan.Optimizer

/-!
# Optimizing plans in arenas

A proposal for a plan in an arena names its nodes by keys.  Applying one changes
several nodes in turn: the parent that gets other children, the children that get
another parent, and the node that goes.

An optimizer is any function that looks at a node of a plan and may propose a
change (`StoreOptimizer`).
-/

namespace OntoQuery

namespace StoreEdit

/-- Puts nodes in the place of a child of `parent`, or a single node in the place of
the root.  The node that was there stays in the arena. -/
def replaceInParent (k : Arena.Key) (parent : Option Arena.Key) (new : List Arena.Key) :
    StoreEdit Unit := do
  match parent with
  | none =>
    match new with
    | [c] => modify fun s => { s with root := c }
    | _ => throw (.invalidProposal .rootNotSingle)
  | some p =>
    match (← find p).children.idxOf? k with
    | none => throw (.invalidProposal (.notChild p.offset k.offset))
    | some i =>
      update p fun n => { n with children := n.children.take i ++ new ++ n.children.drop (i + 1) }
  new.forM fun c => update c fun n => { n with parent := parent }

/-- Removes a single node from the arena. -/
def remove (k : Arena.Key) : StoreEdit Unit :=
  modify fun s => { s with arena := (s.arena.remove k).2 }

/-- Fails if a node is not a child of another one. -/
def checkIsChild (parent child : Arena.Key) : StoreEdit Unit := do
  if child ∈ (← find parent).children then
    pure ()
  else
    throw (.invalidProposal (.notChild parent.offset child.offset))

/-- Hands the children of a node over to its parent, which gets another operator. -/
def dissolve (parent child : Arena.Key) (children : List Arena.Key) (op : Operator) :
    StoreEdit Unit := do
  replaceInParent child (some parent) children
  update parent fun n => { n with op := op }
  remove child

/-- Applies a proposal. -/
def apply : Proposal Arena.Key → StoreEdit Unit
  | .replaceOperator target op => do
    let n ← find target
    ofExcept (op.kind.checkChildren n.children.length)
    let _ ← replaceOperator target op
  | .replaceByChild target => do
    let n ← find target
    match n.children with
    | [c] =>
      replaceInParent target n.parent [c]
      remove target
    | _ => throw (.invalidProposal (.notSingle target.offset))
  | .flattenChild parent child => do
    checkIsChild parent child
    let outer ← find parent
    let inner ← find child
    let op ← ofExcept (Proposal.flatten outer.op inner.op)
    if inner.children.isEmpty then
      throw (.invalidProposal (.childless child.offset))
    else
      dissolve parent child inner.children op
  | .mergeFilters parent child => do
    checkIsChild parent child
    let outer ← find parent
    let inner ← find child
    match outer.op, inner.op with
    | .filter conditions, .filter more =>
      dissolve parent child inner.children (.filter (Operator.mergeConditions conditions more))
    | _, _ => throw (.invalidProposal (.notFilters parent.offset child.offset))

end StoreEdit

/-! ## Optimizers -/

/-- What looks at a node of a plan, given by its key and its operator, and may propose a
change. -/
abbrev StoreOptimizer := PlanStore → Arena.Key → Operator → Option (Proposal Arena.Key)

namespace Optimizer

/-- The change that an optimizer proposes at a node of a plan in an arena. -/
def proposeAt : Optimizer → StoreOptimizer
  | trivialNodes, s, k, .join conditions =>
    if (s.children k).length ≠ 1 then none
    else if conditions.isEmpty then some (.replaceByChild k)
    else some (.replaceOperator k (.filter conditions))
  | trivialNodes, s, k, .union _ =>
    if (s.children k).length = 1 then some (.replaceByChild k) else none
  | nestedOperators, s, k, .join _ =>
    ((s.children k).find? fun c => ((s.get? c).map fun n => n.op.kind) = some .join).map fun c =>
      .flattenChild k c
  | nestedOperators, s, k, .union arity =>
    ((s.children k).find? fun c => (s.get? c).map PlanNode.op = some (.union arity)).map fun c =>
      .flattenChild k c
  | filters, s, k, .filter _ =>
    match (s.children k).head? with
    | none => none
    | some c =>
      if ((s.get? c).map fun n => n.op.kind) = some .filter then some (.mergeFilters k c) else none
  | _, _, _, _ => none

end Optimizer

namespace PlanStore

/-- The first change that is proposed at one of the nodes under the given keys. -/
def firstProposal (os : List StoreOptimizer) (s : PlanStore) :
    List Arena.Key → Option (Proposal Arena.Key)
  | [] => none
  | k :: ks => do
    let n ← s.get? k
    match os.findSome? fun o => o s k n.op with
    | none => firstProposal os s ks
    | some q => some q

/-- The first change that is proposed for a plan. -/
def nextProposal (os : List StoreOptimizer) (s : PlanStore) :
    Option (Option (Proposal Arena.Key)) := do
  return s.firstProposal os (← s.preOrder)

/-- Makes proposed changes, as long as there are any and at most the given number, and
returns how many were made. -/
def optimize (os : List StoreOptimizer) :
    Nat → PlanStore → Option (EStateM.Result PlanError PlanStore Nat)
  | 0, s => some (.ok 0 s)
  | max + 1, s => do
    match ← s.nextProposal os with
    | none => return .ok 0 s
    | some q =>
      match (StoreEdit.apply q).run s with
      | .error e s' => return .error e s'
      | .ok () s' =>
        match ← optimize os max s' with
        | .ok made s'' => return .ok (made + 1) s''
        | .error e s'' => return .error e s''

end PlanStore

end OntoQuery
