import OntoQuery.Plan.Store

/-!
# Editing plans in arenas

An edit changes the nodes of a plan one after the other.  If it fails, the plan
stays as the changes up to then have left it.
-/

namespace OntoQuery

/-- A change of a plan in an arena that may fail. -/
abbrev StoreEdit (α : Type) := EStateM PlanError PlanStore α

namespace StoreEdit

/-- The plan that is left by an edit, whether it has failed or not. -/
def finalPlan {α : Type} : EStateM.Result PlanError PlanStore α → PlanStore
  | .ok _ s => s
  | .error _ s => s

/-- The plan after an edit. -/
def after {α : Type} (edit : StoreEdit α) (s : PlanStore) : PlanStore := finalPlan (edit.run s)

/-- The node under a key of the current plan. -/
def find (k : Arena.Key) : StoreEdit PlanNode := do
  ofExcept ((← get).find k)

/-- Stores a node under a new key. -/
def alloc (n : PlanNode) : StoreEdit Arena.Key :=
  modifyGet fun s =>
    let (k, a) := s.arena.alloc n
    (k, { s with arena := a })

/-- Changes the node under a key, which must exist. -/
def update (k : Arena.Key) (f : PlanNode → PlanNode) : StoreEdit Unit := do
  let n ← find k
  modify fun s => { s with arena := (s.arena.set k (f n)).2 }

/-- Adds a node as the last child of another one and returns its key.  The parent
must have room for it. -/
def addChild (parent : Arena.Key) (op : Operator) : StoreEdit Arena.Key := do
  let n ← find parent
  ofExcept (n.op.kind.checkRoom (n.children.length + 1))
  let k ← alloc ⟨op, [], some parent⟩
  update parent fun n => { n with children := n.children ++ [k] }
  return k

/-- Gives a node another operator, which must have room for its children, and
returns the old one. -/
def replaceOperator (k : Arena.Key) (op : Operator) : StoreEdit Operator := do
  let n ← find k
  ofExcept (op.kind.checkRoom n.children.length)
  update k fun n => { n with op := op }
  return n.op

/-- Removes the nodes on a stack with everything below them. -/
def discard (a : Arena PlanNode) : List Arena.Key → Arena PlanNode
  | [] => a
  | k :: stack =>
    match _h : a.remove k with
    | (none, _) => discard a stack
    | (some n, a') => discard a' (n.children.reverse ++ stack)
termination_by stack => (a.size, stack.length)
decreasing_by
  · exact Prod.Lex.right _ (Nat.lt_succ_self _)
  · exact Prod.Lex.left _ _ (Arena.size_remove_lt _h)

/-- Takes out a node with everything below it.  The root has to stay. -/
def removeSubtree (k : Arena.Key) : StoreEdit Unit := do
  if k = (← get).root then
    throw .rootRemoval
  else
    match (← find k).parent with
    | none => pure ()
    | some parent => update parent fun n => { n with children := n.children.filter fun c => c ≠ k }
    modify fun s => { s with arena := discard s.arena [k] }

/-! ## Plans of rules -/

/-- Adds what plans a rule with a head of the given arity, below a node. -/
def addRule (parent : Arena.Key) (arity : Nat) (r : Rule) : StoreEdit Unit :=
  match r.head with
  | none | some (.wildcard _) => throw (.unsupportedRule r)
  | some head =>
    if head.arity ≠ arity then
      throw (.unionArityMismatch arity head.arity)
    else
      let (conditions, data) := r.bodyAtoms.partition Atom.isBuiltin
      if data.isEmpty then
        throw (.unsupportedRule r)
      else do
        let k ← addChild parent (.projection head)
        let k ← if conditions.isEmpty then pure k else addChild k (.filter conditions)
        let k ← if data.length > 1 then addChild k (.join []) else pure k
        data.forM fun a => do
          let _ ← addChild k (.data a)

end StoreEdit

/-- The plan of a list of rules, in a new arena with the given tag. -/
def PlanStore.ofRules (tag : Nat) (rs : List Rule) : Except PlanError PlanStore :=
  match rs with
  | [] => .error .noRules
  | first :: _ =>
    match first.head with
    | none => .error (.unsupportedRule first)
    | some head =>
      let s := PlanStore.single tag (.union head.arity)
      match (rs.forM (StoreEdit.addRule s.root head.arity)).run s with
      | .ok () s' => .ok s'
      | .error e _ => .error e

end OntoQuery
