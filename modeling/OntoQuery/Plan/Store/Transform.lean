import OntoQuery.Plan.Store
import OntoQuery.Plan.Transform

/-!
# Transforming plans in arenas

A transformer changes the operators of all nodes of a plan, in the order in which
they were made, and may keep a state of its own from one to the next.  It has a
function for each kind of operator, so that no operator changes its kind.
-/

namespace OntoQuery

/-- A transformer with states of type `σ` and errors of type `ε`. -/
structure Transformer (σ ε : Type) where
  /-- Changes the atom of a data node. -/
  data : Atom → StateT σ (Except ε) Atom
  /-- Changes the conditions of a join. -/
  join : List Atom → StateT σ (Except ε) (List Atom)
  /-- Changes the conditions of a filter. -/
  filter : List Atom → StateT σ (Except ε) (List Atom)
  /-- Changes the arity of a union. -/
  union : Nat → StateT σ (Except ε) Nat
  /-- Changes the head of a projection. -/
  projection : Atom → StateT σ (Except ε) Atom

namespace Transformer

variable {σ ε : Type}

/-- Changes an operator. -/
def apply (t : Transformer σ ε) : Operator → StateT σ (Except ε) Operator
  | .data a => return .data (← t.data a)
  | .join conditions => return .join (← t.join conditions)
  | .filter conditions => return .filter (← t.filter conditions)
  | .union arity => return .union (← t.union arity)
  | .projection head => return .projection (← t.projection head)

/-- Applies a substitution to all atoms. -/
def ofSubstitution (s : Substitution) : Transformer Unit TransformError where
  data a := pure (s.applyAtom a)
  join conditions := pure (conditions.map s.applyAtom)
  filter conditions := pure (conditions.map s.applyAtom)
  union arity := pure arity
  projection head := do
    liftM (Operator.checkSubstitution s (.projection head))
    return s.applyAtom head

end Transformer

namespace PlanStore

variable {σ ε : Type}

/-- Transforms the operator of a stored node. -/
def transformNode (t : Transformer σ ε) (s : PlanStore) (entry : Arena.Key × PlanNode) :
    StateT σ (Except ε) PlanStore := do
  let op ← t.apply entry.2.op
  match s.get? entry.1 with
  | none => return s
  | some n => return { s with arena := (s.arena.set entry.1 { n with op := op }).2 }

/-- Transforms a plan, starting with the given state of the transformer.  The result must be
valid; `invalid` is the error if it is not. -/
def transform (t : Transformer σ ε) (invalid : PlanError → ε) (start : σ) (s : PlanStore) :
    Option (Except ε PlanStore) :=
  match (s.arena.toList.foldlM (transformNode t) s).run start with
  | .error e => some (.error e)
  | .ok (s', _) => do
    match ← s'.validate with
    | .ok () => return .ok s'
    | .error e => return .error (invalid e)

/-- Applies a substitution to a plan. -/
def substitute (sub : Substitution) (s : PlanStore) : Option (Except TransformError PlanStore) :=
  s.transform (.ofSubstitution sub) .invalidPlan ()

end PlanStore

end OntoQuery
