import OntoQuery.Dependency
import OntoQuery.RewritingError
import OntoQuery.RuleSet
import OntoQuery.Settings

/-!
# Unfolding with mappings

Unfolding replaces the atoms of the rules for a target predicate by their
definitions until only source atoms and built-in atoms are left.  Definitions are
the rules of the query for other predicates, followed by the mappings; source
predicates are those that occur in mapping bodies without being defined.

The rules of the target are the roots of a tree of rules.  The children of a rule
are its resolvents at the first defined atom, one for each definition that
unifies; a rule without a defined atom is a leaf.  `Walk.explore` walks
through the tree from left to right and keeps the leaves that have source atoms
only, variants once.

* A rule with a defined atom at depth `maxDepth` is cut off.  Under the policy
  `abort` this ends the walk.
* A leaf that is new when `maxRules` leaves have been kept ends the walk.
* If definitions reachable from the target are recursive, the answer is an error,
  under the policy `abort` without a walk.
-/

namespace OntoQuery

/-- What a query is unfolded with. -/
structure Definitions where
  /-- The rules that define predicates, in order. -/
  rules : Program
  /-- The predicates that atoms may be left with. -/
  sources : List Symbol
  deriving DecidableEq, Inhabited, Repr

namespace Definitions

/-- Whether some definition has this head predicate. -/
def defines (d : Definitions) (p : Symbol) : Bool :=
  d.rules.rules.any fun r => r.headPredicate? = some p

/-- Whether an atom has to be replaced by a definition. -/
def isDefined (d : Definitions) (a : Atom) : Bool := !a.isBuiltin && d.defines a.predicate

/-- Whether an atom may be left in the result. -/
def isFinal (d : Definitions) (a : Atom) : Bool := a.isBuiltin || a.predicate ∈ d.sources

/-- The position of the first defined atom of a rule. -/
def position? (d : Definitions) (r : Rule) : Option Nat := r.bodyAtoms.findIdx? d.isDefined

/-- The definitions of a query and of mappings, for a target predicate. -/
def ofQuery (query : Program) (mappings : List Rule) (target : Symbol) : Definitions :=
  let rules := query.rules.filter (fun r => r.headPredicate? ≠ some target) ++ mappings
  let atoms := (mappings.flatMap Rule.bodyAtoms).filter fun a =>
    !a.isBuiltin && !rules.any fun r => r.headPredicate? = some a.predicate
  { rules := ⟨rules⟩, sources := (atoms.map Atom.predicate).eraseDups }

/-- The definitions of the body atom of a rule at one position. -/
def ofAtom (d : Definitions) (r : Rule) (i : Nat) : List Rule :=
  match r.bodyAtoms[i]? with
  | none => []
  | some a => d.rules.rulesWithHead a.predicate

end Definitions

/-- The state of a walk through the tree of resolvents. -/
structure Walk where
  /-- The supply of variables. -/
  fresh : FreshVars
  /-- The leaves that have been met. -/
  seen : RuleSet := {}
  /-- The leaves that have been kept, in order. -/
  found : Array Rule := #[]
  /-- The bound that was hit last. -/
  hit : Option Bound := none

namespace Walk

/-- Keeps a leaf, unless a variant of it was kept before. -/
def keep (cfg : Settings) (w : Walk) (r : Rule) : Except Walk Walk :=
  if w.seen.contains r then
    .ok w
  else if cfg.maxRules ≤ w.found.size then
    .error { w with hit := some .rules }
  else
    .ok { w with seen := w.seen.insert r, found := w.found.push r }

/-- Cuts a rule off that is too deep. -/
def cut (cfg : Settings) (w : Walk) : Except Walk Walk :=
  match cfg.cyclePolicy with
  | .abort => .error { w with hit := some .depth }
  | .keepPartial => .ok { w with hit := some .depth }

/-- Walks through the tree below a rule, as deep as the number says.  A walk that
is stopped ends in an error with its last state. -/
def explore (d : Definitions) (cfg : Settings) : Nat → Walk → Rule → Except Walk Walk
  | depth, w, r =>
    match d.position? r with
    | none => if r.bodyAtoms.all d.isFinal then keep cfg w r else .ok w
    | some i =>
      match depth with
      | 0 => cut cfg w
      | depth + 1 =>
        let (children, fresh) := r.resolveAll i (d.ofAtom r i) w.fresh
        children.foldlM (explore d cfg depth) { w with fresh := fresh }

/-- The state in which a walk ends, stopped or not. -/
def final : Except Walk Walk → Walk
  | .ok w => w
  | .error w => w

end Walk

/-- Unfolds the rules of a query for a target predicate with mappings. -/
def Program.unfold (query : Program) (mappings : List Rule) (cfg : Settings) (target : Symbol) :
    Except RewritingError Program :=
  let roots := query.rulesWithHead target
  if roots.isEmpty then
    .error (.targetNotDefined target.name)
  else
    let d := Definitions.ofQuery query mappings target
    let cyclic := ((DependencyGraph.ofRules (roots ++ d.rules.rules)).cycles [target]).flatten
    let keepPartial := cfg.cyclePolicy = .keepPartial
    if !cyclic.isEmpty && !keepPartial then
      .error (.cycleDetected cyclic none)
    else
      let fresh := FreshVars.reserve { stem := cfg.freshStem }
        (roots.flatMap Rule.vars ++ d.rules.vars)
      let w := Walk.final (roots.foldlM (Walk.explore d cfg cfg.maxDepth) { fresh := fresh })
      let result : Program := ⟨w.found.toList⟩
      let found := if keepPartial then some result else none
      if !cyclic.isEmpty then
        .error (.cycleDetected cyclic found)
      else
        match w.hit with
        | none => .ok result
        | some .depth => .error (.boundExceeded .depth cfg.maxDepth found)
        | some .rules => .error (.boundExceeded .rules cfg.maxRules found)

end OntoQuery
