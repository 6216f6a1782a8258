import OntoQuery.RewritingError
import OntoQuery.RuleSet
import OntoQuery.Settings

/-!
# Rewriting with an ontology

An ontology is a set of rules with heads.  Reading them backwards, a body atom of
a query rule may be replaced by the body of an ontology rule whose head unifies
with it, and the new rule gives answers that the ontology implies.

`Ontology.rewrite` saturates a program with such rules, round by round: round `k`
looks at the rules that need `k` resolution steps, takes their body atoms from
left to right, and for each atom the ontology rules in order.  What is a variant
of a rule that has been found before is dropped.

* The number of rounds is bounded by `maxDepth`.  A new rule beyond that bound is
  an error, and so is one when `maxRules` rules have been found.  The rules of the
  program count among these, but they are taken however many they are.
* Without ontology rules a program is left as it is, variants included.
-/

namespace OntoQuery

/-- The rules of an ontology, all of which have a head. -/
structure Ontology where
  /-- The rules, in order. -/
  program : Program
  deriving DecidableEq, Inhabited, Repr

namespace Ontology

/-- The ontology of the rules that have a head. -/
def ofRules (rs : List Rule) : Ontology := ⟨⟨rs.filter fun r => r.head.isSome⟩⟩

/-- The number of rules. -/
def size (o : Ontology) : Nat := o.program.size

/-- Whether there are no rules. -/
def isEmpty (o : Ontology) : Bool := o.program.isEmpty

/-- The positions of the body atoms of a rule, each with the ontology rules for
its predicate. -/
def steps (o : Ontology) (r : Rule) : List (Nat × Rule) :=
  r.bodyAtoms.zipIdx.flatMap fun (a, i) =>
    (o.program.rulesWithHead a.predicate).map fun d => (i, d)

/-- The state of the saturation. -/
structure Search where
  /-- The supply of variables. -/
  fresh : FreshVars
  /-- All rules that have been met. -/
  seen : RuleSet
  /-- The rules found so far, in order. -/
  found : Array Rule

/-- The error at a bound. -/
def exceeded (cfg : Settings) (bound : Bound) (limit : Nat) (found : Array Rule) : RewritingError :=
  .boundExceeded bound limit <|
    match cfg.cyclePolicy with
    | .abort => none
    | .keepPartial => some ⟨found.toList⟩

/-- The state before the first round: the rules of the program, each variant
once. -/
def start (o : Ontology) (cfg : Settings) (p : Program) : Search :=
  p.rules.foldl
    (fun st r =>
      if st.seen.contains r then st
      else { st with seen := st.seen.insert r, found := st.found.push r })
    { fresh := FreshVars.reserve { stem := cfg.freshStem } (p.vars ++ o.program.vars)
      seen := {}
      found := #[] }

/-- Takes a new rule into the result, unless it is a variant of an old one.
`deeper` says whether another round is allowed. -/
def takeNew (cfg : Settings) (deeper : Bool) (st : Search) (r : Rule) :
    Except RewritingError Search :=
  if st.seen.contains r then
    .ok st
  else if !deeper then
    .error (exceeded cfg .depth cfg.maxDepth st.found)
  else if cfg.maxRules ≤ st.found.size then
    .error (exceeded cfg .rules cfg.maxRules st.found)
  else
    .ok { st with seen := st.seen.insert r, found := st.found.push r }

/-- Makes one resolution step. -/
def resolveStep (cfg : Settings) (deeper : Bool) (r : Rule) (st : Search) (step : Nat × Rule) :
    Except RewritingError Search :=
  let (resolvent, fresh) := r.resolve step.1 step.2 st.fresh
  match resolvent with
  | none => .ok { st with fresh := fresh }
  | some r' => takeNew cfg deeper { st with fresh := fresh } r'

/-- Makes all resolution steps of one rule. -/
def expandRule (o : Ontology) (cfg : Settings) (deeper : Bool) (st : Search) (r : Rule) :
    Except RewritingError Search :=
  (o.steps r).foldlM (resolveStep cfg deeper r) st

/-- Makes the given number of rounds; `frontier` holds the rules of the current
one. -/
def rounds (o : Ontology) (cfg : Settings) :
    Nat → List Rule → Search → Except RewritingError Search
  | 0, frontier, st => frontier.foldlM (expandRule o cfg false) st
  | _ + 1, [], st => .ok st
  | n + 1, r :: frontier, st => do
    let st' ← (r :: frontier).foldlM (expandRule o cfg true) st
    rounds o cfg n (st'.found.toList.drop st.found.size) st'

/-- All rules that are implied by the rules of a program and the ontology. -/
def rewrite (o : Ontology) (cfg : Settings) (p : Program) : Except RewritingError Program :=
  if o.isEmpty then
    .ok p
  else do
    let st := o.start cfg p
    let st' ← o.rounds cfg cfg.maxDepth st.found.toList st
    .ok ⟨st'.found.toList⟩

end Ontology

end OntoQuery
