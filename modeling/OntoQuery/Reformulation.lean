import OntoQuery.Ontology
import OntoQuery.Unfolding
import OntoQuery.Plan.OfRules
import OntoQuery.Plan.Optimizer

/-!
# Reformulation

Reformulation takes a query over an ontology to a plan over the sources that its
mappings speak about: it expands wildcard heads, checks the query, rewrites it
with the ontology, unfolds the mappings, and plans and optimizes the result.
-/

namespace OntoQuery

/-- An error of any stage of reformulation. -/
inductive ReformulationError where
  /-- The query is not well-formed. -/
  | model (e : ModelError)
  /-- Rewriting or unfolding stopped. -/
  | rewriting (e : RewritingError)
  /-- The result cannot be planned. -/
  | plan (e : PlanError)
  deriving DecidableEq, Inhabited, Repr

/-- What a query is reformulated with. -/
structure Reformulator where
  /-- The ontology. -/
  ontology : Ontology
  /-- The mappings of ontology predicates to source predicates. -/
  mappings : List Rule
  /-- The settings of all stages. -/
  settings : Settings
  deriving DecidableEq, Inhabited, Repr

namespace Reformulator

/-- The first head predicate with a given name. -/
def target? (query : Program) (name : String) : Option Symbol :=
  query.headPredicates.find? fun p => p.name = name

/-- Applies the optimizers to a plan, if the settings ask for it. -/
def optimize (cfg : Settings) (p : Plan) : Except PlanError Plan :=
  if cfg.optimizePlan then
    match (Edit.optimize Optimizer.all cfg.maxOptimizationSteps).run p with
    | .ok _ p' => .ok p'
    | .error e _ => .error e
  else
    .ok p

/-- The plan for the predicate of a query with a given name. -/
def reformulate (s : Reformulator) (query : Program) (name : String) :
    Except ReformulationError Plan := do
  let expanded : Program := ⟨query.rules.map Rule.expand⟩
  expanded.validate.mapError .model
  match target? expanded name with
  | none => .error (.rewriting (.targetNotDefined name))
  | some target =>
    let rewritten ← (s.ontology.rewrite s.settings expanded).mapError .rewriting
    let unfolded ← (rewritten.unfold s.mappings s.settings target).mapError .rewriting
    let plan ← (Plan.ofRules unfolded.rules).mapError .plan
    (optimize s.settings plan).mapError .plan

end Reformulator

end OntoQuery
