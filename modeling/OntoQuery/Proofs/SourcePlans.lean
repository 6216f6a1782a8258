import OntoQuery.Proofs.Reformulation
import OntoQuery.Proofs.RulePlans
import OntoQuery.Proofs.UnfoldingResult

/-!
# Plans ask the sources

Whoever carries out a plan relies on its shape: data nodes fetch from sources, conditions are built
in, and all projections are onto heads for the target.  `Plan.AsksSources` says so, and
`reformulate_asksSources` shows it of every plan that reformulation makes.

The parts of this come from different stages.  Unfolding leaves source atoms and built-in atoms only
and keeps the head predicate, but it calls a predicate a source if the *rewritten* rules do not
define it; since rewriting keeps a variant of each rule, the query does not define it either
(`IsSource.of_rewrite`).  Planning takes the built-in atoms as conditions and the others as data
nodes, and optimization only takes nodes away.
-/

namespace OntoQuery

/-- What rewritten rules do not define, the rules before rewriting do not define. -/
theorem IsSource.of_rewrite {o : Ontology} {cfg : Settings} {p q : Program} {mappings : List Rule}
    {target s : Symbol} (hq : o.rewrite cfg p = .ok q) (h : IsSource mappings
      (q.rules.filter (fun r => r.headPredicate? ≠ some target) ++ mappings) s) :
    IsSource mappings (p.rules.filter (fun r => r.headPredicate? ≠ some target) ++ mappings) s := by
  obtain ⟨hbuiltin, hmapping, hnone⟩ := h
  refine ⟨hbuiltin, hmapping, fun r hr => ?_⟩
  rcases List.mem_append.mp hr with hr | hr
  · obtain ⟨hr, htarget⟩ := List.mem_filter.mp hr
    obtain ⟨r', hr', he⟩ := (Ontology.rewrite_saturated hq).start r hr
    have hhead := (Rule.canonical_eq_iff.mp he).headPredicate?_eq
    rw [hhead] at htarget ⊢
    exact hnone r' (List.mem_append_left _ (List.mem_filter.mpr ⟨hr', htarget⟩))
  · exact hnone r (List.mem_append_right _ hr)

/-- The shape of plans for a target that ask sources only, given mappings and all definitions. -/
structure Plan.AsksSources (plan : Plan) (mappings definitions : List Rule) (target : Symbol) :
    Prop where
  /-- The plan is valid. -/
  valid : plan.validate = .ok ()
  /-- Folding the plan collects the atoms of its data nodes. -/
  dataAtoms : plan.dataAtoms = .ok plan.leafAtoms
  /-- There are data nodes. -/
  nonempty : plan.leafAtoms ≠ []
  /-- They fetch source atoms. -/
  sources : ∀ a ∈ plan.leafAtoms, IsSource mappings definitions a.predicate
  /-- Filters have built-in conditions. -/
  conditions : ∀ t ∈ plan.nodes, ∀ conditions, t.op = .filter conditions →
    ∀ c ∈ conditions, c.isBuiltin = true
  /-- Projections are onto heads for the target. -/
  heads : ∀ t ∈ plan.nodes, ∀ head, t.op = .projection head → head.predicate = target

namespace Reformulator

/-- The target is the predicate of the first head with the given name. -/
theorem target?_eq (query : Program) (name : String) :
    target? query name =
      (query.rules.filterMap Rule.headPredicate?).find? fun p => p.name = name :=
  find?_eraseDups _ _

/-- What the plan of unfolded rules looks like after optimization. -/
theorem asksSources_of_unfold {cfg : Settings} {q u : Program} {p plan : Plan}
    {mappings : List Rule} {target : Symbol} (hu : q.unfold mappings cfg target = .ok u)
    (hp : Plan.ofRules u.rules = .ok p) (hplan : optimize cfg p = .ok plan) :
    plan.AsksSources mappings
      (q.rules.filter (fun r => r.headPredicate? ≠ some target) ++ mappings) target := by
  obtain ⟨hsub, -⟩ := optimize_ofRules hp hplan
  have hvalid := Plan.ofRules_validate hp hsub
  have hcomplete := (Plan.validate_eq_ok.mp hvalid).1
  refine ⟨hvalid, hcomplete.fold_dataAtoms, hcomplete.leafAtoms_ne_nil, fun a ha => ?_,
    fun t ht conditions hop c hc => ?_, fun t ht head hop => ?_⟩
  · obtain ⟨t, ht, hop⟩ := PlanTree.mem_leafAtoms.mp ha
    obtain ⟨r, hr, har, hb⟩ := Plan.exists_rule_of_data hp (hsub ht) hop
    exact (Program.isFinal_of_unfold hu hr har).resolve_left (Bool.eq_false_iff.mp hb)
  · exact Plan.isBuiltin_of_filter hp (hsub ht) hop c hc
  · obtain ⟨r, hr, hhead, -⟩ := Plan.exists_rule_of_projection hp (hsub ht) hop
    have htarget := Program.headPredicate?_of_unfold hu hr
    rw [Rule.headPredicate?, hhead] at htarget
    exact Option.some.inj htarget

/-- Every plan that reformulation makes asks sources only, for the predicate of the first head with
the given name.  If the settings ask for optimization and allow a step, then no optimizer proposes
anything for any node of the plan. -/
theorem reformulate_asksSources {s : Reformulator} {query : Program} {name : String} {plan : Plan}
    (h : s.reformulate query name = .ok plan) :
    ∃ target, (query.expand.rules.filterMap Rule.headPredicate?).find? (fun p => p.name = name) =
        some target ∧
      plan.AsksSources s.mappings
        (query.expand.rules.filter (fun r => r.headPredicate? ≠ some target) ++ s.mappings)
        target ∧
      (s.settings.optimizePlan = true → 1 ≤ s.settings.maxOptimizationSteps →
        ∀ o ∈ Optimizer.all, ∀ t ∈ plan.nodes, o.propose t = none) := by
  obtain ⟨-, target, q, u, p, htarget, hq, hu, hp, hplan⟩ := reformulate_eq_ok_iff.mp h
  have hshape := asksSources_of_unfold hu hp hplan
  obtain ⟨-, hquiet⟩ := optimize_ofRules hp hplan
  refine ⟨target, (target?_eq _ _).symm.trans htarget, ?_, fun hon hsteps o ho t ht => ?_⟩
  · exact { hshape with sources := fun a ha => (hshape.sources a ha).of_rewrite hq }
  · exact Plan.nextProposal_eq_none.mp (hquiet hon hsteps) t ht o ho

/-- A query for the pairs that are related in both directions and whose first member is `k`. -/
def bothWays : Program :=
  ⟨[⟨some (.wildcard "q"), some [.plain "r" [.var ⟨"x"⟩, .var ⟨"y"⟩],
    .plain "EQ" [.var ⟨"x"⟩, .iri "k"], .plain "r" [.var ⟨"y"⟩, .var ⟨"x"⟩]]⟩]⟩

/-- The plan for this query: the source is asked twice, and the condition stands above the join. -/
def bothWaysPlan : Plan :=
  ⟨.node 1 (.projection (.plain "q" [.var ⟨"x"⟩, .var ⟨"y"⟩]))
    [.node 2 (.filter [.plain "EQ" [.var ⟨"x"⟩, .iri "k"]])
      [.node 3 (.join [])
        [.leaf 4 (.data (.plain "s" [.var ⟨"x"⟩, .var ⟨"y"⟩])),
          .leaf 5 (.data (.plain "s" [.var ⟨"y"⟩, .var ⟨"x"⟩]))]]], 6⟩

/-- Nothing is left to be optimized in it. -/
theorem reformulate_asksSources_bothWays :
    (⟨Ontology.ofRules [], edges, {}⟩ : Reformulator).reformulate bothWays "q" = .ok bothWaysPlan ∧
      bothWaysPlan.AsksSources edges edges ⟨"q", 2⟩ ∧
      ∀ o ∈ Optimizer.all, ∀ t ∈ bothWaysPlan.nodes, o.propose t = none := by
  have h : (⟨Ontology.ofRules [], edges, {}⟩ : Reformulator).reformulate bothWays "q" =
      .ok bothWaysPlan := by cbv
  obtain ⟨target, htarget, hshape, hquiet⟩ := reformulate_asksSources h
  have hfirst : (bothWays.expand.rules.filterMap Rule.headPredicate?).find?
      (fun p => p.name = "q") = some ⟨"q", 2⟩ := by decide
  obtain rfl : ⟨"q", 2⟩ = target := Option.some.inj (hfirst.symm.trans htarget)
  exact ⟨h, hshape, hquiet rfl (by decide)⟩

end Reformulator

end OntoQuery
