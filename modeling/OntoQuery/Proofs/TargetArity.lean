import OntoQuery.Proofs.RuleEncoding
import OntoQuery.Proofs.SourcePlans

/-!
# The target and other predicates of its name

Reformulation is asked for a name, but a predicate is a name with an arity.  The target is the
predicate of the first head of that name, and what its arity is, if this head is a wildcard, is said
by the body: it is the number of distinct variables (`Rule.width`, `Reformulator.target?_expand`).

So there are two kinds of rules of that name, and `Reformulator.reformulate_keeps` says of both
where they go.  Those as wide as the first one are the rules for the target, and the plan has their
arity.  The others are for other predicates, and unfolding takes them for definitions.  Variants of
all of them are there after rewriting, so that none is lost on the way.
-/

namespace OntoQuery

/-! ## Heads after expansion -/

namespace Rule

/-- The name of the head predicate. -/
def headName? (r : Rule) : Option String := r.head.map Atom.name

/-- The number of terms that the head has once it is expanded. -/
def width (r : Rule) : Nat :=
  match r.head with
  | none => 0
  | some (.plain _ ts) => ts.length
  | some (.wildcard _) => r.bodyVars.eraseDups.length

theorem headPredicate?_expand (r : Rule) :
    r.expand.headPredicate? = r.headName?.map fun name => ⟨name, r.width⟩ := by
  unfold expand headPredicate? headName? width
  rcases hhead : r.head with _ | ⟨name, ts⟩ | ⟨name⟩
  · simp [hhead]
  · simp [hhead, Atom.predicate, Atom.name, Atom.arity, Atom.args]
  · simp [Atom.predicate, Atom.name, Atom.arity, Atom.args]

/-- If all rules of a list are for one predicate, then the first one has its arity. -/
theorem firstArity_of_headPredicate? {rs : List Rule} {s : Symbol} (hne : rs ≠ [])
    (h : ∀ r ∈ rs, r.headPredicate? = some s) : firstArity rs = s.arity := by
  obtain ⟨r, rest, rfl⟩ := List.exists_cons_of_ne_nil hne
  obtain ⟨head, hhead, rfl⟩ := Option.map_eq_some_iff.mp (h r (List.mem_cons_self ..))
  rw [firstArity, List.head?_cons, Option.bind_some, hhead]
  rfl

end Rule

namespace Reformulator

/-- The target is the predicate of the first rule whose head has the given name, as wide as this
rule is. -/
theorem target?_expand (query : Program) (name : String) :
    target? query.expand name =
      (query.rules.find? fun r => r.headName? = some name).map fun r => ⟨name, r.width⟩ := by
  have htest : ∀ r : Rule, r.expand.headPredicate?.any (fun p => p.name = name) =
      decide (r.headName? = some name) := by
    intro r
    rw [Rule.headPredicate?_expand]
    cases r.headName? <;> simp
  rw [target?_eq, Program.expand, List.filterMap_map, List.find?_filterMap]
  simp only [Function.comp_apply, htest]
  cases hfirst : query.rules.find? fun r => r.headName? = some name with
  | none => rfl
  | some first =>
    have hname : first.headName? = some name := by simpa using List.find?_some hfirst
    rw [Option.bind_some, Rule.headPredicate?_expand, hname]
    rfl

/-! ## The arity of a plan -/

/-- The plan for a target has its arity, optimized or not. -/
theorem outputArity?_of_unfold {cfg : Settings} {q u : Program} {p plan : Plan}
    {mappings : List Rule} {target : Symbol} (hu : q.unfold mappings cfg target = .ok u)
    (hp : Plan.ofRules u.rules = .ok p) (hplan : optimize cfg p = .ok plan) :
    plan.root.op.outputArity? = some target.arity := by
  obtain ⟨hne, -⟩ := Plan.exists_ofRules_iff.mp ⟨p, hp⟩
  have harity := Rule.firstArity_of_headPredicate? hne fun r hr =>
    Program.headPredicate?_of_unfold hu hr
  obtain ⟨trees, next, -, hunion⟩ := Plan.exists_trees_of_firstArity hp
  rw [outputArity?_of_optimize hp hplan, hunion, ← harity]
  rfl

/-! ## Where the rules go -/

/-- If there is a plan for a name, then its arity is the width of the first rule with a head of that
name.  After rewriting there is a variant of every rule with such a head: among the rules for the
target if and only if the rule is as wide as the first one, and otherwise among the definitions. -/
theorem reformulate_keeps {s : Reformulator} {query : Program} {name : String} {plan : Plan}
    (h : s.reformulate query name = .ok plan) :
    ∃ first q u, query.rules.find? (fun r => r.headName? = some name) = some first ∧
      s.ontology.rewrite s.settings query.expand = .ok q ∧
      q.unfold s.mappings s.settings ⟨name, first.width⟩ = .ok u ∧
      plan.root.op.outputArity? = some first.width ∧
      ∀ r ∈ query.rules, r.headName? = some name →
        ((∃ r' ∈ q.rulesWithHead ⟨name, first.width⟩, r.expand.IsVariant r') ↔
          r.width = first.width) ∧
        (r.width ≠ first.width →
          ∃ r' ∈ (Definitions.ofQuery q s.mappings ⟨name, first.width⟩).rules.rules,
            r.expand.IsVariant r') := by
  obtain ⟨-, target, q, u, p, htarget, hq, hu, hp, hplan⟩ := reformulate_eq_ok_iff.mp h
  rw [target?_expand] at htarget
  obtain ⟨first, hfirst, rfl⟩ := Option.map_eq_some_iff.mp htarget
  refine ⟨first, q, u, hfirst, hq, hu, outputArity?_of_unfold hu hp hplan, fun r hr hname => ?_⟩
  have hhead : r.expand.headPredicate? = some ⟨name, r.width⟩ := by
    rw [Rule.headPredicate?_expand, hname]
    rfl
  -- rewriting keeps a variant, which is for the same predicate
  obtain ⟨r', hr', he⟩ :=
    (Ontology.rewrite_saturated hq).start r.expand (List.mem_map_of_mem hr)
  have hv : r.expand.IsVariant r' := Rule.canonical_eq_iff.mp he.symm
  have hhead' : r'.headPredicate? = some ⟨name, r.width⟩ := hv.headPredicate?_eq.trans hhead
  refine ⟨⟨?_, fun hwidth => ?_⟩, fun hwidth => ?_⟩
  · rintro ⟨t, ht, hvt⟩
    have hsame : some ⟨name, r.width⟩ = some (⟨name, first.width⟩ : Symbol) := by
      rw [← hhead, ← hvt.headPredicate?_eq]
      exact Program.headPredicate?_of_mem_rulesWithHead ht
    exact congrArg Symbol.arity (Option.some.inj hsame)
  · refine ⟨r', List.mem_filter.mpr ⟨hr', decide_eq_true ?_⟩, hv⟩
    rw [hhead', hwidth]
  · refine ⟨r', List.mem_append_left _ (List.mem_filter.mpr ⟨hr', decide_eq_true ?_⟩), hv⟩
    rw [hhead']
    exact fun hsame => hwidth (congrArg Symbol.arity (Option.some.inj hsame))

/-- A query for what is related to `k`. -/
def members : List Rule :=
  [⟨some (.plain "q" [.var ⟨"x"⟩]), some [.plain "r" [.var ⟨"x"⟩, .iri "k"]]⟩]

/-- A query for all related pairs, under the same name. -/
def pairs : List Rule :=
  [⟨some (.plain "q" [.var ⟨"x"⟩, .var ⟨"y"⟩]), some [.plain "r" [.var ⟨"x"⟩, .var ⟨"y"⟩]]⟩]

/-- The wildcard in the query for loops stands for one variable.  So the query is for the target,
and the one for pairs is kept as a definition. -/
theorem reformulate_keeps_loops :
    (⟨Ontology.ofRules [], edges, {}⟩ : Reformulator).reformulate ⟨loops.rules ++ pairs⟩ "q" =
        .ok ⟨.node 1 (.projection (.plain "q" [.var ⟨"x"⟩]))
          [.leaf 2 (.data (.plain "s" [.var ⟨"x"⟩, .var ⟨"x"⟩]))], 3⟩ ∧
      ∃ q, (Ontology.ofRules []).rewrite {} (⟨loops.rules ++ pairs⟩ : Program).expand = .ok q ∧
        (∀ r ∈ loops.rules, ∃ r' ∈ q.rulesWithHead ⟨"q", 1⟩, r.expand.IsVariant r') ∧
        ∀ r ∈ pairs, ∃ r' ∈ (Definitions.ofQuery q edges ⟨"q", 1⟩).rules.rules,
          r.expand.IsVariant r' := by
  have h : (⟨Ontology.ofRules [], edges, {}⟩ : Reformulator).reformulate
      ⟨loops.rules ++ pairs⟩ "q" = .ok ⟨.node 1 (.projection (.plain "q" [.var ⟨"x"⟩]))
        [.leaf 2 (.data (.plain "s" [.var ⟨"x"⟩, .var ⟨"x"⟩]))], 3⟩ := by cbv
  obtain ⟨first, q, u, hfirst, hq, -, -, hrules⟩ := reformulate_keeps h
  have hloops : (loops.rules ++ pairs).find? (fun r => r.headName? = some "q") =
      loops.rules.head? := by decide
  obtain rfl := Option.some.inj (hloops.symm.trans hfirst)
  have hwidths : (∀ r ∈ loops.rules, r.headName? = some "q" ∧ r.width = 1) ∧
      ∀ r ∈ pairs, r.headName? = some "q" ∧ r.width ≠ 1 := by decide
  refine ⟨h, q, hq, fun r hr => ?_, fun r hr => ?_⟩
  · obtain ⟨hname, hwidth⟩ := hwidths.1 r hr
    exact (hrules r (List.mem_append_left _ hr) hname).1.mpr hwidth
  · obtain ⟨hname, hwidth⟩ := hwidths.2 r hr
    exact (hrules r (List.mem_append_right _ hr) hname).2 hwidth

/-- Of members and pairs the plan has the members only, although both have the name that is asked
for. -/
theorem reformulate_members_pairs :
    (⟨Ontology.ofRules [], edges, {}⟩ : Reformulator).reformulate ⟨members ++ pairs⟩ "q" =
        .ok ⟨.node 1 (.projection (.plain "q" [.var ⟨"x"⟩]))
          [.leaf 2 (.data (.plain "s" [.var ⟨"x"⟩, .iri "k"]))], 3⟩ ∧
      ∃ r ∈ (⟨members ++ pairs⟩ : Program).expand.rules, r.headPredicate? = some ⟨"q", 2⟩ ∧
        (PlanTree.node 1 (.projection (.plain "q" [.var ⟨"x"⟩]))
          [.leaf 2 (.data (.plain "s" [.var ⟨"x"⟩, .iri "k"]))]).op.outputArity? ≠ some 2 :=
  ⟨by cbv, _, List.mem_cons_of_mem _ (List.mem_cons_self ..), by decide⟩

end Reformulator

end OntoQuery
