import OntoQuery.Proofs.Alternation
import OntoQuery.Proofs.PlanOptimization
import OntoQuery.Reformulation

/-!
# Reformulation is sound and complete

The plan for a query asks the sources only.  Over any facts for source predicates, its answers are
those that follow for the target from these facts by the ontology, the mappings and the query, in
whatever order the rules are used.

* `reformulate_eq_ok_iff`: the stages that a plan goes through.
* `optimize_answers`: optimizing the plan of some rules keeps their answers.
* `reformulate_answers`: all stages together.  If there are facts for the target itself, because a
  mapping asks for it, these facts are no answers of the plan: it answers what a rule of the query
  derives.
* `mem_leastModel_iff_answers`: if no mapping asks for the target, the answers are the tuples of
  which it holds.
-/

namespace OntoQuery

/-- The program with all wildcard heads expanded. -/
def Program.expand (p : Program) : Program := ⟨p.rules.map Rule.expand⟩

theorem Rule.isPlain_expand {r : Rule} (h : ∀ b ∈ r.bodyAtoms, b.isWildcard = false) :
    r.expand.IsPlain := by
  have hbody : r.expand.bodyAtoms = r.bodyAtoms := by rw [bodyAtoms, body_expand, bodyAtoms]
  rw [isPlain_iff, hbody]
  refine ⟨fun a ha => ?_, h⟩
  unfold expand at ha
  split at ha
  · obtain rfl := Option.some.inj ha
    rfl
  · rename_i hhead
    cases a with
    | plain name args => rfl
    | wildcard name => exact absurd ha (hhead name)

/-- An atom with the name of a symbol and as many arguments has this symbol as its predicate. -/
theorem Atom.predicate_plain {p : Symbol} {ts : List Term} (h : ts.length = p.arity) :
    (plain p.name ts).predicate = p := by
  rw [predicate, arity, name, args, h]

/-- Answers of rules without wildcards are ordinary atoms. -/
theorem eq_plain_of_mem_answers {rules : List Rule} (hrules : ∀ r ∈ rules, r.IsPlain)
    {truth facts : Set Atom} {a : Atom} (ha : a ∈ answers rules truth facts) :
    a = .plain a.name a.args := by
  obtain ⟨r, hr, body, ⟨v, hhead, -⟩, -⟩ := ha
  obtain ⟨b, hb, rfl⟩ := Option.map_eq_some_iff.mp hhead
  cases b with
  | plain name args => rfl
  | wildcard name => exact absurd (hrules r hr _ (Or.inl hb)) (by simp [Atom.isWildcard])

namespace Reformulator

variable {cfg : Settings}

/-- Optimizing the plan of a list of rules keeps the answers of the rules. -/
theorem optimize_answers {rules : List Rule} {p plan : Plan} (hp : Plan.ofRules rules = .ok p)
    (h : optimize cfg p = .ok plan) (truth facts : Set Atom) (ts : List Term) :
    plan.root.Answers truth facts ts ↔ ∃ a ∈ answers rules truth facts, a.args = ts := by
  obtain ⟨hnumbered, hquery, hanswers⟩ := Plan.ofRules_eq_ok hp
  rw [← hanswers]
  unfold optimize at h
  split at h
  · split at h
    · rename_i hrun
      obtain rfl := Except.ok.inj h
      exact ((Edit.optimize_eq_ok hnumbered hrun).2.answers hquery truth facts ts).symm
    · exact absurd h (by simp)
  · obtain rfl := Except.ok.inj h
    exact Iff.rfl

/-- A plan is made if and only if all stages end well. -/
theorem reformulate_eq_ok_iff {s : Reformulator} {query : Program} {name : String} {plan : Plan} :
    s.reformulate query name = .ok plan ↔
      query.expand.validate = .ok () ∧ ∃ target q u p,
        target? query.expand name = some target ∧
        s.ontology.rewrite s.settings query.expand = .ok q ∧
        q.unfold s.mappings s.settings target = .ok u ∧ Plan.ofRules u.rules = .ok p ∧
        optimize s.settings p = .ok plan := by
  have hexpand : (⟨query.rules.map Rule.expand⟩ : Program) = query.expand := rfl
  unfold reformulate
  simp only [hexpand, bind_eq_ok, mapError_eq_ok]
  constructor
  · rintro ⟨⟨⟩, hvalid, h⟩
    refine ⟨hvalid, ?_⟩
    cases htarget : target? query.expand name with
    | none =>
      rw [htarget] at h
      exact absurd h (by simp)
    | some target =>
      rw [htarget] at h
      obtain ⟨q, hq, u, hu, p, hp, hplan⟩ := by simpa only [bind_eq_ok, mapError_eq_ok] using h
      exact ⟨target, q, u, p, rfl, hq, hu, hp, hplan⟩
  · rintro ⟨hvalid, target, q, u, p, htarget, hq, hu, hp, hplan⟩
    refine ⟨(), hvalid, ?_⟩
    rw [htarget]
    simp only [bind_eq_ok, mapError_eq_ok]
    exact ⟨q, hq, u, hu, p, hp, hplan⟩

/-- The stages that a plan for a target has gone through. -/
theorem reformulate_eq_ok {s : Reformulator} {query : Program} {name : String} {target : Symbol}
    {plan : Plan} (htarget : target? query.expand name = some target)
    (h : s.reformulate query name = .ok plan) :
    ∃ q u p, s.ontology.rewrite s.settings query.expand = .ok q ∧
      q.unfold s.mappings s.settings target = .ok u ∧ Plan.ofRules u.rules = .ok p ∧
      optimize s.settings p = .ok plan := by
  obtain ⟨-, target', q, u, p, htarget', hstages⟩ := reformulate_eq_ok_iff.mp h
  obtain rfl : target' = target := Option.some.inj (htarget'.symm.trans htarget)
  exact ⟨q, u, p, hstages⟩

section

variable {rs mappings : List Rule} {query : Program} {name : String} {target : Symbol} {plan : Plan}
  {truth facts : Set Atom}

/-- An atom of the target is in the least model if it is given as a fact or a rule of the query for
the target derives it, since there are no other rules for the target. -/
theorem mem_leastModel_target_iff {a : Atom}
    (hheads : ∀ r ∈ rs ++ mappings, r.headPredicate? ≠ some target) (ha : a.predicate = target) :
    a ∈ leastModel (rs ++ mappings ++ query.rules) truth facts ↔
      a ∈ facts ∨ a ∈ answers (query.rulesWithHead target) truth
        (leastModel (rs ++ mappings ++ query.rules) truth facts) := by
  rw [mem_leastModel_iff, mem_answers_rulesWithHead ha]
  refine or_congr_right ⟨?_, fun ha =>
    answers_mono (List.subset_append_right _ _) (Set.Subset.refl _) ha⟩
  rintro ⟨r, hr, hi⟩
  rcases List.mem_append.mp hr with hr | hr
  · obtain ⟨body, hinst, -⟩ := hi
    have hhead := hinst.headPredicate?_eq
    rw [ha] at hhead
    exact absurd hhead (hheads r hr)
  · exact ⟨r, hr, hi⟩

variable (hbuiltin : ∀ r ∈ rs, ∀ s, r.headPredicate? = some s → s.isBuiltin = false)
  (hplain : ∀ r ∈ rs ++ mappings, r.IsPlain)
  (hquery : ∀ r ∈ query.rules, ∀ b ∈ r.bodyAtoms, b.isWildcard = false)
  (hbodies : ∀ m ∈ mappings, ∀ b ∈ m.bodyAtoms, ∀ r ∈ rs, r.headPredicate? ≠ some b.predicate)
  (htarget : target? query.expand name = some target)
  (h : (⟨Ontology.ofRules rs, mappings, cfg⟩ : Reformulator).reformulate query name = .ok plan)
  (hfacts : ∀ a ∈ facts, IsSource mappings
    (query.expand.rules.filter (fun r => r.headPredicate? ≠ some target) ++ mappings) a.predicate)
include hbuiltin hplain hquery hbodies htarget h hfacts

/-- The answers of a plan are what the rules of the query for the target derive. -/
theorem answers_iff_mem_answers (ts : List Term) :
    plan.root.Answers truth facts ts ↔
      .plain target.name ts ∈ answers (query.expand.rulesWithHead target) truth
        (leastModel (rs ++ mappings ++ query.expand.rules) truth facts) := by
  obtain ⟨q, u, p, hq, hu, hp, hplan⟩ := reformulate_eq_ok htarget h
  have hexpand : ∀ r ∈ query.expand.rules, r.IsPlain := by
    intro r hr
    obtain ⟨r₀, hr₀, rfl⟩ := List.mem_map.mp hr
    exact Rule.isPlain_expand (hquery r₀ hr₀)
  have hstages : answers u.rules truth facts =
      answers (query.expand.rulesWithHead target) truth
        (leastModel (rs ++ mappings ++ query.expand.rules) truth facts) :=
    answers_unfold_rewrite (fun r hr => hplain r (List.mem_append_left _ hr))
      (fun r hr => hplain r (List.mem_append_right _ hr)) hexpand hbuiltin hbodies hq hu hfacts
  rw [optimize_answers hp hplan, hstages]
  constructor
  · rintro ⟨a, ha, rfl⟩
    have hname : a.name = target.name := congrArg Symbol.name (predicate_eq_of_mem_answers ha)
    rw [← hname, ← eq_plain_of_mem_answers
      (fun r hr => hexpand r (List.mem_of_mem_filter hr)) ha]
    exact ha
  · exact fun ha => ⟨_, ha, rfl⟩

/-- If no mapping asks for the target, the target holds of a tuple in the least model of all rules
if and only if the tuple is an answer of the plan. -/
theorem mem_leastModel_iff_answers
    (hheads : ∀ r ∈ rs ++ mappings, r.headPredicate? ≠ some target)
    (hasked : ∀ m ∈ mappings, ∀ b ∈ m.bodyAtoms, b.predicate ≠ target)
    {ts : List Term} (hlen : ts.length = target.arity) :
    .plain target.name ts ∈ leastModel (rs ++ mappings ++ query.expand.rules) truth facts ↔
      plan.root.Answers truth facts ts := by
  have hpred := Atom.predicate_plain hlen
  have hanswers : plan.root.Answers truth facts ts ↔ _ :=
    answers_iff_mem_answers hbuiltin hplain hquery hbodies htarget h hfacts ts
  -- facts are about predicates that some mapping asks for
  have hnot : .plain target.name ts ∉ facts := fun hmem => by
    obtain ⟨-, ⟨m, hm, b, hb, heq⟩, -⟩ := hfacts _ hmem
    exact hasked m hm b hb (heq.trans hpred)
  rw [mem_leastModel_target_iff hheads hpred, or_iff_right hnot, hanswers]

end

/-- Reformulation is sound and complete.  Over facts for source predicates, a tuple is an answer of
the plan if and only if a rule of the query for the target derives it from what all rules derive
together; and the target holds of a tuple in the least model of all rules if and only if that is
given as a fact or is an answer of the plan. -/
theorem reformulate_answers {rs mappings : List Rule} {query : Program} {name : String}
    {target : Symbol} {plan : Plan}
    (hbuiltin : ∀ r ∈ rs, ∀ s, r.headPredicate? = some s → s.isBuiltin = false)
    (hplain : ∀ r ∈ rs ++ mappings, r.IsPlain)
    (hquery : ∀ r ∈ query.rules, ∀ b ∈ r.bodyAtoms, b.isWildcard = false)
    (hheads : ∀ r ∈ rs ++ mappings, r.headPredicate? ≠ some target)
    (hbodies : ∀ m ∈ mappings, ∀ b ∈ m.bodyAtoms, ∀ r ∈ rs, r.headPredicate? ≠ some b.predicate)
    (htarget : target? query.expand name = some target)
    (h : (⟨Ontology.ofRules rs, mappings, cfg⟩ : Reformulator).reformulate query name = .ok plan)
    {truth facts : Set Atom}
    (hfacts : ∀ a ∈ facts, IsSource mappings
      (query.expand.rules.filter (fun r => r.headPredicate? ≠ some target) ++ mappings) a.predicate)
    (ts : List Term) :
    (plan.root.Answers truth facts ts ↔
      .plain target.name ts ∈ answers (query.expand.rulesWithHead target) truth
        (leastModel (rs ++ mappings ++ query.expand.rules) truth facts)) ∧
    (ts.length = target.arity →
      (.plain target.name ts ∈ leastModel (rs ++ mappings ++ query.expand.rules) truth facts ↔
        .plain target.name ts ∈ facts ∨ plan.root.Answers truth facts ts)) := by
  have hanswers : plan.root.Answers truth facts ts ↔ _ :=
    answers_iff_mem_answers hbuiltin hplain hquery hbodies htarget h hfacts ts
  refine ⟨hanswers, fun hlen => ?_⟩
  rw [mem_leastModel_target_iff hheads (Atom.predicate_plain hlen), hanswers]

/-- An ontology that makes a relation symmetric. -/
def symmetry : List Rule :=
  [⟨some (.plain "r" [.var ⟨"x"⟩, .var ⟨"y"⟩]), some [.plain "r" [.var ⟨"y"⟩, .var ⟨"x"⟩]]⟩]

/-- A mapping that takes the relation from a source. -/
def edges : List Rule :=
  [⟨some (.plain "r" [.var ⟨"x"⟩, .var ⟨"y"⟩]), some [.plain "s" [.var ⟨"x"⟩, .var ⟨"y"⟩]]⟩]

/-- The query for all loops of the relation, with a wildcard head. -/
def loops : Program := ⟨[⟨some (.wildcard "q"), some [.plain "r" [.var ⟨"x"⟩, .var ⟨"x"⟩]]⟩]⟩

theorem reformulate_loops :
    (⟨Ontology.ofRules symmetry, edges, {}⟩ : Reformulator).reformulate loops "q" =
      .ok ⟨.node 1 (.projection (.plain "q" [.var ⟨"x"⟩]))
        [.leaf 2 (.data (.plain "s" [.var ⟨"x"⟩, .var ⟨"x"⟩]))], 3⟩ := by cbv

/-- The plan for the query fetches the loops of the source, and with a loop at `k` given, it answers
`k` if and only if `q(k)` follows. -/
theorem reformulate_answers_loops :
    (⟨Ontology.ofRules symmetry, edges, {}⟩ : Reformulator).reformulate loops "q" =
      .ok ⟨.node 1 (.projection (.plain "q" [.var ⟨"x"⟩]))
        [.leaf 2 (.data (.plain "s" [.var ⟨"x"⟩, .var ⟨"x"⟩]))], 3⟩ ∧
    ∀ truth : Set Atom,
      .plain "q" [.iri "k"] ∈
          leastModel (symmetry ++ edges ++ loops.expand.rules) truth
            {.plain "s" [.iri "k", .iri "k"]} ↔
        .plain "q" [.iri "k"] ∈ ({.plain "s" [.iri "k", .iri "k"]} : Set Atom) ∨
          (PlanTree.node 1 (.projection (.plain "q" [.var ⟨"x"⟩]))
            [.leaf 2 (.data (.plain "s" [.var ⟨"x"⟩, .var ⟨"x"⟩]))]).Answers truth
              {.plain "s" [.iri "k", .iri "k"]} [.iri "k"] := by
  refine ⟨reformulate_loops, fun truth => ?_⟩
  have hfacts : ∀ a ∈ ({.plain "s" [.iri "k", .iri "k"]} : Set Atom), IsSource edges
      (loops.expand.rules.filter (fun r => r.headPredicate? ≠ some ⟨"q", 1⟩) ++ edges)
        a.predicate := by
    rintro a rfl
    decide
  exact (reformulate_answers (by decide) (by decide) (by decide) (by decide) (by decide) (by decide)
    reformulate_loops hfacts [.iri "k"]).2 rfl

end Reformulator

end OntoQuery
