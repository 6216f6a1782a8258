import OntoQuery.Proofs.Conditions
import OntoQuery.Proofs.Reformulation
import OntoQuery.Proofs.RulePlans

/-!
# Safety is kept

A rule is *safe* if every variable of its head occurs in its body, which is what `Rule.validate`
asks for: a wildcard head has no variables of its own, and the body of a fact has none either.

Resolution takes away an atom that may be the only one with some head variable.  Under the unifier
this atom has the same terms as the head of the definition, and as the definition is safe, what is
in these terms occurs in its body, which has been put in the place of the atom
(`Rule.IsSafe.resolvent`).  So all rules that are derived from safe rules with safe definitions are
safe, and since a plan for a rule mentions all of its body below the projection, no projection asks
for a variable that nothing below it provides.

* `Derivation.isSafe`: derived rules are safe.
* `safety_kept`: so is everything that rewriting and unfolding hand out, and every plan.
-/

namespace OntoQuery

namespace Rule

/-- Whether every variable of the head occurs in the body. -/
def IsSafe (r : Rule) : Prop := r.headVars ⊆ r.bodyVars

variable {r d : Rule} {i : Nat}

/-- Validation accepts exactly the safe rules. -/
theorem validate_eq_ok : r.validate = .ok () ↔ r.IsSafe := by
  obtain ⟨head, body⟩ := r
  unfold validate IsSafe headVars
  cases head with
  | none => simp
  | some a =>
    cases a with
    | wildcard name => simp [Atom.vars, Atom.args]
    | plain name args =>
      cases body with
      | none =>
        cases hargs : Term.varsList args <;>
          simp [isFact, bodyVars, bodyAtoms, Atom.vars, Atom.args, hargs]
      | some atoms =>
        simp only [isFact, Option.isNone_some, Bool.false_eq_true, if_false, Option.elim_some,
          Atom.vars, Atom.args]
        cases hfind : (Term.varsList args).find? (· ∉ bodyVars ⟨_, some atoms⟩) with
        | none =>
          simp only [true_iff]
          intro x hx
          simpa using List.find?_eq_none.mp hfind x hx
        | some x =>
          have hx := List.find?_some hfind
          simp only [reduceCtorEq, false_iff]
          exact fun hsub => absurd (hsub (List.mem_of_find?_eq_some hfind)) (by simpa using hx)

theorem mem_bodyVars {x : Var} : x ∈ r.bodyVars ↔ ∃ a ∈ r.bodyAtoms, x ∈ a.vars :=
  List.mem_flatMap

theorem mem_headVars_bind {f : Var → Term} {y : Var} :
    y ∈ (r.bind f).headVars ↔ ∃ x ∈ r.headVars, y ∈ (f x).vars := by
  unfold headVars bind
  cases r.head with
  | none => simp
  | some a => exact Atom.mem_vars_bind

theorem mem_bodyVars_bind {f : Var → Term} {y : Var} :
    y ∈ (r.bind f).bodyVars ↔ ∃ x ∈ r.bodyVars, y ∈ (f x).vars := by
  rw [mem_bodyVars, bodyAtoms_bind]
  constructor
  · rintro ⟨b, hb, hy⟩
    obtain ⟨a, ha, rfl⟩ := List.mem_map.mp hb
    obtain ⟨x, hx, hyx⟩ := Atom.mem_vars_bind.mp hy
    exact ⟨x, mem_bodyVars.mpr ⟨a, ha, hx⟩, hyx⟩
  · rintro ⟨x, hx, hyx⟩
    obtain ⟨a, ha, hxa⟩ := mem_bodyVars.mp hx
    exact ⟨_, List.mem_map_of_mem ha, Atom.mem_vars_bind.mpr ⟨x, hxa, hyx⟩⟩

theorem IsSafe.bind (h : r.IsSafe) (f : Var → Term) : (r.bind f).IsSafe := by
  intro y hy
  obtain ⟨x, hx, hyx⟩ := mem_headVars_bind.mp hy
  exact mem_bodyVars_bind.mpr ⟨x, h hx, hyx⟩

/-- Resolving a safe rule with a safe definition gives a safe rule. -/
theorem IsSafe.resolvent (hr : r.IsSafe) (hd : d.IsSafe) {a head : Atom} {m : Renaming}
    {u : Substitution} (ha : r.bodyAtoms[i]? = some a) (hhead : d.head = some head)
    (hu : unifyAtoms (m.applyAtom head) a = some u) :
    (u.applyRule (r.splice i (m.applyRule d).bodyAtoms)).IsSafe := by
  intro y hy
  obtain ⟨x, hx, hyx⟩ := mem_headVars_bind.mp hy
  obtain ⟨b, hb, hxb⟩ := mem_bodyVars.mp (hr hx)
  refine mem_bodyVars_bind.mpr ?_
  by_cases hba : b = a
  · -- the atom is gone, but under the unifier it has the variables of the head of the definition
    have hargs : ((m.applyAtom head).bind u.lookup).vars = (a.bind u.lookup).vars := by
      rw [Atom.vars, Atom.vars, Atom.args_bind, Atom.args_bind, map_args_eq_of_unifyAtoms hu]
    have hya : y ∈ ((m.applyAtom head).bind u.lookup).vars := by
      rw [hargs, ← hba]
      exact Atom.mem_vars_bind.mpr ⟨x, hxb, hyx⟩
    obtain ⟨z, hz, hyz⟩ := Atom.mem_vars_bind.mp hya
    have hzhead : z ∈ (m.applyRule d).headVars := by
      rwa [Renaming.applyRule, Rule.bind, headVars, hhead]
    obtain ⟨c, hc, hzc⟩ := mem_bodyVars.mp (hd.bind _ hzhead)
    exact ⟨z, mem_bodyVars.mpr ⟨c, List.mem_append_left _ (List.mem_append_right _ hc), hzc⟩, hyz⟩
  · exact ⟨x, mem_bodyVars.mpr ⟨b, mem_bodyAtoms_splice_of_ne ha hb hba, hxb⟩, hyx⟩

end Rule

/-- What is derived from a safe rule with safe definitions is safe. -/
theorem Derivation.isSafe {steps : Rule → List (Nat × Rule)} {r₀ r : Rule} {used : List Rule}
    {s : Substitution} (h : Derivation steps r₀ used s r) (hstart : r₀.IsSafe)
    (hsteps : ∀ r, ∀ step ∈ steps r, step.2.IsSafe) : r.IsSafe := by
  induction h with
  | start => exact hstart
  | step _ hs _ ha hd hu ih => exact ih.resolvent (hsteps _ _ hs) ha hd hu

theorem Traced.isSafe {roots : List Rule} {steps : Rule → List (Nat × Rule)} {g : FreshVars}
    {r : Rule} (h : Traced roots steps g r) (hroots : ∀ r ∈ roots, r.IsSafe)
    (hsteps : ∀ r, ∀ step ∈ steps r, step.2.IsSafe) : r.IsSafe := by
  obtain ⟨r₀, hr₀, used, s, hderivation, -⟩ := h
  exact hderivation.isSafe (hroots r₀ hr₀) hsteps

section

variable {rs mappings : List Rule} {cfg : Settings} {p q : Program} {target : Symbol}

theorem rewrite_isSafe (hrs : ∀ r ∈ rs, r.IsSafe) (hp : ∀ r ∈ p.rules, r.IsSafe)
    (h : RewritingError.program? ((Ontology.ofRules rs).rewrite cfg p) = some q) :
    ∀ r ∈ q.rules, r.IsSafe := by
  intro r hr
  obtain ⟨g, htraced⟩ := Ontology.rewrite_traced h hr
  refine htraced.isSafe hp fun r step hstep => ?_
  obtain ⟨-, -, hd, -⟩ := Ontology.mem_steps.mp hstep
  exact hrs _ (List.mem_of_mem_filter hd)

theorem unfold_isSafe (hmappings : ∀ r ∈ mappings, r.IsSafe) (hp : ∀ r ∈ p.rules, r.IsSafe)
    (h : RewritingError.program? (p.unfold mappings cfg target) = some q) :
    ∀ r ∈ q.rules, r.IsSafe := by
  intro r hr
  obtain ⟨g, htraced⟩ := unfold_traced h hr
  refine htraced.isSafe (fun s hs => hp s (List.mem_of_mem_filter hs)) fun r step hstep => ?_
  rcases List.mem_append.mp (Definitions.of_mem_steps hstep).1 with hd | hd
  · exact hp _ (List.mem_of_mem_filter hd)
  · exact hmappings _ hd

/-- In the plan of safe rules, what is below a projection mentions all variables of its head. -/
theorem Plan.exists_mentions_of_projection {p : Plan} (hp : Plan.ofRules rs = .ok p)
    (hrs : ∀ r ∈ rs, r.IsSafe) {t : PlanTree} (ht : t ∈ p.nodes) {head : Atom}
    (hop : t.op = .projection head) {x : Var} (hx : x ∈ head.vars) :
    ∃ c ∈ t.children, ∃ s ∈ c.nodes, ∃ a, s.Mentions a ∧ x ∈ a.vars := by
  obtain ⟨r, hr, hhead, c, hc, hbody⟩ := Plan.exists_rule_of_projection hp ht hop
  have hxr : x ∈ r.headVars := by rwa [Rule.headVars, hhead]
  obtain ⟨b, hb, hxb⟩ := Rule.mem_bodyVars.mp (hrs r hr hxr)
  obtain ⟨s, hs, hsb⟩ := hbody b hb
  exact ⟨c, hc, s, hs, b, hsb, hxb⟩

/-- Let all rules of an ontology and all mappings be valid.  Then rewriting and unfolding turn valid
rules into valid rules, in what they return and in what their errors carry, for all settings and
targets.  In every plan that reformulation makes, each variable of the head of a projection occurs
below it, in an atom that is fetched or in a condition of a filter. -/
theorem safety_kept (hrs : ∀ r ∈ rs, r.validate = .ok ())
    (hmappings : ∀ r ∈ mappings, r.validate = .ok ()) (cfg : Settings) :
    (∀ p q : Program, (∀ r ∈ p.rules, r.validate = .ok ()) →
      RewritingError.program? ((Ontology.ofRules rs).rewrite cfg p) = some q →
        ∀ r ∈ q.rules, r.validate = .ok ()) ∧
    (∀ (p q : Program) (target : Symbol), (∀ r ∈ p.rules, r.validate = .ok ()) →
      RewritingError.program? (p.unfold mappings cfg target) = some q →
        ∀ r ∈ q.rules, r.validate = .ok ()) ∧
    ∀ (query : Program) (name : String) (plan : Plan),
      (⟨Ontology.ofRules rs, mappings, cfg⟩ : Reformulator).reformulate query name = .ok plan →
        ∀ t ∈ plan.nodes, ∀ head, t.op = .projection head → ∀ x ∈ head.vars,
          ∃ c ∈ t.children, ∃ s ∈ c.nodes, ∃ a, s.Mentions a ∧ x ∈ a.vars := by
  simp only [Rule.validate_eq_ok] at hrs hmappings ⊢
  refine ⟨fun p q hp h => rewrite_isSafe hrs hp h, fun p q target hp h =>
    unfold_isSafe hmappings hp h, fun query name plan h t ht head hop x hx => ?_⟩
  obtain ⟨hvalid, target, q, u, p, -, hq, hu, hp, hplan⟩ := Reformulator.reformulate_eq_ok_iff.mp h
  have hquery : ∀ r ∈ query.expand.rules, r.IsSafe := fun r hr =>
    Rule.validate_eq_ok.mp (forM_eq_ok.mp hvalid r hr)
  have hrewritten := rewrite_isSafe hrs hquery
    (show RewritingError.program? _ = some q from congrArg RewritingError.program? hq)
  have hunfolded := unfold_isSafe hmappings hrewritten
    (show RewritingError.program? _ = some u from congrArg RewritingError.program? hu)
  obtain ⟨hsub, -⟩ := Reformulator.optimize_ofRules hp hplan
  exact Plan.exists_mentions_of_projection hp hunfolded (hsub ht) hop hx

end

/-- Things that are related are named after what the source has. -/
def namedThings : List Rule :=
  [⟨some (.plain "r" [.app "f" [.var ⟨"y"⟩]]), some [.plain "s" [.var ⟨"y"⟩]]⟩]

/-- A query for all things that are related. -/
def anyRelated : Program :=
  ⟨[⟨some (.plain "q" [.var ⟨"x"⟩]), some [.plain "r" [.var ⟨"x"⟩]]⟩]⟩

/-- Unfolding the query puts a term with another variable into its head.  The variable occurs in the
body, and in the plan it occurs in the atom that is fetched. -/
theorem safety_kept_named :
    anyRelated.unfold namedThings {} ⟨"q", 1⟩ = .ok ⟨[⟨some (.plain "q" [.app "f" [.var ⟨"_v0"⟩]]),
      some [.plain "s" [.var ⟨"_v0"⟩]]⟩]⟩ ∧
    Rule.validate ⟨some (.plain "q" [.app "f" [.var ⟨"_v0"⟩]]),
      some [.plain "s" [.var ⟨"_v0"⟩]]⟩ = .ok () ∧
    (⟨Ontology.ofRules [], namedThings, {}⟩ : Reformulator).reformulate anyRelated "q" =
      .ok ⟨.node 1 (.projection (.plain "q" [.app "f" [.var ⟨"_v0"⟩]]))
        [.leaf 2 (.data (.plain "s" [.var ⟨"_v0"⟩]))], 3⟩ ∧
    ∃ c ∈ [PlanTree.leaf 2 (.data (.plain "s" [.var ⟨"_v0"⟩]))], ∃ s ∈ c.nodes, ∃ a,
      s.Mentions a ∧ ⟨"_v0"⟩ ∈ a.vars := by
  have hunfold : anyRelated.unfold namedThings {} ⟨"q", 1⟩ =
      .ok ⟨[⟨some (.plain "q" [.app "f" [.var ⟨"_v0"⟩]]), some [.plain "s" [.var ⟨"_v0"⟩]]⟩]⟩ := by
    cbv
  have hplan : (⟨Ontology.ofRules [], namedThings, {}⟩ : Reformulator).reformulate anyRelated "q" =
      .ok ⟨.node 1 (.projection (.plain "q" [.app "f" [.var ⟨"_v0"⟩]]))
        [.leaf 2 (.data (.plain "s" [.var ⟨"_v0"⟩]))], 3⟩ := by cbv
  obtain ⟨-, hrules, hplans⟩ := @safety_kept [] namedThings (by decide) (by decide) {}
  refine ⟨hunfold, ?_, hplan, ?_⟩
  · exact hrules anyRelated _ ⟨"q", 1⟩ (by decide) (by rw [hunfold]; rfl) _
      (List.mem_singleton_self _)
  · exact hplans anyRelated "q" _ hplan _ (PlanTree.self_mem_nodes _) _ rfl ⟨"_v0"⟩ (by decide)

end OntoQuery
