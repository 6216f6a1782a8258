import OntoQuery.Proofs.Dependence
import OntoQuery.Proofs.Saturation
import OntoQuery.Proofs.UnfoldingTree

/-!
# All ontology steps can come first

A derivation may use ontology rules, mappings and the rules of the query in any order.  Rewriting
makes all ontology steps before any mapping is used, and unfolding keeps the rules for the target
out of the definitions.  Neither loses an answer.

* `leastModel_append_subset`: what all rules derive together, the ontology derives from what the
  rewritten rules and the mappings derive.  This needs that the ontology derives nothing that a
  mapping asks for.
* `holds_of_definitions`: as nothing below the target depends on it, the rules for it are not needed
  to derive their bodies.
* `answers_unfold_rewrite`: the result of both stages has the answers of the rules for the target
  over the least model of all rules.
-/

namespace OntoQuery

section

variable {rs mappings : List Rule} {cfg : Settings} {p q u : Program} {target : Symbol}
  {truth facts : Set Atom}

/-- The head predicates of rewritten rules are those of the rules of the program. -/
theorem exists_headPredicate?_eq_of_rewrite (h : (Ontology.ofRules rs).rewrite cfg p = .ok q)
    {r : Rule} (hr : r ∈ q.rules) : ∃ r₀ ∈ p.rules, r.headPredicate? = r₀.headPredicate? :=
  ((Ontology.rewrite_saturated h).reached r hr).exists_headPredicate?_eq

/-! ## Soundness -/

/-- Over the least model of all rules, rewritten rules only have answers of the program. -/
theorem answers_rewrite_subset (hrs : ∀ r ∈ rs, r.IsPlain)
    (hbuiltin : ∀ r ∈ rs, ∀ s, r.headPredicate? = some s → s.isBuiltin = false)
    (hp : ∀ r ∈ p.rules, r.IsPlain) (h : (Ontology.ofRules rs).rewrite cfg p = .ok q)
    {m : Set Atom} (hm : answers rs truth m ⊆ m) :
    answers q.rules truth m ⊆ answers p.rules truth m := by
  rintro a ⟨r, hr, body, hi, hb⟩
  have hsteps : ∀ r, ∀ step ∈ (Ontology.ofRules rs).steps r, step.2 ∈ rs ∧ step.2.IsPlain ∧
      ∀ s, step.2.headPredicate? = some s → s.isBuiltin = false := by
    rintro r ⟨i, d⟩ hstep
    obtain ⟨-, -, hd, -⟩ := Ontology.mem_steps.mp hstep
    have hmem := List.filter_subset_self rs hd
    exact ⟨hmem, hrs d hmem, hbuiltin d hmem⟩
  exact ((Ontology.rewrite_saturated h).reached r hr).answers_subset hp hsteps hm hi hb

/-! ## Completeness -/

/-- What all rules derive together, the ontology derives from what the rewritten rules and the
mappings derive. -/
theorem leastModel_append_subset (hrs : ∀ r ∈ rs, r.IsPlain)
    (hbuiltin : ∀ r ∈ rs, ∀ s, r.headPredicate? = some s → s.isBuiltin = false)
    (hbodies : ∀ m ∈ mappings, ∀ b ∈ m.bodyAtoms, ∀ r ∈ rs, r.headPredicate? ≠ some b.predicate)
    (hp : ∀ r ∈ p.rules, r.IsPlain) (h : (Ontology.ofRules rs).rewrite cfg p = .ok q) :
    leastModel (rs ++ mappings ++ p.rules) truth facts ⊆
      leastModel rs truth (leastModel (q.rules ++ mappings) truth facts) := by
  refine leastModel_subset (subset_leastModel.trans subset_leastModel) ?_
  rintro a ⟨r, hr, body, hi, hb⟩
  rcases List.mem_append.mp hr with hr | hr
  · rcases List.mem_append.mp hr with hr | hr
    · exact answers_leastModel_subset ⟨r, hr, body, hi, hb⟩
    · -- the ontology derives no atom of a mapping body, so the mapping applies without it
      refine subset_leastModel (answers_leastModel_subset
        ⟨r, List.mem_append_right _ hr, body, hi, fun b hbm => (hb b hbm).mono fun _ hf => ?_⟩)
      rcases mem_leastModel_iff.mp hf with hf | ⟨s, hs, _, hsi, -⟩
      · exact hf
      · obtain ⟨v, -, rfl⟩ := hi
        obtain ⟨c, hc, rfl⟩ := List.mem_map.mp hbm
        have hhead := hsi.headPredicate?_eq
        rw [Atom.predicate_bind] at hhead
        exact absurd hhead (hbodies r hr c hc s hs)
  · have ha : a ∈ answers q.rules truth (leastModel (q.rules ++ mappings) truth facts) := by
      rw [(Ontology.rewrite_saturated h).answers_eq_of_ofRules hrs hbuiltin hp]
      exact ⟨r, hr, body, hi, hb⟩
    exact subset_leastModel (answers_leastModel_subset
      (answers_mono (List.subset_append_left _ _) (Set.Subset.refl _) ha))

/-- What holds in the body of a rule for the target follows from the definitions alone. -/
theorem holds_of_definitions (h : q.unfold mappings cfg target = .ok u) {r : Rule}
    (hr : r ∈ q.rulesWithHead target) {v : Valuation} {c : Atom} (hc : c ∈ r.bodyAtoms)
    (hv : (c.bind v).Holds truth (leastModel (q.rules ++ mappings) truth facts)) :
    (c.bind v).Holds truth
      (leastModel (Definitions.ofQuery q mappings target).rules.rules truth facts) := by
  obtain ⟨hcycles, -⟩ := unfold_eq_ok h
  have hhead : r.headPredicate? = some target := by simpa using (List.mem_filter.mp hr).2
  generalize hall : q.rulesWithHead target ++
    (Definitions.ofQuery q mappings target).rules.rules = all at hcycles
  have hself := DependencyGraph.not_dependsOn_self
    (hall ▸ List.mem_append_left _ hr) hhead hcycles
  -- every rule for a predicate below the target is a definition, as that is not the target itself
  have hclosed : ∀ s ∈ q.rules ++ mappings, ∀ x ∈ {x | Relation.TransGen (DependsOn all) target x},
      s.headPredicate? = some x → s ∈ (Definitions.ofQuery q mappings target).rules.rules ∧
        ∀ b ∈ s.bodyAtoms, b.isBuiltin = false →
          b.predicate ∈ {x | Relation.TransGen (DependsOn all) target x} := by
    intro s hs x hx hsx
    have hne : x ≠ target := fun he => hself (he ▸ hx)
    have hdef : s ∈ (Definitions.ofQuery q mappings target).rules.rules := by
      rcases List.mem_append.mp hs with hs | hs
      · refine List.mem_append_left _ (List.mem_filter.mpr ⟨hs, ?_⟩)
        rw [decide_eq_true_eq, hsx]
        exact fun he => hne (Option.some.inj he)
      · exact List.mem_append_right _ hs
    refine ⟨hdef, fun b hb hbb => Relation.TransGen.tail hx ⟨s, ?_, hsx, b, hb, hbb, rfl⟩⟩
    rw [← hall]
    exact List.mem_append_right _ hdef
  refine hv.mono fun hcb hf => mem_leastModel_of_closed hclosed hf ?_
  rw [Atom.isBuiltin_bind] at hcb
  rw [Atom.predicate_bind]
  refine Relation.TransGen.single ⟨r, ?_, hhead, c, hc, hcb, rfl⟩
  rw [← hall]
  exact List.mem_append_left _ hr

/-! ## Both stages -/

theorem mem_answers_rulesWithHead {m : Set Atom} {a : Atom} (ha : a.predicate = target) :
    a ∈ answers (p.rulesWithHead target) truth m ↔ a ∈ answers p.rules truth m := by
  constructor
  · exact fun h => answers_mono (List.filter_subset_self _) (Set.Subset.refl _) h
  · rintro ⟨r, hr, body, hi, hb⟩
    refine ⟨r, List.mem_filter.mpr ⟨hr, ?_⟩, body, hi, hb⟩
    rw [decide_eq_true_eq, hi.headPredicate?_eq, ha]

theorem predicate_eq_of_mem_answers {m : Set Atom} {a : Atom}
    (ha : a ∈ answers (p.rulesWithHead target) truth m) : a.predicate = target := by
  obtain ⟨r, hr, body, hi, -⟩ := ha
  have hhead : r.headPredicate? = some target := by simpa using (List.mem_filter.mp hr).2
  exact Option.some.inj (hi.headPredicate?_eq.symm.trans hhead)

/-- Facts for source predicates of the program are admitted after rewriting as well. -/
theorem admits_of_rewrite (h : (Ontology.ofRules rs).rewrite cfg p = .ok q)
    (hfacts : ∀ a ∈ facts, IsSource mappings
      (p.rules.filter (fun r => r.headPredicate? ≠ some target) ++ mappings) a.predicate) :
    (Definitions.ofQuery q mappings target).Admits facts := by
  refine admits_of_isSource fun a ha => ?_
  obtain ⟨hbuiltin, hmapped, hnone⟩ := hfacts a ha
  refine ⟨hbuiltin, hmapped, fun r hr => ?_⟩
  rcases List.mem_append.mp hr with hr | hr
  · obtain ⟨hr, hne⟩ := List.mem_filter.mp hr
    obtain ⟨r₀, hr₀, he⟩ := exists_headPredicate?_eq_of_rewrite h hr
    rw [he] at hne ⊢
    exact hnone r₀ (List.mem_append_left _ (List.mem_filter.mpr ⟨hr₀, hne⟩))
  · exact hnone r (List.mem_append_right _ hr)

/-- Rewriting and unfolding together are sound and complete for the target. -/
theorem answers_unfold_rewrite (hrs : ∀ r ∈ rs, r.IsPlain) (hmappings : ∀ m ∈ mappings, m.IsPlain)
    (hp : ∀ r ∈ p.rules, r.IsPlain)
    (hbuiltin : ∀ r ∈ rs, ∀ s, r.headPredicate? = some s → s.isBuiltin = false)
    (hbodies : ∀ m ∈ mappings, ∀ b ∈ m.bodyAtoms, ∀ r ∈ rs, r.headPredicate? ≠ some b.predicate)
    (hrewrite : (Ontology.ofRules rs).rewrite cfg p = .ok q)
    (hunfold : q.unfold mappings cfg target = .ok u)
    (hfacts : ∀ a ∈ facts, IsSource mappings
      (p.rules.filter (fun r => r.headPredicate? ≠ some target) ++ mappings) a.predicate) :
    answers u.rules truth facts =
      answers (p.rulesWithHead target) truth
        (leastModel (rs ++ mappings ++ p.rules) truth facts) := by
  have hq : ∀ r ∈ q.rules, r.IsPlain := fun r hr =>
    ((Ontology.rewrite_saturated hrewrite).reached r hr).isPlain hp fun r s hs => by
      obtain ⟨-, -, hd, -⟩ := Ontology.mem_steps.mp hs
      exact hrs _ (List.filter_subset_self rs hd)
  have hclosed : answers (rs ++ mappings ++ p.rules) truth
      (leastModel (rs ++ mappings ++ p.rules) truth facts) ⊆
        leastModel (rs ++ mappings ++ p.rules) truth facts := answers_leastModel_subset
  have hrewritten : answers q.rules truth (leastModel (rs ++ mappings ++ p.rules) truth facts) ⊆
      answers p.rules truth (leastModel (rs ++ mappings ++ p.rules) truth facts) :=
    answers_rewrite_subset hrs hbuiltin hp hrewrite ((answers_mono (fun r hr =>
      List.mem_append_left _ (List.mem_append_left _ hr)) (Set.Subset.refl _)).trans hclosed)
  apply Set.Subset.antisymm
  · intro a ha
    have ha := unfold_answers_subset hunfold hq hmappings ha
    have hpred := predicate_eq_of_mem_answers ha
    have hdefs : leastModel (Definitions.ofQuery q mappings target).rules.rules truth facts ⊆
        leastModel (rs ++ mappings ++ p.rules) truth facts := by
      refine leastModel_subset subset_leastModel ?_
      rintro b ⟨r, hr, hi⟩
      rcases List.mem_append.mp hr with hr | hr
      · exact hclosed (answers_mono (List.subset_append_right _ _) (Set.Subset.refl _)
          (hrewritten ⟨r, List.mem_of_mem_filter hr, hi⟩))
      · exact hclosed ⟨r, List.mem_append_left _ (List.mem_append_right _ hr), hi⟩
    rw [mem_answers_rulesWithHead hpred]
    exact hrewritten (answers_mono (List.filter_subset_self _) hdefs ha)
  · intro a ha
    have hpred := predicate_eq_of_mem_answers ha
    have hmodel : leastModel (rs ++ mappings ++ p.rules) truth facts ⊆
        leastModel rs truth (leastModel (q.rules ++ mappings) truth facts) :=
      leastModel_append_subset hrs hbuiltin hbodies hp hrewrite
    have ha : a ∈ answers q.rules truth (leastModel (q.rules ++ mappings) truth facts) := by
      rw [(Ontology.rewrite_saturated hrewrite).answers_eq_of_ofRules hrs hbuiltin hp]
      exact answers_mono (List.filter_subset_self _) hmodel ha
    rw [← mem_answers_rulesWithHead hpred] at ha
    obtain ⟨r, hr, body, hi, hb⟩ := ha
    refine answers_subset_unfold hunfold (admits_of_rewrite hrewrite hfacts)
      ⟨r, hr, body, hi, fun b hbm => ?_⟩
    obtain ⟨v, -, rfl⟩ := hi
    obtain ⟨c, hc, rfl⟩ := List.mem_map.mp hbm
    exact holds_of_definitions hunfold hr hc (hb _ hbm)

end

end OntoQuery
