import Mathlib.Logic.Hydra
import Mathlib.Tactic.Abel
import OntoQuery.Proofs.Dependence
import OntoQuery.Proofs.UnfoldingLeaves

/-!
# Unfolding ends if and only if there is no recursion

Unfolding reports a predicate if it is on a cycle of dependencies that can be reached from the
target.  If there is no such predicate, then the trees of resolvents are finite, and unfolding ends
well as soon as the bounds are large enough for them.

The trees may be much deeper than the longest chain of dependencies, since each resolution step
exchanges one atom for several.  A rule *demands* the predicates of its body atoms, with their
multiplicities.  A step takes one predicate out of this multiset and puts in those that it depends
on (`Rule.demands_resolve`), which are lower; and one cannot go on in this way for ever.

* `Definitions.exists_isDeeper_eq_false`: the tree below a rule is finite if what it demands can be
  ranked.
* `Definitions.leaves_eq_of_le`: a finite tree has the same leaves at all greater depths.
* `unfold_cycles`: what unfolding reports, and that it ends well if there is nothing to report.
-/

namespace OntoQuery

/-! ## What a rule demands -/

/-- The predicates of atoms that are not built in. -/
def demanded (atoms : List Atom) : Multiset Symbol :=
  ((atoms.filter fun a => !a.isBuiltin).map Atom.predicate : List Symbol)

theorem mem_demanded {atoms : List Atom} {p : Symbol} :
    p ∈ demanded atoms ↔ ∃ a ∈ atoms, a.isBuiltin = false ∧ a.predicate = p := by
  simp [demanded, and_assoc]

theorem demanded_append (l m : List Atom) : demanded (l ++ m) = demanded l + demanded m := by
  rw [demanded, List.filter_append, List.map_append, ← Multiset.coe_add, demanded, demanded]

theorem demanded_singleton {a : Atom} (ha : a.isBuiltin = false) :
    demanded [a] = {a.predicate} := by
  rw [demanded, List.filter_cons_of_pos (by simp [ha])]
  rfl

/-- A replacement of variables changes no predicate. -/
theorem demanded_map_bind (f : Var → Term) (l : List Atom) :
    demanded (l.map (Atom.bind f)) = demanded l := by
  have hbuiltin : (fun a : Atom => !a.isBuiltin) ∘ Atom.bind f = fun a => !a.isBuiltin := by
    funext a
    rw [Function.comp_apply, Atom.isBuiltin_bind]
  have hpredicate : Atom.predicate ∘ Atom.bind f = Atom.predicate :=
    funext fun a => Atom.predicate_bind f a
  rw [demanded, List.filter_map, List.map_map, hbuiltin, hpredicate, demanded]

/-- The predicates that a rule demands. -/
def Rule.demands (r : Rule) : Multiset Symbol := demanded r.bodyAtoms

/-- Resolution exchanges the predicate of an atom for those that the definition demands. -/
theorem Rule.demands_resolve {r r' d : Rule} {i : Nat} {g : FreshVars} {a : Atom}
    (ha : r.bodyAtoms[i]? = some a) (hb : a.isBuiltin = false)
    (h : (r.resolve i d g).1 = some r') : r'.demands + {a.predicate} = r.demands + d.demands := by
  obtain ⟨-, -, u, -, -, -, rfl⟩ := resolve_eq_some.mp h
  obtain ⟨hlt, hget⟩ := List.getElem?_eq_some_iff.mp ha
  have hbody : r.bodyAtoms = r.bodyAtoms.take i ++ ([a] ++ r.bodyAtoms.drop (i + 1)) := by
    rw [← hget, List.singleton_append, List.getElem_cons_drop, List.take_append_drop]
  have hdemands : r.demands = demanded (r.bodyAtoms.take i) + ({a.predicate} +
      demanded (r.bodyAtoms.drop (i + 1))) := by
    rw [demands, hbody, demanded_append, demanded_append, demanded_singleton hb, ← hbody]
  rw [hdemands, demands, demands, Substitution.applyRule, bodyAtoms_bind, demanded_map_bind,
    bodyAtoms_splice, demanded_append, demanded_append, Renaming.applyRule, bodyAtoms_bind,
    demanded_map_bind]
  abel

/-! ## Finite trees -/

namespace Definitions

variable {d : Definitions} {r : Rule} {n m : Nat}

/-- A tree that does not go on below a depth has the same leaves at all greater depths. -/
theorem leaves_eq_of_le (h : d.isDeeper n r = false) (hm : n ≤ m) :
    d.isDeeper m r = false ∧ d.leaves m r = d.leaves n r := by
  induction n generalizing m r with
  | zero =>
    cases hpos : d.position? r with
    | none => exact ⟨isDeeper_of_leaf hpos, by rw [leaves_of_leaf hpos, leaves_of_leaf hpos]⟩
    | some i =>
      rw [isDeeper_zero hpos] at h
      exact absurd h (by simp)
  | succ n ih =>
    cases hpos : d.position? r with
    | none => exact ⟨isDeeper_of_leaf hpos, by rw [leaves_of_leaf hpos, leaves_of_leaf hpos]⟩
    | some i =>
      obtain ⟨m, rfl⟩ : ∃ k, m = k + 1 := ⟨m - 1, by omega⟩
      rw [isDeeper_succ hpos, List.any_eq_false] at h
      have hchild := fun c hc => ih (m := m) (Bool.eq_false_iff.mpr (h c hc)) (by omega)
      rw [isDeeper_succ hpos, leaves_succ hpos, leaves_succ hpos, List.any_eq_false]
      exact ⟨fun c hc => Bool.eq_false_iff.mp (hchild c hc).1,
        List.flatMap_congr fun c hc => (hchild c hc).2⟩

/-- Finitely many finite trees do not go on below a common depth. -/
theorem exists_common_depth {rules : List Rule}
    (h : ∀ r ∈ rules, ∃ n, d.isDeeper n r = false) : ∃ n, ∀ r ∈ rules, d.isDeeper n r = false := by
  induction rules with
  | nil => exact ⟨0, fun r hr => absurd hr (by simp)⟩
  | cons r rules ih =>
    obtain ⟨n, hn⟩ := h r (List.mem_cons_self ..)
    obtain ⟨m, hm⟩ := ih fun s hs => h s (List.mem_cons_of_mem _ hs)
    refine ⟨max n m, fun s hs => ?_⟩
    rcases List.mem_cons.mp hs with rfl | hs
    · exact (leaves_eq_of_le hn (Nat.le_max_left n m)).1
    · exact (leaves_eq_of_le (hm s hs) (Nat.le_max_right n m)).1

/-- The tree below a rule is finite if everything that it demands, now or later, has a rank that is
greater than the ranks of what the definitions of it demand. -/
theorem exists_isDeeper_eq_false (rank : Symbol → Nat) (P : Symbol → Prop)
    (hP : ∀ s ∈ d.rules.rules, ∀ p, s.headPredicate? = some p → P p →
      ∀ q ∈ s.demands, P q ∧ rank q < rank p)
    (hr : ∀ p ∈ r.demands, P p) : ∃ n, d.isDeeper n r = false := by
  -- the multiset of what is demanded gets smaller with each step
  have hwf : WellFounded (InvImage (Relation.CutExpand (InvImage (· < ·) rank)) Rule.demands) :=
    InvImage.wf _ (InvImage.wf rank Nat.lt_wfRel.wf).cutExpand
  induction r using hwf.induction with
  | _ r ih =>
    cases hpos : d.position? r with
    | none => exact ⟨0, isDeeper_of_leaf hpos⟩
    | some i =>
      obtain ⟨a, ha, hdef⟩ := exists_of_position?_eq_some hpos
      obtain ⟨hbuiltin, -⟩ := isDefined_eq_true_iff.mp hdef
      have hchildren : ∀ c ∈ (d.ofAtom r i).filterMap (r.resolvent i),
          ∃ n, d.isDeeper n c = false := by
        intro c hc
        obtain ⟨s, hs, hres⟩ := List.mem_filterMap.mp hc
        obtain ⟨hmem, hhead⟩ := (mem_ofAtom ha).mp hs
        have hdemands := Rule.demands_resolve ha hbuiltin hres
        have hlower := hP s hmem _ hhead
          (hr _ (mem_demanded.mpr ⟨a, List.mem_of_getElem? ha, hbuiltin, rfl⟩))
        refine ih c ⟨s.demands, a.predicate, fun q hq => (hlower q hq).2, hdemands⟩ fun p hp => ?_
        have hp' : p ∈ r.demands + s.demands := hdemands ▸ Multiset.mem_add.mpr (Or.inl hp)
        rcases Multiset.mem_add.mp hp' with hp' | hp'
        · exact hr p hp'
        · exact (hlower p hp').1
      obtain ⟨n, hn⟩ := exists_common_depth hchildren
      refine ⟨n + 1, ?_⟩
      rw [isDeeper_succ hpos, List.any_eq_false]
      exact fun c hc => Bool.eq_false_iff.mp (hn c hc)

end Definitions

/-! ## The outcome of unfolding -/

/-- There is room for all leaves if there is for the leaves with repetitions. -/
theorem Walk.length_formsWith_le (w : Walk) (rules : List Rule) :
    (w.formsWith rules).length ≤ w.forms.length + rules.length := by
  have hmap : (rules.map Rule.canonical).length = rules.length := List.length_map _
  rw [formsWith, ← hmap, ← List.length_append]
  exact (nodup_eraseDups _).length_le_of_subset fun c hc => List.mem_eraseDups.mp hc

/-- A walk that is nowhere cut off and has room for all leaves hits no bound. -/
theorem Walk.Collects.hit_eq_none {cfg : Settings} {w : Walk} {rules : List Rule}
    {x : Except Walk Walk} (h : Collects cfg w rules false x) (hw : w.hit = none)
    (hroom : (w.formsWith rules).length ≤ cfg.maxRules) : (final x).hit = none := by
  cases x with
  | ok v =>
    have h : Collected cfg w rules false v := h
    exact h.hit.trans hw
  | error v =>
    rcases h with ⟨hdeep, -⟩ | ⟨-, hlt, -⟩
    · exact absurd hdeep (by simp)
    · exact absurd hroom (Nat.not_le_of_lt hlt)

namespace Program

variable {query : Program} {mappings : List Rule} {target : Symbol}

/-- The rules that unfolding a query for a target may use. -/
def unfoldingRules (query : Program) (mappings : List Rule) (target : Symbol) : List Rule :=
  query.rulesWithHead target ++
    (query.rules.filter (fun r => r.headPredicate? ≠ some target) ++ mappings)

theorem headPredicate?_of_mem_rulesWithHead {r : Rule} (hr : r ∈ query.rulesWithHead target) :
    r.headPredicate? = some target := by
  simpa [rulesWithHead] using (List.mem_filter.mp hr).2

theorem mem_cyclic_iff (hdef : query.rulesWithHead target ≠ []) {q : Symbol} :
    q ∈ query.cyclic mappings target ↔
      LeadsToCycle (query.unfoldingRules mappings target) target q := by
  obtain ⟨r, hr⟩ := List.exists_mem_of_ne_nil _ hdef
  exact DependencyGraph.mem_cycles_ofRules (List.mem_append_left _ hr)
    (headPredicate?_of_mem_rulesWithHead hr)

/-- If dependencies lead to no cycle, then the trees of the rules of the target are finite. -/
theorem exists_depth (h : ∀ q, ¬LeadsToCycle (query.unfoldingRules mappings target) target q) :
    ∃ n, ∀ r ∈ query.rulesWithHead target,
      (Definitions.ofQuery query mappings target).isDeeper n r = false := by
  let rules := query.unfoldingRules mappings target
  obtain ⟨hclosed, -⟩ := DependencyGraph.nodes_ofRules rules
  have hdepends : ∀ s ∈ rules, ∀ p, s.headPredicate? = some p → ∀ q ∈ s.demands,
      DependsOn rules p q := fun s hs p hp q hq => ⟨s, hs, hp, mem_demanded.mp hq⟩
  refine Definitions.exists_common_depth fun r hr => ?_
  refine Definitions.exists_isDeeper_eq_false (DependencyGraph.ofRules rules).height
    (Relation.ReflTransGen (DependsOn rules) target) (fun s hs p hp hreach q hq => ?_) fun q hq =>
      .single (hdepends r (List.mem_append_left _ hr) target
        (headPredicate?_of_mem_rulesWithHead hr) q hq)
  have hpq := hdepends s (List.mem_append_right _ hs) p hp q hq
  refine ⟨hreach.tail hpq, DependencyGraph.height_lt hclosed ?_ ?_⟩
  · rw [DependencyGraph.edge_ofRules]
    exact hpq
  · rw [DependencyGraph.edge_ofRules]
    exact fun hqq => h q ⟨hreach.tail hpq, hqq⟩

/-- If dependencies lead to no cycle, then unfolding ends well if the bounds are large enough. -/
theorem exists_bound (hdef : query.rulesWithHead target ≠ [])
    (h : ∀ q, ¬LeadsToCycle (query.unfoldingRules mappings target) target q) :
    ∃ n, ∀ cfg : Settings, n ≤ cfg.maxDepth → n ≤ cfg.maxRules →
      ∃ result, query.unfold mappings cfg target = .ok result := by
  let d := Definitions.ofQuery query mappings target
  obtain ⟨n, hn⟩ := exists_depth h
  refine ⟨max n ((query.rulesWithHead target).flatMap (d.leaves n)).length,
    fun cfg hdepth hrules => ?_⟩
  have hsame := fun r hr => Definitions.leaves_eq_of_le (hn r hr) (m := cfg.maxDepth) (by omega)
  have hcollects := Walk.start_collects cfg (query.rulesWithHead target) d
  have hleaves : (query.rulesWithHead target).flatMap (d.leaves cfg.maxDepth) =
      (query.rulesWithHead target).flatMap (d.leaves n) :=
    List.flatMap_congr fun r hr => (hsame r hr).2
  have hdeeper : (query.rulesWithHead target).any (d.isDeeper cfg.maxDepth) = false :=
    List.any_eq_false.mpr fun r hr => Bool.eq_false_iff.mp (hsame r hr).1
  rw [hleaves, hdeeper] at hcollects
  have hhit : (query.walk mappings cfg target).hit = none := by
    refine hcollects.hit_eq_none rfl (Nat.le_trans (Walk.length_formsWith_le _ _) ?_)
    have hnone : (Walk.start cfg (query.rulesWithHead target) d).forms.length = 0 := rfl
    omega
  have hacyclic : query.cyclic mappings target = [] :=
    List.eq_nil_iff_forall_not_mem.mpr fun q hq => h q ((mem_cyclic_iff hdef).mp hq)
  rw [unfold_of_acyclic hdef hacyclic, hhit]
  exact ⟨_, rfl⟩

/-- Unfolding a query for a target that it defines reports recursion if and only if dependencies
lead from the target to a cycle, and it reports exactly the predicates on such cycles, each of them
once.  If there is none, then unfolding ends well whenever the bounds are large enough. -/
theorem unfold_cycles (hdef : query.rulesWithHead target ≠ []) :
    (∀ cfg, (∃ ps found, query.unfold mappings cfg target = .error (.cycleDetected ps found)) ↔
      ∃ q, LeadsToCycle (query.unfoldingRules mappings target) target q) ∧
    (∀ cfg ps found, query.unfold mappings cfg target = .error (.cycleDetected ps found) →
      ps.Nodup ∧ ∀ q, q ∈ ps ↔ LeadsToCycle (query.unfoldingRules mappings target) target q) ∧
    ((∀ q, ¬LeadsToCycle (query.unfoldingRules mappings target) target q) →
      ∃ n, ∀ cfg : Settings, n ≤ cfg.maxDepth → n ≤ cfg.maxRules →
        ∃ result, query.unfold mappings cfg target = .ok result) := by
  have hreported : ∀ cfg ps found,
      query.unfold mappings cfg target = .error (.cycleDetected ps found) →
        ps = query.cyclic mappings target ∧ query.cyclic mappings target ≠ [] := by
    intro cfg ps found h
    by_cases hcyclic : query.cyclic mappings target = []
    · rw [unfold_of_acyclic hdef hcyclic] at h
      split at h <;> exact absurd h (by simp)
    · rw [unfold_of_cyclic hdef hcyclic] at h
      simp only [Except.error.injEq, RewritingError.cycleDetected.injEq] at h
      exact ⟨h.1.symm, hcyclic⟩
  refine ⟨fun cfg => ⟨?_, ?_⟩, fun cfg ps found h => ?_, exists_bound hdef⟩
  · rintro ⟨ps, found, h⟩
    obtain ⟨q, hq⟩ := List.exists_mem_of_ne_nil _ (hreported cfg ps found h).2
    exact ⟨q, (mem_cyclic_iff hdef).mp hq⟩
  · rintro ⟨q, hq⟩
    exact ⟨_, _, unfold_of_cyclic hdef (List.ne_nil_of_mem ((mem_cyclic_iff hdef).mpr hq))⟩
  · obtain ⟨rfl, -⟩ := hreported cfg ps found h
    obtain ⟨r, hr⟩ := List.exists_mem_of_ne_nil _ hdef
    obtain ⟨hclosed, -⟩ := DependencyGraph.nodes_ofRules (query.unfoldingRules mappings target)
    exact ⟨DependencyGraph.nodup_cycles hclosed _, fun q => mem_cyclic_iff hdef⟩

/-- Whatever the bounds and the policy, unfolding a query for some way reports that ways depend on
ways.  Unfolding a query for two properties ends well if the bounds are large enough. -/
theorem unfold_cycles_someWay :
    (∀ cfg, ∃ ps found, someWay.unfold ways cfg ⟨"q", 0⟩ = .error (.cycleDetected ps found) ∧
      ⟨"w", 2⟩ ∈ ps) ∧
    ∃ n, ∀ cfg : Settings, n ≤ cfg.maxDepth → n ≤ cfg.maxRules → ∃ result,
      twoProperties.unfold [⟨some (.plain "a" [.var ⟨"y"⟩]), some [.plain "s" [.var ⟨"y"⟩]]⟩] cfg
        ⟨"q", 1⟩ = .ok result := by
  constructor
  · intro cfg
    obtain ⟨hiff, hlist, -⟩ := @unfold_cycles someWay ways ⟨"q", 0⟩ (by decide)
    have hway : LeadsToCycle (someWay.unfoldingRules ways ⟨"q", 0⟩) ⟨"q", 0⟩ ⟨"w", 2⟩ :=
      ⟨.single (by decide), .single (by decide)⟩
    obtain ⟨ps, found, h⟩ := (hiff cfg).mpr ⟨_, hway⟩
    exact ⟨ps, found, h, ((hlist cfg ps found h).2 _).mpr hway⟩
  · obtain ⟨hiff, -, hbound⟩ := @unfold_cycles twoProperties
      [⟨some (.plain "a" [.var ⟨"y"⟩]), some [.plain "s" [.var ⟨"y"⟩]]⟩] ⟨"q", 1⟩ (by decide)
    refine hbound fun q hq => ?_
    obtain ⟨ps, found, h⟩ := (hiff {}).mpr ⟨q, hq⟩
    have hok : twoProperties.unfold
        [⟨some (.plain "a" [.var ⟨"y"⟩]), some [.plain "s" [.var ⟨"y"⟩]]⟩] {} ⟨"q", 1⟩ =
          .ok ⟨[⟨some (.plain "q" [.iri "k"]), some [.plain "s" [.iri "k"]]⟩]⟩ := by cbv
    exact absurd (hok.symm.trans h) (by simp)

end Program

end OntoQuery
