import Mathlib.Data.List.Nodup
import Mathlib.Logic.Relation
import Mathlib.Tactic.ByContra
import Mathlib.Tactic.Tauto
import OntoQuery.Dependency
import OntoQuery.Proofs.Order

/-!
# Dependencies are followed to the end

A predicate *depends* on another one if a rule for it has an atom of the other one in its body that
is not built in.

* `mem_edges_ofRules`: the edges of the graph of some rules are their dependencies.
* `mem_reach_iff`: what is reached is what a predicate depends on through any number of steps.
  Visiting keeps the invariant that an edge out of the predicates visited leads to one that has been
  visited or is pending (`visit_closed`).
* `mem_component_iff`, `component_eq_of_mem`: components are the classes of predicates that depend
  on each other.
* `mem_cycles_iff`, `nodup_cycles`: the recursive components that are listed consist of the
  predicates on cycles that can be reached, each of them once.
* `height_lt`: off the cycles, dependencies lead from higher to lower predicates.
-/

namespace OntoQuery

/-- Whether a rule for the first predicate has an atom of the second one in its body. -/
def DependsOn (rs : List Rule) (p q : Symbol) : Prop :=
  ∃ r ∈ rs, r.headPredicate? = some p ∧ ∃ a ∈ r.bodyAtoms, a.isBuiltin = false ∧ a.predicate = q

instance (rs : List Rule) (p q : Symbol) : Decidable (DependsOn rs p q) :=
  inferInstanceAs (Decidable (∃ r ∈ rs, _ ∧ ∃ a ∈ r.bodyAtoms, _ ∧ _))

/-- Whether the second predicate is on a cycle of dependencies to which they lead from the first. -/
def LeadsToCycle (rs : List Rule) (p q : Symbol) : Prop :=
  Relation.ReflTransGen (DependsOn rs) p q ∧ Relation.TransGen (DependsOn rs) q q

namespace DependencyGraph

variable {g : DependencyGraph} {p q : Symbol}

/-! ## The edges -/

theorem mem_insertNew {α : Type} [DecidableEq α] {a b : α} {l : List α} :
    b ∈ insertNew a l ↔ b = a ∨ b ∈ l := by
  unfold insertNew
  by_cases ha : a ∈ l
  · rw [if_pos ha]
    refine ⟨Or.inr, ?_⟩
    rintro (rfl | hb)
    · exact ha
    · exact hb
  · rw [if_neg ha, List.mem_append, List.mem_singleton, or_comm]

/-- Whether there is an edge from one predicate to another. -/
def Edge (g : DependencyGraph) (p q : Symbol) : Prop := (p, q) ∈ g.edges

/-- Whether both ends of every edge are nodes. -/
def EdgesInNodes (g : DependencyGraph) : Prop :=
  ∀ e ∈ g.edges, e.1 ∈ g.nodes ∧ e.2 ∈ g.nodes

/-- Adding edges out of a node adds them and the nodes that they lead to. -/
theorem foldl_addEdge (p : Symbol) (qs : List Symbol) (g : DependencyGraph) :
    (∀ x, x ∈ (qs.foldl (fun g q => g.addEdge p q) g).nodes ↔ x ∈ g.nodes ∨ x ∈ qs) ∧
      ∀ e, e ∈ (qs.foldl (fun g q => g.addEdge p q) g).edges ↔
        e ∈ g.edges ∨ e.1 = p ∧ e.2 ∈ qs := by
  induction qs generalizing g with
  | nil => simp
  | cons q qs ih =>
    obtain ⟨hnodes, hedges⟩ := ih (g.addEdge p q)
    constructor
    · intro x
      rw [List.foldl_cons, hnodes, addEdge, mem_insertNew, List.mem_cons]
      tauto
    · rintro ⟨x, y⟩
      rw [List.foldl_cons, hedges, addEdge, mem_insertNew, Prod.mk.injEq, List.mem_cons]
      tauto

/-- The nodes and the edges that a rule adds. -/
theorem mem_addRule (g : DependencyGraph) (r : Rule) :
    (∀ x, x ∈ (g.addRule r).nodes ↔ x ∈ g.nodes ∨ r.headPredicate? = some x ∨
      ∃ p, DependsOn [r] p x) ∧
      ∀ e, e ∈ (g.addRule r).edges ↔ e ∈ g.edges ∨ DependsOn [r] e.1 e.2 := by
  unfold addRule
  cases hp : r.headPredicate? with
  | none => simp [DependsOn, hp]
  | some p =>
    obtain ⟨hnodes, hedges⟩ := foldl_addEdge p
      ((r.bodyAtoms.filter fun a => !a.isBuiltin).map Atom.predicate)
      { g with nodes := insertNew p g.nodes }
    constructor
    · intro x
      rw [hnodes, mem_insertNew]
      simp only [DependsOn, List.mem_singleton, exists_eq_left, hp, Option.some.injEq,
        List.mem_map, List.mem_filter, Bool.not_eq_true', and_assoc, eq_comm (a := p)]
      tauto
    · rintro ⟨x, y⟩
      rw [hedges]
      simp only [DependsOn, List.mem_singleton, exists_eq_left, hp, Option.some.injEq,
        List.mem_map, List.mem_filter, Bool.not_eq_true', and_assoc, eq_comm (a := p)]

theorem dependsOn_cons (r : Rule) (rs : List Rule) :
    DependsOn (r :: rs) p q ↔ DependsOn [r] p q ∨ DependsOn rs p q := by
  simp [DependsOn]

/-- The edges of the graph of some rules are their dependencies. -/
theorem mem_edges_ofRules {rs : List Rule} : (p, q) ∈ (ofRules rs).edges ↔ DependsOn rs p q := by
  have h : ∀ g : DependencyGraph,
      (p, q) ∈ (rs.foldl addRule g).edges ↔ (p, q) ∈ g.edges ∨ DependsOn rs p q := by
    induction rs with
    | nil => simp [DependsOn]
    | cons r rs ih =>
      intro g
      rw [List.foldl_cons, ih, (mem_addRule g r).2, dependsOn_cons r rs, or_assoc]
  rw [ofRules, h]
  simp

/-- The head predicates of rules are nodes of their graph, and so are the ends of its edges. -/
theorem nodes_ofRules (rs : List Rule) :
    (ofRules rs).EdgesInNodes ∧
      ∀ r ∈ rs, ∀ p, r.headPredicate? = some p → p ∈ (ofRules rs).nodes := by
  have h : ∀ g : DependencyGraph, g.EdgesInNodes → (rs.foldl addRule g).EdgesInNodes ∧
      g.nodes ⊆ (rs.foldl addRule g).nodes ∧
      ∀ r ∈ rs, ∀ p, r.headPredicate? = some p → p ∈ (rs.foldl addRule g).nodes := by
    induction rs with
    | nil => exact fun g hg => ⟨hg, List.Subset.refl _, fun r hr => absurd hr (by simp)⟩
    | cons r rs ih =>
      intro g hg
      obtain ⟨hnodes, hedges⟩ := mem_addRule g r
      have hr : (g.addRule r).EdgesInNodes := by
        rintro ⟨x, y⟩ he
        rw [hnodes, hnodes]
        rcases (hedges _).mp he with he | he
        · exact ⟨Or.inl (hg _ he).1, Or.inl (hg _ he).2⟩
        · obtain ⟨s, hs, hx, -⟩ := id he
          rw [List.mem_singleton.mp hs] at hx
          exact ⟨Or.inr (Or.inl hx), Or.inr (Or.inr ⟨x, he⟩)⟩
      obtain ⟨hclosed, hsub, hheads⟩ := ih (g.addRule r) hr
      refine ⟨hclosed, fun x hx => hsub ((hnodes x).mpr (Or.inl hx)), fun s hs x hx => ?_⟩
      rcases List.mem_cons.mp hs with rfl | hs
      · exact hsub ((hnodes x).mpr (Or.inr (Or.inl hx)))
      · exact hheads s hs x hx
  obtain ⟨hclosed, -, hheads⟩ := h {} fun e he => absurd he (by simp)
  exact ⟨hclosed, hheads⟩

theorem mem_successors : q ∈ g.successors p ↔ (p, q) ∈ g.edges := by
  simp [successors]

/-! ## What is reached -/

/-- What has been visited stays visited. -/
theorem subset_visit (pending visited : List Symbol) : visited ⊆ g.visit pending visited := by
  fun_induction g.visit pending visited with
  | case1 visited => exact List.Subset.refl _
  | case2 p pending visited h ih => exact fun x hx => ih (List.mem_cons_of_mem _ hx)
  | case3 p pending visited h ih => exact ih

/-- What is pending will be visited. -/
theorem mem_visit_of_pending {pending visited : List Symbol} (hp : p ∈ pending)
    (hn : p ∈ g.nodes) : p ∈ g.visit pending visited := by
  fun_induction g.visit pending visited with
  | case1 visited => exact absurd hp (by simp)
  | case2 r pending visited h ih =>
    rcases List.mem_cons.mp hp with rfl | hp
    · exact subset_visit _ _ (List.mem_cons_self ..)
    · exact ih (List.mem_append_right _ hp)
  | case3 r pending visited h ih =>
    rcases List.mem_cons.mp hp with rfl | hp
    · -- a node that is skipped has been visited before
      refine subset_visit _ _ ?_
      by_contra hv
      exact h ⟨hn, hv⟩
    · exact ih hp

/-- If edges out of visited predicates lead to such as are visited or pending, then in the end they
lead to visited ones. -/
theorem visit_closed {pending visited : List Symbol}
    (h : ∀ p ∈ visited, ∀ q ∈ g.successors p, q ∈ g.nodes → q ∈ visited ∨ q ∈ pending) :
    ∀ p ∈ g.visit pending visited, ∀ q ∈ g.successors p, q ∈ g.nodes →
      q ∈ g.visit pending visited := by
  fun_induction g.visit pending visited with
  | case1 visited => exact fun p hp q hq hn => (h p hp q hq hn).resolve_right (by simp)
  | case2 r pending visited hr ih =>
    refine ih fun p hp q hq hn => ?_
    rcases List.mem_cons.mp hp with rfl | hp
    · exact Or.inr (List.mem_append_left _ hq)
    · rcases h p hp q hq hn with hv | hv
      · exact Or.inl (List.mem_cons_of_mem _ hv)
      · rcases List.mem_cons.mp hv with rfl | hv
        · exact Or.inl (List.mem_cons_self ..)
        · exact Or.inr (List.mem_append_right _ hv)
  | case3 r pending visited hr ih =>
    refine ih fun p hp q hq hn => ?_
    rcases h p hp q hq hn with hv | hv
    · exact Or.inl hv
    · rcases List.mem_cons.mp hv with rfl | hv
      · refine Or.inl ?_
        by_contra hv
        exact hr ⟨hn, hv⟩
      · exact Or.inr hv

/-- What is visited can be reached from what is pending. -/
theorem exists_of_mem_visit {pending visited : List Symbol} (hq : q ∈ g.visit pending visited) :
    q ∈ visited ∨ ∃ p ∈ pending, p ∈ g.nodes ∧ Relation.ReflTransGen g.Edge p q := by
  fun_induction g.visit pending visited with
  | case1 visited => exact Or.inl hq
  | case2 r pending visited h ih =>
    rcases ih hq with hv | ⟨p, hp, hn, hpq⟩
    · rcases List.mem_cons.mp hv with rfl | hv
      · exact Or.inr ⟨q, List.mem_cons_self .., h.1, .refl⟩
      · exact Or.inl hv
    · rcases List.mem_append.mp hp with hp | hp
      · exact Or.inr ⟨r, List.mem_cons_self .., h.1, .head (mem_successors.mp hp) hpq⟩
      · exact Or.inr ⟨p, List.mem_cons_of_mem _ hp, hn, hpq⟩
  | case3 r pending visited h ih =>
    rcases ih hq with hv | ⟨p, hp, hn, hpq⟩
    · exact Or.inl hv
    · exact Or.inr ⟨p, List.mem_cons_of_mem _ hp, hn, hpq⟩

/-- Nothing is visited twice. -/
theorem nodup_visit {pending visited : List Symbol} (h : visited.Nodup) :
    (g.visit pending visited).Nodup := by
  fun_induction g.visit pending visited with
  | case1 visited => exact h
  | case2 r pending visited hr ih => exact ih (List.nodup_cons.mpr ⟨hr.2, h⟩)
  | case3 r pending visited hr ih => exact ih h

theorem nodup_reach (g : DependencyGraph) (ps : List Symbol) : (g.reach ps).Nodup :=
  nodup_visit List.nodup_nil

/-- What is reached is what the predicates of the list depend on through any number of steps. -/
theorem mem_reach_iff (hg : g.EdgesInNodes) {ps : List Symbol} :
    q ∈ g.reach ps ↔ ∃ p ∈ ps, p ∈ g.nodes ∧ Relation.ReflTransGen g.Edge p q := by
  constructor
  · exact fun hq => (exists_of_mem_visit hq).resolve_left (by simp)
  · rintro ⟨p, hp, hn, h⟩
    induction h with
    | refl => exact mem_visit_of_pending hp hn
    | @tail x y _ he ih =>
      exact visit_closed (fun r hr => absurd hr (by simp)) x ih y (mem_successors.mpr he)
        (hg _ he).2

theorem mem_reach_singleton_iff (hg : g.EdgesInNodes) :
    q ∈ g.reach [p] ↔ p ∈ g.nodes ∧ Relation.ReflTransGen g.Edge p q := by
  rw [mem_reach_iff hg]
  simp only [List.mem_singleton, exists_eq_left]

/-- What the successors of a predicate reach is what it depends on. -/
theorem mem_reach_successors_iff (hg : g.EdgesInNodes) :
    q ∈ g.reach (g.successors p) ↔ Relation.TransGen g.Edge p q := by
  rw [mem_reach_iff hg, Relation.TransGen.head'_iff]
  refine exists_congr fun r => ?_
  rw [mem_successors]
  exact ⟨fun h => ⟨h.1, h.2.2⟩, fun h => ⟨h.1, (hg _ h.1).2, h.2⟩⟩

/-! ## Recursive components -/

theorem isRecursive_iff (hg : g.EdgesInNodes) :
    g.isRecursive p = true ↔ Relation.TransGen g.Edge p p := by
  rw [isRecursive, decide_eq_true_eq, mem_reach_successors_iff hg]

theorem edge_reverse (g : DependencyGraph) : g.reverse.Edge = Function.swap g.Edge := by
  funext p q
  simp [Edge, reverse, Function.swap]

theorem EdgesInNodes.reverse (hg : g.EdgesInNodes) : g.reverse.EdgesInNodes := by
  intro e he
  obtain ⟨e', he', rfl⟩ := List.mem_map.mp he
  exact (hg e' he').symm

theorem mem_sort {ps : List Symbol} : p ∈ sort ps ↔ p ∈ ps := List.mem_mergeSort

theorem sort_eq_of_perm {ps qs : List Symbol} (h : ps.Perm qs) : sort ps = sort qs :=
  mergeSort_eq_of_perm h

/-- The members of a component depend on each other. -/
theorem mem_component_iff (hg : g.EdgesInNodes) :
    q ∈ g.component p ↔ p ∈ g.nodes ∧ Relation.ReflTransGen g.Edge p q ∧
      Relation.ReflTransGen g.Edge q p := by
  have hreverse : Relation.ReflTransGen g.reverse.Edge p q ↔ Relation.ReflTransGen g.Edge q p := by
    rw [edge_reverse, Relation.reflTransGen_swap]
  rw [component, mem_sort, List.mem_filter, decide_eq_true_eq, mem_reach_singleton_iff hg,
    mem_reach_singleton_iff hg.reverse, hreverse]
  exact ⟨fun h => ⟨h.1.1, h.1.2, h.2.2⟩, fun h => ⟨⟨h.1, h.2.1⟩, h.1, h.2.2⟩⟩

theorem nodup_component (g : DependencyGraph) (p : Symbol) : (g.component p).Nodup :=
  (List.mergeSort_perm _ _).nodup_iff.mpr ((g.nodup_reach [p]).filter _)

/-- Components that meet are the same. -/
theorem component_eq_of_mem (hg : g.EdgesInNodes) {r : Symbol} (hp : r ∈ g.component p)
    (hq : r ∈ g.component q) : g.component p = g.component q := by
  have hmem : ∀ x, x ∈ g.component p ↔ x ∈ g.component q := by
    obtain ⟨hpn, hpr, hrp⟩ := (mem_component_iff hg).mp hp
    obtain ⟨hqn, hqr, hrq⟩ := (mem_component_iff hg).mp hq
    intro x
    rw [mem_component_iff hg, mem_component_iff hg]
    exact ⟨fun ⟨_, hpx, hxp⟩ => ⟨hqn, (hqr.trans hrp).trans hpx, (hxp.trans hpr).trans hrq⟩,
      fun ⟨_, hqx, hxq⟩ => ⟨hpn, (hpr.trans hrq).trans hqx, (hxq.trans hqr).trans hrp⟩⟩
  refine sort_eq_of_perm ((List.perm_ext_iff_of_nodup ?_ ?_).mpr fun x => ?_)
  · exact (g.nodup_reach [p]).filter _
  · exact (g.nodup_reach [q]).filter _
  · exact mem_sort.symm.trans ((hmem x).trans mem_sort)

theorem mem_nodes_of_mem_component (hg : g.EdgesInNodes) (h : q ∈ g.component p) :
    q ∈ g.nodes := by
  obtain ⟨hp, hpq, -⟩ := (mem_component_iff hg).mp h
  rcases Relation.ReflTransGen.cases_tail hpq with rfl | ⟨r, -, hrq⟩
  · exact hp
  · exact (hg _ hrq).2

/-- Components of predicates, each listed where it is met first, have no member in common. -/
theorem nodup_flatten_components (hg : g.EdgesInNodes) (ps : List Symbol) :
    (ps.map g.component).eraseDups.flatten.Nodup := by
  have hcomponent : ∀ c ∈ (ps.map g.component).eraseDups, ∃ p, g.component p = c := fun c hc => by
    obtain ⟨p, -, rfl⟩ := List.mem_map.mp (List.mem_eraseDups.mp hc)
    exact ⟨p, rfl⟩
  refine List.nodup_flatten.mpr ⟨fun c hc => ?_, ?_⟩
  · obtain ⟨p, rfl⟩ := hcomponent c hc
    exact g.nodup_component p
  · refine (nodup_eraseDups _).pairwise_of_forall_ne fun c hc c' hc' hne => ?_
    obtain ⟨p, rfl⟩ := hcomponent c hc
    obtain ⟨q, rfl⟩ := hcomponent c' hc'
    exact fun x hx hx' => hne (component_eq_of_mem hg hx hx')

/-- The predicates that are listed are those on cycles that can be reached. -/
theorem mem_cycles_iff (hg : g.EdgesInNodes) (hn : p ∈ g.nodes) :
    q ∈ (g.cycles [p]).flatten ↔
      Relation.ReflTransGen g.Edge p q ∧ Relation.TransGen g.Edge q q := by
  have hmem : q ∈ (g.cycles [p]).flatten ↔ ∃ r, Relation.ReflTransGen g.Edge p r ∧
      Relation.TransGen g.Edge r r ∧ q ∈ g.component r := by
    simp only [cycles, reachable, List.mem_flatten, List.mem_eraseDups, List.mem_map,
      List.mem_filter, mem_sort, mem_reach_singleton_iff hg, isRecursive_iff hg, hn, true_and]
    exact ⟨fun ⟨_, ⟨r, hr, rfl⟩, hq⟩ => ⟨r, hr.1, hr.2, hq⟩,
      fun ⟨r, hpr, hrr, hq⟩ => ⟨_, ⟨r, ⟨hpr, hrr⟩, rfl⟩, hq⟩⟩
  rw [hmem]
  constructor
  · rintro ⟨r, hpr, hrr, hq⟩
    obtain ⟨-, hrq, hqr⟩ := (mem_component_iff hg).mp hq
    exact ⟨hpr.trans hrq, Relation.TransGen.trans_right hqr (hrr.trans_left hrq)⟩
  · rintro ⟨hpq, hqq⟩
    obtain ⟨r, he, -⟩ := Relation.TransGen.head'_iff.mp hqq
    exact ⟨q, hpq, hqq, (mem_component_iff hg).mpr ⟨(hg _ he).1, .refl, .refl⟩⟩

/-- No predicate is listed twice. -/
theorem nodup_cycles (hg : g.EdgesInNodes) (ps : List Symbol) : (g.cycles ps).flatten.Nodup :=
  nodup_flatten_components hg _

/-! ## Heights -/

/-- The number of predicates that a predicate depends on. -/
def height (g : DependencyGraph) (p : Symbol) : Nat := (g.reach (g.successors p)).length

/-- What a predicate depends on is lower, unless it depends on itself. -/
theorem height_lt (hg : g.EdgesInNodes) (he : g.Edge p q)
    (hq : ¬Relation.TransGen g.Edge q q) : g.height q < g.height p := by
  have hnodup : (q :: g.reach (g.successors q)).Nodup :=
    List.nodup_cons.mpr ⟨fun h => hq ((mem_reach_successors_iff hg).mp h), g.nodup_reach _⟩
  refine hnodup.length_le_of_subset fun x hx => (mem_reach_successors_iff hg).mpr ?_
  rcases List.mem_cons.mp hx with rfl | hx
  · exact .single he
  · exact .head he ((mem_reach_successors_iff hg).mp hx)

/-! ## The graph of rules -/

variable {rs : List Rule}

theorem edge_ofRules (rs : List Rule) : (ofRules rs).Edge = DependsOn rs := by
  funext p q
  exact propext mem_edges_ofRules

/-- The predicates that are listed for rules are those on cycles of dependencies that can be reached
from a predicate for which there is a rule. -/
theorem mem_cycles_ofRules {r : Rule} (hr : r ∈ rs) (hp : r.headPredicate? = some p) :
    q ∈ ((ofRules rs).cycles [p]).flatten ↔ LeadsToCycle rs p q := by
  obtain ⟨hclosed, hheads⟩ := nodes_ofRules rs
  rw [mem_cycles_iff hclosed (hheads r hr p hp), edge_ofRules]
  exact Iff.rfl

/-- Rules for a predicate in whose graph no cycle is reached do not make it depend on itself. -/
theorem not_dependsOn_self {r : Rule} (hr : r ∈ rs) (hp : r.headPredicate? = some p)
    (h : ((ofRules rs).cycles [p]).flatten = []) : ¬Relation.TransGen (DependsOn rs) p p := by
  intro hrec
  have hmem := (mem_cycles_ofRules hr hp).mpr ⟨.refl, hrec⟩
  rw [h] at hmem
  exact absurd hmem (by simp)

end DependencyGraph

end OntoQuery
