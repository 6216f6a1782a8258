import Mathlib
import OntoQuery.Proofs.Dependence

/-!
# What the analysis of dependencies lists

The graph of some rules is asked for three things: what can be reached from given predicates,
whether a predicate is recursive, and which recursive components can be reached.  All three are
determined by the dependencies between the predicates, so the order in which the rules come and how
often they come do not matter.

The answers are lists, and a list is determined by its members once it is known to be increasing.
For the reachable predicates this is what sorting gives.  The components are not sorted as lists:
they are computed one after another, for the reachable predicates in order, and each is kept where
it is met first.  Since a component that can be reached is reached as a whole, it is met first at
its own first member, and so the components come in the order of their first members
(`increasing_classes`).

* `Increasing.eq_of_mem_iff`: increasing lists with the same members are the same.
* `mem_cycles_iff_isComponent`: the recursive components that are listed are the maximal sets of
  predicates that depend on each other, as far as they are recursive and can be reached.
* `cyclesAmong_eq_cycles`: the same components are found by filtering and sorting the strongly
  connected ones, however these are listed.
* `analysis_exact`: all three answers, and that they depend on the set of rules only.
-/

namespace OntoQuery

/-! ## Increasing lists -/

section

variable {α : Type} {cmp : α → α → Ordering} {l m : List α} {a : α}

/-- Whether each entry of a list is smaller than all that follow it. -/
def Increasing (cmp : α → α → Ordering) (l : List α) : Prop := l.Pairwise fun a b => cmp a b = .lt

instance (cmp : α → α → Ordering) (l : List α) : Decidable (Increasing cmp l) :=
  inferInstanceAs (Decidable (l.Pairwise _))

variable [Std.OrientedCmp cmp]

theorem Increasing.nodup (h : Increasing cmp l) : l.Nodup := by
  refine List.Pairwise.imp ?_ h
  rintro a b hab rfl
  exact Std.OrientedCmp.not_lt_of_lt hab hab

/-- An increasing list is determined by its members. -/
theorem Increasing.eq_of_mem_iff (hl : Increasing cmp l) (hm : Increasing cmp m)
    (h : ∀ a, a ∈ l ↔ a ∈ m) : l = m := by
  have hperm : l.Perm m := (List.perm_ext_iff_of_nodup hl.nodup hm.nodup).mpr h
  refine hperm.eq_of_pairwise (fun a b _ _ hab hba => ?_) hl hm
  exact absurd hba (Std.OrientedCmp.not_lt_of_lt hab)

/-- The least member of an increasing list is the first one. -/
theorem Increasing.exists_eq_cons (hl : Increasing cmp l) (ha : a ∈ l)
    (h : ∀ b ∈ l, b = a ∨ cmp a b = .lt) : ∃ t, l = a :: t := by
  cases l with
  | nil => exact absurd ha (by simp)
  | cons b t =>
    rcases h b (List.mem_cons_self ..) with rfl | hab
    · exact ⟨t, rfl⟩
    · rcases List.mem_cons.mp ha with rfl | ha
      · exact ⟨t, rfl⟩
      · exact absurd hab (Std.OrientedCmp.not_lt_of_lt (List.rel_of_pairwise_cons hl ha))

/-- If an increasing list falls into classes, then the classes of its entries, each listed where it
is met first, come in lexicographic order. -/
theorem increasing_classes [DecidableEq α] (f : α → List α) (hl : Increasing cmp l)
    (hf : ∀ a ∈ l, Increasing cmp (f a) ∧ a ∈ f a ∧ ∀ b ∈ f a, b ∈ l ∧ f b = f a) :
    Increasing (List.compareLex cmp) (l.map f).eraseDups := by
  -- after the class of the first entry has been listed, the entries of the other classes are left
  induction hn : l.length using Nat.strongRecOn generalizing l with
  | _ n ih =>
    cases l with
    | nil => exact List.Pairwise.nil
    | cons a l =>
      let rest := l.filter fun b => !(f b == f a)
      have hrest : ((l.map f).filter fun c => !(c == f a)) = rest.map f := by
        rw [List.filter_map]
        rfl
      have hmem : ∀ b, b ∈ rest ↔ b ∈ l ∧ f b ≠ f a := fun b => by simp [rest]
      obtain ⟨ha, hself, hclass⟩ := hf a (List.mem_cons_self ..)
      have hclosed : ∀ b ∈ rest, Increasing cmp (f b) ∧ b ∈ f b ∧
          ∀ c ∈ f b, c ∈ rest ∧ f c = f b := by
        intro b hb
        obtain ⟨hbl, hne⟩ := (hmem b).mp hb
        obtain ⟨hinc, hbself, hbclass⟩ := hf b (List.mem_cons_of_mem _ hbl)
        refine ⟨hinc, hbself, fun c hc => ?_⟩
        obtain ⟨hcl, hcb⟩ := hbclass c hc
        have hca : c ≠ a := fun h => hne (hcb.symm.trans (congrArg f h))
        exact ⟨(hmem c).mpr ⟨(List.mem_cons.mp hcl).resolve_left hca, hcb ▸ hne⟩, hcb⟩
      obtain ⟨hfirst, htail⟩ := List.pairwise_cons.mp hl
      obtain ⟨t, ht⟩ := ha.exists_eq_cons hself fun b hb =>
        (List.mem_cons.mp (hclass b hb).1).imp id (hfirst b)
      rw [List.map_cons, List.eraseDups_cons, hrest]
      refine List.pairwise_cons.mpr ⟨fun c hc => ?_, ?_⟩
      · obtain ⟨b, hb, rfl⟩ := List.mem_map.mp (List.mem_eraseDups.mp hc)
        obtain ⟨-, hbself, hbclass⟩ := hclosed b hb
        cases hfb : f b with
        | nil => exact absurd hbself (by simp [hfb])
        | cons d u =>
          have hd : d ∈ rest := (hbclass d (by simp [hfb])).1
          rw [ht, List.compareLex_cons_cons, hfirst d ((hmem d).mp hd).1]
          rfl
      · refine ih rest.length ?_ (htail.filter _) hclosed rfl
        have hle : rest.length ≤ l.length := List.length_filter_le _ _
        rw [← hn, List.length_cons]
        omega

end

/-- Sorting a list without repetitions makes it increasing. -/
theorem increasing_mergeSort {α : Type} [Ord α] [Std.TransOrd α] [Std.LawfulEqOrd α] {l : List α}
    (h : l.Nodup) : Increasing compare (l.mergeSort fun a b => (compare a b).isLE) := by
  have hnodup := (List.mergeSort_perm l fun a b => (compare a b).isLE).nodup_iff.mpr h
  refine ((pairwise_mergeSort_compare l).and hnodup).imp fun {a b} hab => ?_
  cases hcmp : compare a b with
  | lt => rfl
  | eq => exact absurd (Std.LawfulEqOrd.eq_of_compare hcmp) hab.2
  | gt => exact absurd hab.1 (by simp [hcmp])

/-! ## What the answers are about -/

/-- Whether a predicate occurs in the graph of some rules: there is a rule for it, or a predicate
depends on it. -/
def Occurs (rs : List Rule) (p : Symbol) : Prop :=
  (∃ r ∈ rs, r.headPredicate? = some p) ∨ ∃ q, DependsOn rs q p

/-- Whether a predicate can be reached from one that is given and occurs. -/
def ReachedFrom (rs : List Rule) (ps : List Symbol) (q : Symbol) : Prop :=
  ∃ p ∈ ps, Occurs rs p ∧ Relation.ReflTransGen (DependsOn rs) p q

/-- Whether all predicates of a set depend on each other. -/
def MutuallyDependent (rs : List Rule) (s : Set Symbol) : Prop :=
  ∀ p ∈ s, ∀ q ∈ s, Relation.ReflTransGen (DependsOn rs) p q

/-- The recursive components that can be reached from given predicates. -/
structure IsComponent (rs : List Rule) (ps : List Symbol) (s : Set Symbol) : Prop where
  /-- No larger set of predicates depend on each other. -/
  maximal : Maximal (MutuallyDependent rs) s
  /-- Some member depends on itself through one step or more. -/
  recursive : ∃ p ∈ s, Relation.TransGen (DependsOn rs) p p
  /-- Some member can be reached. -/
  reached : ∃ p ∈ s, ReachedFrom rs ps p

namespace DependencyGraph

variable {rs : List Rule} {ps : List Symbol} {p q : Symbol}

/-- The nodes of the graph of some rules are the predicates that occur. -/
theorem mem_nodes_ofRules : p ∈ (ofRules rs).nodes ↔ Occurs rs p := by
  have h : ∀ g : DependencyGraph, p ∈ (rs.foldl addRule g).nodes ↔ p ∈ g.nodes ∨ Occurs rs p := by
    induction rs with
    | nil => simp [Occurs, DependsOn]
    | cons r rs ih =>
      intro g
      have hcons : Occurs (r :: rs) p ↔
          (r.headPredicate? = some p ∨ ∃ q, DependsOn [r] q p) ∨ Occurs rs p := by
        simp only [Occurs, List.exists_mem_cons_iff, dependsOn_cons r rs, exists_or]
        exact or_or_or_comm
      rw [List.foldl_cons, ih, (mem_addRule g r).1, hcons, or_assoc]
  rw [ofRules, h]
  simp

theorem mem_reachable_ofRules : q ∈ (ofRules rs).reachable ps ↔ ReachedFrom rs ps q := by
  rw [reachable, mem_sort, mem_reach_iff (nodes_ofRules rs).1, edge_ofRules]
  simp only [mem_nodes_ofRules, ReachedFrom]

theorem isRecursive_ofRules :
    (ofRules rs).isRecursive p = true ↔ Relation.TransGen (DependsOn rs) p p := by
  rw [isRecursive_iff (nodes_ofRules rs).1, edge_ofRules]

theorem mem_component_ofRules : q ∈ (ofRules rs).component p ↔ Occurs rs p ∧
    Relation.ReflTransGen (DependsOn rs) p q ∧ Relation.ReflTransGen (DependsOn rs) q p := by
  rw [mem_component_iff (nodes_ofRules rs).1, edge_ofRules, mem_nodes_ofRules]

theorem increasing_sort {l : List Symbol} (h : l.Nodup) : Increasing compare (sort l) :=
  increasing_mergeSort h

theorem increasing_reachable (g : DependencyGraph) (ps : List Symbol) :
    Increasing compare (g.reachable ps) :=
  increasing_sort (g.nodup_reach ps)

theorem increasing_component (g : DependencyGraph) (p : Symbol) :
    Increasing compare (g.component p) :=
  increasing_sort ((g.nodup_reach [p]).filter _)

/-! ## Recursive components -/

/-- A predicate that depends on itself occurs. -/
theorem occurs_of_transGen (h : Relation.TransGen (DependsOn rs) p p) : Occurs rs p := by
  obtain ⟨q, -, hqp⟩ := Relation.TransGen.tail'_iff.mp h
  exact Or.inr ⟨q, hqp⟩

/-- The component of a predicate is a maximal set of predicates that depend on each other. -/
theorem maximal_component (hp : Occurs rs p) :
    Maximal (MutuallyDependent rs) {q | q ∈ (ofRules rs).component p} := by
  refine ⟨fun q hq r hr => ?_, fun s hs hsub x hx => ?_⟩
  · obtain ⟨-, -, hqp⟩ := mem_component_ofRules.mp hq
    obtain ⟨-, hpr, -⟩ := mem_component_ofRules.mp hr
    exact hqp.trans hpr
  · have hps : p ∈ s := hsub (mem_component_ofRules.mpr ⟨hp, .refl, .refl⟩)
    exact mem_component_ofRules.mpr ⟨hp, hs p hps x hx, hs x hx p hps⟩

/-- A maximal set of predicates that depend on each other is the component of each of its
members. -/
theorem eq_component_of_maximal {s : Set Symbol} (hs : Maximal (MutuallyDependent rs) s)
    (hps : p ∈ s) (hp : Occurs rs p) : s = {q | q ∈ (ofRules rs).component p} :=
  hs.eq_of_subset (maximal_component hp).1 fun q hq =>
    mem_component_ofRules.mpr ⟨hp, hs.1 p hps q hq, hs.1 q hq p hps⟩

/-- What is listed for each recursive predicate that can be reached. -/
theorem mem_cycles_ofRules_iff {c : List Symbol} : c ∈ (ofRules rs).cycles ps ↔
    ∃ p, ReachedFrom rs ps p ∧ Relation.TransGen (DependsOn rs) p p ∧
      (ofRules rs).component p = c := by
  simp only [cycles, List.mem_eraseDups, List.mem_map, List.mem_filter, mem_reachable_ofRules,
    isRecursive_ofRules, and_assoc]

/-- What is listed are the recursive components that can be reached, each in order. -/
theorem mem_cycles_iff_isComponent {c : List Symbol} :
    c ∈ (ofRules rs).cycles ps ↔ Increasing compare c ∧ IsComponent rs ps {q | q ∈ c} := by
  rw [mem_cycles_ofRules_iff]
  constructor
  · rintro ⟨p, hreached, hrec, rfl⟩
    have hp := occurs_of_transGen hrec
    have hself : p ∈ (ofRules rs).component p := mem_component_ofRules.mpr ⟨hp, .refl, .refl⟩
    exact ⟨increasing_component _ p, maximal_component hp, ⟨p, hself, hrec⟩, p, hself, hreached⟩
  · rintro ⟨hinc, hmax, ⟨p, hpc, hrec⟩, q, hqc, r, hr, hoccurs, hrq⟩
    have hp := occurs_of_transGen hrec
    have hmem := eq_component_of_maximal hmax hpc hp
    refine ⟨p, ⟨r, hr, hoccurs, hrq.trans (hmax.1 q hqc p hpc)⟩, hrec, ?_⟩
    exact (increasing_component _ p).eq_of_mem_iff hinc fun x => (Set.ext_iff.mp hmem x).symm

/-- The components that are listed come in order. -/
theorem increasing_cycles (rs : List Rule) (ps : List Symbol) :
    Increasing (List.compareLex compare) ((ofRules rs).cycles ps) := by
  refine increasing_classes _ ((increasing_reachable _ ps).filter _) fun p hp => ?_
  obtain ⟨hreached, hrec⟩ := List.mem_filter.mp hp
  rw [isRecursive_ofRules] at hrec
  obtain ⟨r, hr, hoccurs, hrp⟩ := mem_reachable_ofRules.mp hreached
  have hself : p ∈ (ofRules rs).component p :=
    mem_component_ofRules.mpr ⟨occurs_of_transGen hrec, .refl, .refl⟩
  refine ⟨increasing_component _ p, hself, fun q hq => ⟨?_, ?_⟩⟩
  · -- a member is reached through the predicate, and recursive because that is
    obtain ⟨-, hpq, hqp⟩ := mem_component_ofRules.mp hq
    rw [List.mem_filter, mem_reachable_ofRules, isRecursive_ofRules]
    exact ⟨⟨r, hr, hoccurs, hrp.trans hpq⟩,
      Relation.TransGen.trans_right hqp (hrec.trans_left hpq)⟩
  · have hq' : q ∈ (ofRules rs).component q := by
      obtain ⟨-, hpq, hqp⟩ := mem_component_ofRules.mp hq
      exact mem_component_ofRules.mpr
        ⟨occurs_of_transGen (Relation.TransGen.trans_right hqp (hrec.trans_left hpq)),
          .refl, .refl⟩
    exact component_eq_of_mem (nodes_ofRules rs).1 hq' hq

/-- A predicate is recursive if and only if it is in a recursive component that is reached from
it. -/
theorem isRecursive_eq_any_cycles (rs : List Rule) (p : Symbol) :
    (ofRules rs).isRecursive p = ((ofRules rs).cycles [p]).any fun c => p ∈ c := by
  rw [Bool.eq_iff_iff, isRecursive_ofRules, List.any_eq_true]
  simp only [decide_eq_true_eq]
  constructor
  · intro hrec
    have hp := occurs_of_transGen hrec
    exact ⟨_, mem_cycles_ofRules_iff.mpr
      ⟨p, ⟨p, List.mem_singleton_self p, hp, .refl⟩, hrec, rfl⟩,
      mem_component_ofRules.mpr ⟨hp, .refl, .refl⟩⟩
  · rintro ⟨c, hc, hpc⟩
    obtain ⟨q, -, hrec, rfl⟩ := mem_cycles_ofRules_iff.mp hc
    obtain ⟨-, hqp, hpq⟩ := mem_component_ofRules.mp hpc
    exact Relation.TransGen.trans_right hpq (hrec.trans_left hqp)

/-! ## Cycles among strongly connected components

A search for strongly connected components lists all of them, in no order that matters.  The
recursive ones that can be reached are what is left after two filters, and sorting puts each of them
and then all of them in order. -/

section

variable {g : DependencyGraph} {c : List Symbol} {components : List (List Symbol)}

/-- Whether a list of lists consists of the strongly connected components of a graph. -/
structure ListsComponents (g : DependencyGraph) (components : List (List Symbol)) : Prop where
  /-- No node is in two components, or twice in one. -/
  nodup : components.flatten.Nodup
  /-- Every node is in a component, and nothing else is. -/
  mem_nodes : ∀ p, p ∈ components.flatten ↔ p ∈ g.nodes
  /-- A component consists of the nodes that lead to one of them and to which that leads. -/
  mem_iff : ∀ c ∈ components, ∀ p ∈ c, ∀ q, q ∈ c ↔
    Relation.ReflTransGen g.Edge p q ∧ Relation.ReflTransGen g.Edge q p

/-- Whether a strongly connected component has a cycle: one node alone has one only if there is an
edge from it to itself. -/
def hasCycle (g : DependencyGraph) : List Symbol → Bool
  | [p] => (p, p) ∈ g.edges
  | _ => true

/-- The cycles among given components, as far as they have a predicate that can be reached, each in
order, and in their lexicographic order. -/
def cyclesAmong (g : DependencyGraph) (components : List (List Symbol)) (ps : List Symbol) :
    List (List Symbol) :=
  let cyclic := components.filter g.hasCycle
  let reached := cyclic.filter fun c => c.any fun p => p ∈ g.reachable ps
  (reached.map sort).mergeSort fun c d => (compare c d).isLE

theorem ListsComponents.nodup_of_mem (h : g.ListsComponents components) (hc : c ∈ components) :
    c.Nodup :=
  (List.nodup_flatten.mp h.nodup).1 c hc

/-- A strongly connected component has a cycle if and only if its members are on one. -/
theorem hasCycle_iff (h : g.ListsComponents components) (hc : c ∈ components) (hp : p ∈ c) :
    g.hasCycle c = true ↔ Relation.TransGen g.Edge p p := by
  have hmem := h.mem_iff c hc
  unfold hasCycle
  split
  · -- a cycle through a node alone starts with an edge to a node of its component
    rename_i r
    obtain rfl := List.mem_singleton.mp hp
    rw [decide_eq_true_eq]
    refine ⟨fun hedge => .single hedge, fun hcycle => ?_⟩
    obtain ⟨q, hpq, hqp⟩ := Relation.TransGen.head'_iff.mp hcycle
    obtain rfl : q = p := List.mem_singleton.mp ((hmem p hp q).mpr ⟨.single hpq, hqp⟩)
    exact hpq
  · -- there is another node, and the way to it and back is a cycle
    rename_i hne
    obtain ⟨q, hq, hqp⟩ := (((h.nodup_of_mem hc).ne_singleton_iff p).mp (hne p)).resolve_left
      (List.ne_nil_of_mem hp)
    obtain ⟨hpq, hqp'⟩ := (hmem p hp q).mp hq
    rcases Relation.reflTransGen_iff_eq_or_transGen.mp hpq with heq | htrans
    · exact absurd heq hqp
    · exact iff_of_true rfl (htrans.trans_left hqp')

/-- A strongly connected component in order is the component of each of its members. -/
theorem sort_eq_component (hg : g.EdgesInNodes) (h : g.ListsComponents components)
    (hc : c ∈ components) (hp : p ∈ c) : sort c = g.component p := by
  have hn : p ∈ g.nodes := (h.mem_nodes p).mp (List.mem_flatten.mpr ⟨c, hc, hp⟩)
  refine (increasing_sort (h.nodup_of_mem hc)).eq_of_mem_iff (increasing_component g p) fun q => ?_
  rw [mem_sort, h.mem_iff c hc p hp, mem_component_iff hg]
  exact (and_iff_right hn).symm

/-- The components that have a cycle and can be reached are those of the recursive predicates that
can be reached. -/
theorem mem_cyclesAmong_iff (hg : g.EdgesInNodes) (h : g.ListsComponents components) :
    c ∈ g.cyclesAmong components ps ↔ c ∈ g.cycles ps := by
  simp only [cyclesAmong, cycles, List.mem_mergeSort, List.mem_map, List.mem_filter,
    List.mem_eraseDups, List.any_eq_true, decide_eq_true_eq]
  constructor
  · rintro ⟨d, ⟨⟨hd, hcycle⟩, p, hp, hreached⟩, rfl⟩
    refine ⟨p, ⟨hreached, ?_⟩, (sort_eq_component hg h hd hp).symm⟩
    exact (isRecursive_iff hg).mpr ((hasCycle_iff h hd hp).mp hcycle)
  · rintro ⟨p, ⟨hreached, hrec⟩, rfl⟩
    rw [isRecursive_iff hg] at hrec
    obtain ⟨q, hpq, -⟩ := Relation.TransGen.head'_iff.mp hrec
    obtain ⟨d, hd, hp⟩ := List.mem_flatten.mp ((h.mem_nodes p).mpr (hg _ hpq).1)
    exact ⟨d, ⟨⟨hd, (hasCycle_iff h hd hp).mpr hrec⟩, p, hp, hreached⟩,
      sort_eq_component hg h hd hp⟩

/-- The recursive components can be found among the strongly connected components, in whatever order
these and their members come. -/
theorem cyclesAmong_eq_cycles (h : (ofRules rs).ListsComponents components) (ps : List Symbol) :
    (ofRules rs).cyclesAmong components ps = (ofRules rs).cycles ps := by
  refine Increasing.eq_of_mem_iff (increasing_mergeSort ?_) (increasing_cycles rs ps) fun c =>
    mem_cyclesAmong_iff (nodes_ofRules rs).1 h
  -- what is reached has a member, and so components that are sorted to the same list are the same
  have hdisjoint : components.Pairwise List.Disjoint := (List.nodup_flatten.mp h.nodup).2
  refine List.pairwise_map.mpr (((hdisjoint.filter _).filter _).imp_of_mem ?_)
  rintro c d hc - hcd heq
  obtain ⟨p, hp, -⟩ := List.any_eq_true.mp (List.mem_filter.mp hc).2
  exact hcd hp (mem_sort.mp (heq ▸ mem_sort.mpr hp))

/-- So a predicate is recursive if and only if it is in one of the cycles that are found from it. -/
theorem isRecursive_eq_any_cyclesAmong (h : (ofRules rs).ListsComponents components) (p : Symbol) :
    (ofRules rs).isRecursive p =
      ((ofRules rs).cyclesAmong components [p]).any fun c => p ∈ c := by
  rw [cyclesAmong_eq_cycles h, isRecursive_eq_any_cycles]

/-- The components of all nodes are the strongly connected ones. -/
theorem listsComponents_eraseDups (hg : g.EdgesInNodes) :
    g.ListsComponents (g.nodes.map g.component).eraseDups := by
  have hself : ∀ {p}, p ∈ g.nodes → p ∈ g.component p := fun hp =>
    (mem_component_iff hg).mpr ⟨hp, .refl, .refl⟩
  refine ⟨nodup_flatten_components hg _, fun p => ?_, fun c hc p hp q => ?_⟩
  · simp only [List.mem_flatten, List.mem_eraseDups, List.mem_map, exists_exists_and_eq_and]
    exact ⟨fun ⟨_, _, hp⟩ => mem_nodes_of_mem_component hg hp, fun hp => ⟨p, hp, hself hp⟩⟩
  · obtain ⟨r, -, rfl⟩ := List.mem_map.mp (List.mem_eraseDups.mp hc)
    have hn := mem_nodes_of_mem_component hg hp
    rw [component_eq_of_mem hg hp (hself hn), mem_component_iff hg, and_iff_right hn]

end

/-! ## All answers -/

section

variable {rs' : List Rule} (h : ∀ r, r ∈ rs ↔ r ∈ rs')
include h

/-! What the answers are about depends on the set of rules only. -/

theorem dependsOn_eq_of_mem_iff : DependsOn rs = DependsOn rs' := by
  funext p q
  simp only [DependsOn, h]

theorem reachedFrom_eq_of_mem_iff : ReachedFrom rs = ReachedFrom rs' := by
  funext ps q
  simp only [ReachedFrom, Occurs, dependsOn_eq_of_mem_iff h, h]

theorem isComponent_iff_of_mem_iff {s : Set Symbol} :
    IsComponent rs ps s ↔ IsComponent rs' ps s := by
  have hdep := dependsOn_eq_of_mem_iff h
  have hreached := reachedFrom_eq_of_mem_iff h
  have hmutual : MutuallyDependent rs = MutuallyDependent rs' := by
    funext t
    simp only [MutuallyDependent, hdep]
  constructor
  · rintro ⟨hmax, hrec, hs⟩
    exact ⟨hmutual ▸ hmax, hdep ▸ hrec, hreached ▸ hs⟩
  · rintro ⟨hmax, hrec, hs⟩
    exact ⟨hmutual ▸ hmax, hdep ▸ hrec, hreached ▸ hs⟩

end

/-- The analysis of the dependencies of some rules is exact.  What is reachable from given
predicates is listed in order; so are the recursive components that can be reached, each of them in
order as well, and no two of them have a member in common.  All answers depend on the set of rules
only. -/
theorem analysis_exact (rs : List Rule) :
    (∀ ps, Increasing compare ((ofRules rs).reachable ps) ∧
      ∀ q, q ∈ (ofRules rs).reachable ps ↔ ReachedFrom rs ps q) ∧
    (∀ p, (ofRules rs).isRecursive p = true ↔ Relation.TransGen (DependsOn rs) p p) ∧
    (∀ ps, Increasing (List.compareLex compare) ((ofRules rs).cycles ps) ∧
      ((ofRules rs).cycles ps).Pairwise List.Disjoint ∧
      ∀ c, c ∈ (ofRules rs).cycles ps ↔
        Increasing compare c ∧ IsComponent rs ps {q | q ∈ c}) ∧
    ∀ rs' : List Rule, (∀ r, r ∈ rs ↔ r ∈ rs') →
      (∀ ps, (ofRules rs').reachable ps = (ofRules rs).reachable ps) ∧
      (∀ p, (ofRules rs').isRecursive p = (ofRules rs).isRecursive p) ∧
      ∀ ps, (ofRules rs').cycles ps = (ofRules rs).cycles ps := by
  refine ⟨fun ps => ⟨increasing_reachable _ ps, fun q => mem_reachable_ofRules⟩,
    fun p => isRecursive_ofRules, fun ps => ⟨increasing_cycles rs ps, ?_, fun c =>
      mem_cycles_iff_isComponent⟩, fun rs' h => ?_⟩
  · exact (List.nodup_flatten.mp (nodup_cycles (nodes_ofRules rs).1 ps)).2
  · refine ⟨fun ps => ?_, fun p => ?_, fun ps => ?_⟩
    · refine (increasing_reachable _ ps).eq_of_mem_iff (increasing_reachable _ ps) fun q => ?_
      rw [mem_reachable_ofRules, mem_reachable_ofRules, reachedFrom_eq_of_mem_iff h]
    · rw [Bool.eq_iff_iff, isRecursive_ofRules, isRecursive_ofRules, dependsOn_eq_of_mem_iff h]
    · refine (increasing_cycles rs' ps).eq_of_mem_iff (increasing_cycles rs ps) fun c => ?_
      rw [mem_cycles_iff_isComponent, mem_cycles_iff_isComponent, isComponent_iff_of_mem_iff h]

/-- Two classes, `a` and `b`, that are defined by each other, with a query for members of `a`, and a
class `u` that is defined by itself. -/
def twins : List Rule :=
  [⟨some (.plain "q" [.var ⟨"x"⟩]),
      some [.plain "a" [.var ⟨"x"⟩], .plain "EQ" [.var ⟨"x"⟩, .iri "k"]]⟩,
    ⟨some (.plain "b" [.var ⟨"x"⟩]), some [.plain "s" [.var ⟨"x"⟩], .plain "a" [.var ⟨"x"⟩]]⟩,
    ⟨some (.plain "u" [.var ⟨"x"⟩]), some [.plain "u" [.var ⟨"x"⟩]]⟩,
    ⟨none, some [.plain "q" [.var ⟨"x"⟩], .plain "u" [.var ⟨"x"⟩]]⟩,
    ⟨some (.plain "a" [.var ⟨"x"⟩]), some [.plain "b" [.var ⟨"x"⟩]]⟩]

/-- From the query the component of the two classes is reached, and nothing else that is recursive.
The answer is the same when the rules come in reverse order and twice. -/
theorem analysis_exact_twins :
    (ofRules twins).cycles [⟨"q", 1⟩] = [[⟨"a", 1⟩, ⟨"b", 1⟩]] ∧
    IsComponent twins [⟨"q", 1⟩] {q | q ∈ [(⟨"a", 1⟩ : Symbol), ⟨"b", 1⟩]} ∧
    (ofRules (twins.reverse ++ twins)).cycles [⟨"q", 1⟩] = [[⟨"a", 1⟩, ⟨"b", 1⟩]] ∧
    ¬Relation.TransGen (DependsOn twins) ⟨"q", 1⟩ ⟨"q", 1⟩ := by
  have h : (ofRules twins).cycles [⟨"q", 1⟩] = [[⟨"a", 1⟩, ⟨"b", 1⟩]] := by cbv
  have hq : (ofRules twins).isRecursive ⟨"q", 1⟩ = false := by cbv
  obtain ⟨-, hrec, hcycles, hsame⟩ := analysis_exact twins
  refine ⟨h, ?_, ?_, ?_⟩
  · exact (((hcycles [⟨"q", 1⟩]).2.2 _).mp (h ▸ List.mem_singleton_self _)).2
  · obtain ⟨-, -, heq⟩ := hsame (twins.reverse ++ twins) fun r => by simp
    rw [heq, h]
  · rw [← hrec, hq]
    simp

end DependencyGraph

end OntoQuery
