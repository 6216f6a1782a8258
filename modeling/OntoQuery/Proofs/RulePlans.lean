import OntoQuery.Proofs.PlanValidity
import OntoQuery.Reformulation

/-!
# What plans of rules look like

The plan of a list of rules is a union of projections.  Below the projection for a rule there are
the data nodes for its atoms that are not built in, below a join if there are several, and below a
filter with its conditions if it has any.

* `RuleNode`: the trees that stand for a rule or a part of it.  Such a tree is complete, and no
  optimizer proposes anything for it: the join has at least two children, all of which are data
  nodes, and below the filter there is no filter.
* `ofRules_validate`: so the plan of a list of rules is valid.
* `root_of_optimize`: the only thing to be simplified in it is the union at its root, if there is
  one rule only.  After this one step there is nothing left to propose.
* `PlanTree.Complete.fold_dataAtoms`: a complete plan has data atoms, and folding it finds them all.
-/

namespace OntoQuery

/-! ## Data atoms of complete plans -/

namespace OperatorKind

theorem eq_zero_of_accepts_data {n : Nat} (h : data.accepts n = true) : n = 0 := by
  simpa [accepts, minChildren, hasRoom, maxChildren?] using h

/-- Filters and projections are complete with exactly one child. -/
theorem eq_one_of_accepts {k : OperatorKind} {n : Nat} (hk : k = .filter ∨ k = .projection)
    (h : k.accepts n = true) : n = 1 := by
  obtain ⟨hmin, hmax⟩ := Bool.and_eq_true_iff.mp h
  rcases hk with rfl | rfl <;>
    exact Nat.le_antisymm (by simpa using of_decide_eq_true hmax) (of_decide_eq_true hmin)

theorem pos_of_accepts {k : OperatorKind} {n : Nat} (hk : k ≠ .data) (h : k.accepts n = true) :
    0 < n := by
  cases k with
  | data => exact absurd rfl hk
  | _ => exact of_decide_eq_true (Bool.and_eq_true_iff.mp h).1

end OperatorKind

namespace PlanTree

variable {t : PlanTree}

/-- Folding a list of trees collects their results. -/
theorem foldList_eq_ok {α : Type} {alg : PlanAlgebra α} {f : PlanTree → α} {ts : List PlanTree}
    (h : ∀ t ∈ ts, t.fold alg = .ok (f t)) : foldList alg ts = .ok (ts.map f) := by
  induction ts with
  | nil => rfl
  | cons t ts ih =>
    rw [foldList, h t (List.mem_cons_self ..), ih fun s hs => h s (List.mem_cons_of_mem _ hs)]
    rfl

/-- Folding a complete tree finds the data atoms. -/
theorem Complete.fold_dataAtoms (h : t.Complete) : t.fold .dataAtoms = .ok t.leafAtoms := by
  induction t using ind with
  | node i op children ih =>
    obtain ⟨hcount, hchildren⟩ := counted_node.mp h
    rw [fold, foldList_eq_ok fun c hc => ih c hc (hchildren c hc), leafAtoms_node]
    show op.combine .dataAtoms (children.map leafAtoms) = _
    cases op with
    | data a =>
      obtain rfl := List.length_eq_zero_iff.mp (OperatorKind.eq_zero_of_accepts_data hcount)
      rfl
    | join _ | union _ =>
      obtain ⟨c, cs, rfl⟩ := List.exists_cons_of_length_pos
        (OperatorKind.pos_of_accepts (by simp [Operator.kind]) hcount)
      simp [Operator.combine, PlanAlgebra.dataAtoms, List.flatMap_def]
    | filter _ | projection _ =>
      obtain ⟨c, rfl⟩ := List.length_eq_one_iff.mp
        (OperatorKind.eq_one_of_accepts (by simp [Operator.kind]) hcount)
      simp [Operator.combine, PlanAlgebra.dataAtoms]

/-- There are data atoms in a complete tree: the node furthest to the left is a data node. -/
theorem Complete.leafAtoms_ne_nil (h : t.Complete) : t.leafAtoms ≠ [] := by
  induction t using ind with
  | node i op children ih =>
    obtain ⟨hcount, hchildren⟩ := counted_node.mp h
    rw [leafAtoms_node]
    by_cases hop : op.kind = .data
    · cases op with
      | data a => exact List.cons_ne_nil _ _
      | _ => exact nomatch hop
    · obtain ⟨c, cs, rfl⟩ :=
        List.exists_cons_of_length_pos (OperatorKind.pos_of_accepts hop hcount)
      have hc := ih c (List.mem_cons_self ..) (hchildren c (List.mem_cons_self ..))
      rw [List.flatMap_cons]
      exact List.append_ne_nil_of_right_ne_nil _ (List.append_ne_nil_of_left_ne_nil hc _)

theorem mem_leafAtoms {a : Atom} : a ∈ t.leafAtoms ↔ ∃ s ∈ t.nodes, s.op = .data a := by
  rw [leafAtoms, List.mem_filterMap]
  refine exists_congr fun s => and_congr_right fun _ => ?_
  cases s.op <;> simp

/-- Whether a node fetches an atom or filters with it. -/
def Mentions (t : PlanTree) (a : Atom) : Prop :=
  t.op = .data a ∨ ∃ conditions, t.op = .filter conditions ∧ a ∈ conditions

end PlanTree

namespace Plan

open PlanTree

/-! ## The nodes of the plan of a rule -/

/-- The trees that stand for a rule or for a part of its body. -/
inductive RuleNode (r : Rule) : PlanTree → Prop where
  /-- A data node. -/
  | data {i : NodeId} {a : Atom} (ha : a ∈ r.bodyAtoms) (hb : a.isBuiltin = false) :
      RuleNode r (.leaf i (.data a))
  /-- A join of several data nodes. -/
  | join {i : NodeId} {ts : List PlanTree} (hlength : 1 < ts.length)
      (hkind : ∀ t ∈ ts, t.op.kind = .data) (h : ∀ t ∈ ts, RuleNode r t) :
      RuleNode r (.node i (.join []) ts)
  /-- A filter with conditions of the rule. -/
  | filter {i : NodeId} {conditions : List Atom} {t : PlanTree}
      (hconditions : ∀ c ∈ conditions, c.isBuiltin = true) (hkind : t.op.kind ≠ .filter)
      (h : RuleNode r t) : RuleNode r (.node i (.filter conditions) [t])
  /-- A projection onto the head, below which all of the body is mentioned. -/
  | projection {i : NodeId} {head : Atom} {t : PlanTree} (hhead : r.head = some head)
      (hbody : ∀ b ∈ r.bodyAtoms, ∃ s ∈ t.nodes, s.Mentions b) (h : RuleNode r t) :
      RuleNode r (.node i (.projection head) [t])

variable {r : Rule} {s t : PlanTree} {atoms : List Atom}

/-- What is below such a tree is such a tree. -/
theorem RuleNode.of_mem_nodes (h : RuleNode r t) (hs : s ∈ t.nodes) : RuleNode r s := by
  induction h with
  | data ha hb =>
    rcases mem_nodes_node.mp hs with rfl | ⟨c, hc, -⟩
    · exact .data ha hb
    · exact absurd hc (by simp)
  | join hlength hkind h ih =>
    rcases mem_nodes_node.mp hs with rfl | ⟨c, hc, hsc⟩
    · exact .join hlength hkind h
    · exact ih c hc hsc
  | filter hconditions hkind h ih =>
    rcases mem_nodes_node.mp hs with rfl | ⟨c, hc, hsc⟩
    · exact .filter hconditions hkind h
    · exact ih (List.mem_singleton.mp hc ▸ hsc)
  | projection hhead hbody h ih =>
    rcases mem_nodes_node.mp hs with rfl | ⟨c, hc, hsc⟩
    · exact .projection hhead hbody h
    · exact ih (List.mem_singleton.mp hc ▸ hsc)

theorem RuleNode.accepts (h : RuleNode r t) : t.op.kind.accepts t.children.length = true := by
  cases h with
  | join hlength =>
    exact Bool.and_eq_true_iff.mpr ⟨decide_eq_true (Nat.le_of_lt hlength), rfl⟩
  | _ => rfl

theorem RuleNode.op_ne_union (h : RuleNode r t) (n : Nat) : t.op ≠ .union n := by
  cases h <;> exact fun h => nomatch h

/-- No optimizer proposes anything. -/
theorem RuleNode.propose_eq_none (h : RuleNode r t) (o : Optimizer) : o.propose t = none := by
  cases h with
  | data | projection => cases o <;> rfl
  | @join i ts hlength hkind h =>
    cases o with
    | trivialNodes =>
      match ts, hlength with
      | _ :: _ :: _, _ => rfl
    | nestedOperators =>
      have hnone : ts.find? (fun c => c.op.kind = .join) = none :=
        List.find?_eq_none.mpr fun c hc => by simp [hkind c hc]
      rw [Optimizer.propose, hnone, Option.map_none]
    | filters => rfl
  | filter _ hkind =>
    cases o with
    | filters => rw [Optimizer.propose, if_neg hkind]
    | _ => rfl

/-! ### The parts of a body -/

theorem mem_dataLeaves {i : NodeId} (h : t ∈ dataLeaves i atoms) :
    ∃ j, ∃ a ∈ atoms, t = .leaf j (.data a) := by
  induction atoms generalizing i with
  | nil => exact nomatch h
  | cons a atoms ih =>
    rcases List.mem_cons.mp h with rfl | h
    · exact ⟨i, a, List.mem_cons_self .., rfl⟩
    · obtain ⟨j, b, hb, rfl⟩ := ih h
      exact ⟨j, b, List.mem_cons_of_mem _ hb, rfl⟩

theorem exists_mem_dataLeaves (i : NodeId) {a : Atom} (ha : a ∈ atoms) :
    ∃ t ∈ dataLeaves i atoms, t.op = .data a := by
  induction atoms generalizing i with
  | nil => exact nomatch ha
  | cons b atoms ih =>
    rcases List.mem_cons.mp ha with rfl | ha
    · exact ⟨_, List.mem_cons_self .., rfl⟩
    · obtain ⟨t, ht, hop⟩ := ih (i + 1) ha
      exact ⟨t, List.mem_cons_of_mem _ ht, hop⟩

theorem length_dataLeaves (i : NodeId) (atoms : List Atom) :
    (dataLeaves i atoms).length = atoms.length := by
  induction atoms generalizing i with
  | nil => rfl
  | cons a atoms ih => rw [dataLeaves, List.length_cons, List.length_cons, ih]

/-- The data atoms of a rule have one tree, which mentions all of them. -/
theorem exists_dataTree (i : NodeId) (hne : atoms ≠ [])
    (h : ∀ a ∈ atoms, a ∈ r.bodyAtoms ∧ a.isBuiltin = false) :
    ∃ t, dataTree i atoms = [t] ∧ RuleNode r t ∧ t.op.kind ≠ .filter ∧
      ∀ a ∈ atoms, ∃ s ∈ t.nodes, s.Mentions a := by
  unfold dataTree
  split
  · next a =>
    obtain ⟨ha, hb⟩ := h a (List.mem_singleton_self a)
    refine ⟨_, rfl, .data ha hb, by simp [leaf, op, Operator.kind], fun b hbm => ?_⟩
    obtain rfl := List.mem_singleton.mp hbm
    exact ⟨_, self_mem_nodes _, Or.inl rfl⟩
  · next hsingle =>
    have hlength : 1 < (dataLeaves (i + 1) atoms).length := by
      rw [length_dataLeaves]
      rcases atoms with _ | ⟨a, _ | ⟨b, rest⟩⟩
      · exact absurd rfl hne
      · exact absurd rfl (hsingle a)
      · simp
    refine ⟨_, rfl, .join hlength (fun t ht => ?_) fun t ht => ?_,
      by simp [op, Operator.kind], fun a ha => ?_⟩
    · obtain ⟨j, a, -, rfl⟩ := mem_dataLeaves ht
      rfl
    · obtain ⟨j, a, ha, rfl⟩ := mem_dataLeaves ht
      exact .data (h a ha).1 (h a ha).2
    · obtain ⟨t, ht, hop⟩ := exists_mem_dataLeaves (i + 1) ha
      exact ⟨t, mem_nodes_of_mem_children ht, Or.inl hop⟩

/-- So has the body of a rule. -/
theorem exists_bodyTree (i : NodeId) (hne : r.bodyAtoms.filter (not ∘ Atom.isBuiltin) ≠ []) :
    ∃ t, bodyTree i (r.bodyAtoms.filter Atom.isBuiltin)
        (r.bodyAtoms.filter (not ∘ Atom.isBuiltin)) = [t] ∧ RuleNode r t ∧
      ∀ b ∈ r.bodyAtoms, ∃ s ∈ t.nodes, s.Mentions b := by
  have hdata : ∀ a ∈ r.bodyAtoms.filter (not ∘ Atom.isBuiltin),
      a ∈ r.bodyAtoms ∧ a.isBuiltin = false := fun a ha => by
    simpa using List.mem_filter.mp ha
  have hsplit : ∀ b ∈ r.bodyAtoms, b ∈ r.bodyAtoms.filter Atom.isBuiltin ∨
      b ∈ r.bodyAtoms.filter (not ∘ Atom.isBuiltin) := by
    intro b hb
    cases hbb : b.isBuiltin with
    | true => exact Or.inl (List.mem_filter.mpr ⟨hb, hbb⟩)
    | false => exact Or.inr (List.mem_filter.mpr ⟨hb, by simp [hbb]⟩)
  unfold bodyTree
  split
  · next hnone =>
    obtain ⟨t, ht, hnode, -, hmentions⟩ := exists_dataTree i hne hdata
    refine ⟨t, ht, hnode, fun b hb => hmentions b ((hsplit b hb).resolve_left ?_)⟩
    simp [hnone]
  · obtain ⟨t, ht, hnode, hkind, hmentions⟩ := exists_dataTree (i + 1) hne hdata
    rw [ht]
    refine ⟨_, rfl, .filter (fun c hc => (List.mem_filter.mp hc).2) hkind hnode, fun b hb => ?_⟩
    rcases hsplit b hb with hb | hb
    · exact ⟨_, self_mem_nodes _, Or.inr ⟨_, rfl, hb⟩⟩
    · obtain ⟨s, hs, hsb⟩ := hmentions b hb
      exact ⟨s, mem_nodes_trans (mem_nodes_of_mem_children (List.mem_singleton_self t)) hs, hsb⟩

/-- The tree for a rule is a projection onto its head. -/
theorem ruleNode_of_ruleTree {arity : Nat} {i : NodeId} (h : ruleTree arity i r = .ok t) :
    RuleNode r t ∧ t.op.outputArity? = some arity := by
  obtain ⟨head, hhead, rfl, hne, rfl⟩ := exists_of_ruleTree_eq_ok h
  obtain ⟨s, hs, hnode, hbody⟩ := exists_bodyTree (i + 1) hne
  rw [hs]
  exact ⟨.projection hhead hbody hnode, rfl⟩

/-- The trees for several rules are the trees for each of them. -/
theorem forall₂_of_ruleTrees {arity : Nat} {i next : NodeId} {rs : List Rule}
    {trees : List PlanTree} (h : ruleTrees arity i rs = .ok (trees, next)) :
    List.Forall₂ (fun r t => RuleNode r t ∧ t.op.outputArity? = some arity) rs trees := by
  induction rs generalizing i next trees with
  | nil =>
    obtain ⟨rfl, -⟩ := Prod.mk.inj (Except.ok.inj h)
    exact .nil
  | cons r rs ih =>
    rw [ruleTrees] at h
    obtain ⟨t, ht, hrest⟩ := bind_eq_ok.mp h
    obtain ⟨⟨rest, last⟩, hts, heq⟩ := bind_eq_ok.mp hrest
    obtain ⟨rfl, -⟩ := Prod.mk.inj (Except.ok.inj heq)
    exact .cons (ruleNode_of_ruleTree ht) (ih hts)

/-! ## The plan of a list of rules -/

variable {rs : List Rule} {p p' : Plan}

/-- The plan of a list of rules is a union of at least one tree, each of them for one of the
rules. -/
theorem exists_trees_of_ofRules (h : ofRules rs = .ok p) :
    ∃ arity trees, p.root = .node 0 (.union arity) trees ∧ trees ≠ [] ∧
      ∀ t ∈ trees, (∃ r ∈ rs, RuleNode r t) ∧ t.op.outputArity? = some arity := by
  obtain ⟨hne, arity, trees, next, htrees, rfl⟩ := exists_of_ofRules_eq_ok h
  have hall := forall₂_of_ruleTrees htrees
  refine ⟨arity, trees, rfl, ?_, fun t ht => ?_⟩
  · rintro rfl
    exact hne (List.forall₂_nil_right_iff.mp hall)
  · obtain ⟨r, hr, hnode, harity⟩ := (exists_of_forall₂ hall).2 t ht
    exact ⟨⟨r, hr, hnode⟩, harity⟩

/-- All nodes but the root stand for a rule. -/
theorem eq_root_or_ruleNode (h : ofRules rs = .ok p) (hs : s ∈ p.nodes) :
    s = p.root ∨ ∃ r ∈ rs, RuleNode r s := by
  obtain ⟨arity, trees, hroot, -, htrees⟩ := exists_trees_of_ofRules h
  rw [nodes, hroot] at hs
  rcases mem_nodes_node.mp hs with rfl | ⟨t, ht, hst⟩
  · exact Or.inl hroot.symm
  · obtain ⟨⟨r, hr, hnode⟩, -⟩ := htrees t ht
    exact Or.inr ⟨r, hr, hnode.of_mem_nodes hst⟩

/-- So does every node that is no union. -/
theorem exists_ruleNode (h : ofRules rs = .ok p) (hs : s ∈ p.nodes) (hop : ∀ n, s.op ≠ .union n) :
    ∃ r ∈ rs, RuleNode r s := by
  rcases eq_root_or_ruleNode h hs with rfl | hnode
  · obtain ⟨arity, trees, hroot, -⟩ := exists_trees_of_ofRules h
    exact absurd (congrArg PlanTree.op hroot) (hop arity)
  · exact hnode

/-- A data node fetches an atom of a rule that is not built in. -/
theorem exists_rule_of_data (h : ofRules rs = .ok p) (hs : s ∈ p.nodes) {a : Atom}
    (hop : s.op = .data a) : ∃ r ∈ rs, a ∈ r.bodyAtoms ∧ a.isBuiltin = false := by
  obtain ⟨r, hr, hnode⟩ := exists_ruleNode h hs fun n => by simp [hop]
  cases hnode with
  | data ha hb =>
    obtain rfl := Operator.data.inj hop
    exact ⟨r, hr, ha, hb⟩
  | _ => cases hop

/-- A filter has built-in conditions. -/
theorem isBuiltin_of_filter (h : ofRules rs = .ok p) (hs : s ∈ p.nodes) {conditions : List Atom}
    (hop : s.op = .filter conditions) : ∀ c ∈ conditions, c.isBuiltin = true := by
  obtain ⟨r, -, hnode⟩ := exists_ruleNode h hs fun n => by simp [hop]
  cases hnode with
  | filter hconditions =>
    obtain rfl := Operator.filter.inj hop
    exact hconditions
  | _ => cases hop

/-- A projection is onto the head of a rule, all of whose body is mentioned below it. -/
theorem exists_rule_of_projection (h : ofRules rs = .ok p) (hs : s ∈ p.nodes) {head : Atom}
    (hop : s.op = .projection head) : ∃ r ∈ rs, r.head = some head ∧
      ∃ c ∈ s.children, ∀ b ∈ r.bodyAtoms, ∃ t ∈ c.nodes, t.Mentions b := by
  obtain ⟨r, hr, hnode⟩ := exists_ruleNode h hs fun n => by simp [hop]
  cases hnode with
  | projection hhead hbody =>
    obtain rfl := Operator.projection.inj hop
    exact ⟨r, hr, hhead, _, List.mem_singleton_self _, hbody⟩
  | _ => cases hop

theorem checkNode_of_ofRules (h : ofRules rs = .ok p) (hs : s ∈ p.nodes) :
    checkNode s = .ok () := by
  refine checkNode_eq_ok.mpr ?_
  rcases eq_root_or_ruleNode h hs with rfl | ⟨r, -, hnode⟩
  · obtain ⟨arity, trees, hroot, hne, htrees⟩ := exists_trees_of_ofRules h
    rw [hroot]
    refine ⟨Bool.and_eq_true_iff.mpr ⟨decide_eq_true (List.length_pos_iff.mpr hne), rfl⟩, ?_⟩
    intro n hn t ht m hm
    obtain rfl := Operator.union.inj hn
    exact Option.some.inj (hm.symm.trans (htrees t ht).2)
  · exact ⟨hnode.accepts, fun n hn => absurd hn (hnode.op_ne_union n)⟩

/-- The plan of a list of rules is valid, and so is every plan of its nodes. -/
theorem ofRules_validate (h : ofRules rs = .ok p) (hsub : p'.nodes ⊆ p.nodes) :
    p'.validate = .ok () :=
  forM_eq_ok.mpr fun _ ht => checkNode_of_ofRules h (hsub ht)

/-! ## Optimization -/

theorem nextProposal_eq_none {os : List Optimizer} :
    p.nextProposal os = none ↔ ∀ t ∈ p.nodes, ∀ o ∈ os, o.propose t = none := by
  simp only [nextProposal, List.findSome?_eq_none_iff]

end Plan

theorem Edit.optimize_of_nextProposal_eq_none {os : List Optimizer} {n k : Nat} {p p' : Plan}
    (hp : p.nextProposal os = none) (h : (Edit.optimize os n).run p = .ok k p') : p' = p :=
  (EStateM.Result.ok.inj (h.symm.trans (run_optimize_of_eq_none hp n))).2

namespace Plan

open PlanTree

variable {rs : List Rule} {p p' : Plan}

/-- If there is not exactly one rule, nothing is proposed for the plan. -/
theorem nextProposal_of_ofRules {n : Nat} {trees : List PlanTree}
    (h : ofRules rs = .ok p) (hroot : p.root = .node 0 (.union n) trees)
    (hlength : trees.length ≠ 1) : p.nextProposal Optimizer.all = none := by
  refine nextProposal_eq_none.mpr fun t ht o _ => ?_
  rcases eq_root_or_ruleNode h ht with rfl | ⟨r, -, hnode⟩
  · obtain ⟨arity, trees', hroot', -, htrees⟩ := exists_trees_of_ofRules h
    obtain ⟨-, -, rfl⟩ := PlanTree.node.inj (hroot.symm.trans hroot')
    rw [hroot]
    cases o with
    | trivialNodes =>
      match trees, hlength with
      | [], _ => rfl
      | _ :: _ :: _, _ => rfl
    | nestedOperators =>
      have hnone : trees.find? (fun c => c.op = .union n) = none :=
        List.find?_eq_none.mpr fun c hc => by
          obtain ⟨⟨r, -, hnode⟩, -⟩ := htrees c hc
          simpa using hnode.op_ne_union n
      rw [Optimizer.propose, hnone, Option.map_none]
    | filters => rfl
  · exact hnode.propose_eq_none o

/-- If there is one rule, the first step leaves its tree. -/
theorem optimize_single {i : NodeId} {n m k : Nat} {c : PlanTree}
    (hroot : p.root = .node i (.union n) [c]) (hquiet : ∀ s ∈ c.nodes, ∀ o : Optimizer,
      o.propose s = none) (hrun : (Edit.optimize Optimizer.all (m + 1)).run p = .ok k p') :
    p'.root = c ∧ p'.nextProposal Optimizer.all = none := by
  have hfirst : p.nextProposal Optimizer.all = some (.replaceByChild i) := by
    rw [nextProposal, nodes, hroot, nodes_node]
    rfl
  have hfound : p.find? i = some (.node i (.union n) [c]) := by
    rw [find?, nodes, hroot, nodes_node]
    exact List.find?_cons_of_pos (by simp [PlanTree.id])
  obtain ⟨hnone, -⟩ | ⟨proposal, u, mid, k', hnext, happly, hopt⟩ := Edit.optimize_succ_eq_ok hrun
  · exact absurd (hnone.symm.trans hfirst) (by simp)
  · obtain rfl := Option.some.inj (hfirst.symm.trans hnext)
    obtain ⟨t, d, hfind, hchildren, rfl⟩ := Proposal.apply_replaceByChild_eq_ok.mp happly
    obtain rfl := Option.some.inj (hfound.symm.trans hfind)
    obtain rfl := List.singleton_inj.mp hchildren
    have hgraft : (p.graft i c).root = c := by
      rw [Plan.graft, hroot, PlanTree.graft, if_pos rfl]
    have hrest : (p.graft i c).nextProposal Optimizer.all = none :=
      nextProposal_eq_none.mpr fun s hs o _ => hquiet s (hgraft ▸ hs) o
    rw [Edit.optimize_of_nextProposal_eq_none hrest hopt]
    exact ⟨hgraft, hrest⟩

/-- Optimizing the plan of a list of rules leaves its root or the only child of that.  If a step may
be made, nothing is proposed any more. -/
theorem root_of_optimize {n k : Nat} (h : ofRules rs = .ok p)
    (hrun : (Edit.optimize Optimizer.all n).run p = .ok k p') :
    (p'.root = p.root ∨ p.root.children = [p'.root]) ∧
      (1 ≤ n → p'.nextProposal Optimizer.all = none) := by
  cases n with
  | zero =>
    obtain ⟨-, rfl⟩ := EStateM.Result.ok.inj hrun
    exact ⟨Or.inl rfl, fun hn => absurd hn (by simp)⟩
  | succ n =>
    obtain ⟨arity, trees, hroot, -, htrees⟩ := exists_trees_of_ofRules h
    by_cases hlength : trees.length = 1
    · obtain ⟨c, rfl⟩ := List.length_eq_one_iff.mp hlength
      obtain ⟨⟨r, -, hnode⟩, -⟩ := htrees c (List.mem_singleton_self c)
      obtain ⟨hc, hquiet⟩ := optimize_single hroot
        (fun s hs o => (hnode.of_mem_nodes hs).propose_eq_none o) hrun
      refine ⟨Or.inr ?_, fun _ => hquiet⟩
      rw [hroot, hc]
      rfl
    · have hquiet := nextProposal_of_ofRules h hroot hlength
      rw [Edit.optimize_of_nextProposal_eq_none hquiet hrun]
      exact ⟨Or.inl rfl, fun _ => hquiet⟩

end Plan

namespace Reformulator

variable {cfg : Settings} {rs : List Rule} {p plan : Plan}

/-- What the optimization of the plan of a list of rules does to its root, if the settings ask for
it. -/
theorem root_of_optimize (hp : Plan.ofRules rs = .ok p) (h : optimize cfg p = .ok plan) :
    (plan.root = p.root ∨ p.root.children = [plan.root]) ∧
      (cfg.optimizePlan = true → 1 ≤ cfg.maxOptimizationSteps →
        plan.nextProposal Optimizer.all = none) := by
  unfold optimize at h
  split at h
  · split at h
    · next hrun =>
      obtain rfl := Except.ok.inj h
      obtain ⟨hroot, hquiet⟩ := Plan.root_of_optimize hp hrun
      exact ⟨hroot, fun _ => hquiet⟩
    · exact absurd h (by simp)
  · next hoff =>
    obtain rfl := Except.ok.inj h
    exact ⟨Or.inl rfl, fun hon => absurd hon hoff⟩

/-- It leaves some of the nodes. -/
theorem optimize_ofRules (hp : Plan.ofRules rs = .ok p) (h : optimize cfg p = .ok plan) :
    plan.nodes ⊆ p.nodes ∧ (cfg.optimizePlan = true → 1 ≤ cfg.maxOptimizationSteps →
      plan.nextProposal Optimizer.all = none) := by
  obtain ⟨hroot, hquiet⟩ := root_of_optimize hp h
  refine ⟨fun s hs => ?_, hquiet⟩
  rcases hroot with hroot | hroot
  · rwa [Plan.nodes, hroot] at hs
  · have hchild : plan.root ∈ p.root.children := hroot ▸ List.mem_singleton_self _
    exact PlanTree.mem_nodes_trans (PlanTree.mem_nodes_of_mem_children hchild) hs

/-- It keeps the arity. -/
theorem outputArity?_of_optimize (hp : Plan.ofRules rs = .ok p) (h : optimize cfg p = .ok plan) :
    plan.root.op.outputArity? = p.root.op.outputArity? := by
  obtain ⟨hroot, -⟩ := root_of_optimize hp h
  rcases hroot with hroot | hroot
  · rw [hroot]
  · obtain ⟨arity, trees, hunion, -, htrees⟩ := Plan.exists_trees_of_ofRules hp
    rw [hunion] at hroot ⊢
    obtain rfl : trees = [plan.root] := hroot
    exact (htrees _ (List.mem_singleton_self _)).2

end Reformulator

end OntoQuery
