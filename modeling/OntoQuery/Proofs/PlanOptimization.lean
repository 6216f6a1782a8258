import OntoQuery.Proofs.PlanEdits
import OntoQuery.Proofs.PlanMeaning

/-!
# Optimization keeps the meaning of plans

What the optimizers have in mind for a node is one of six changes (`PlanTree.Reduces`), and whatever
optimization keeps is shown by going through these.

* `simplifies_…`: each change keeps the meaning, as a fact about one node.
* `propose_reduces`: what is proposed for a node is a change of this kind.
* `Plan.Rewrites`: a plan after such a change of a node.  It is numbered as before, has the same
  meaning and the same data atoms from left to right.
* `optimize_eq_ok`: optimization keeps plans numbered, and keeps their meaning.
-/

namespace OntoQuery

namespace Proposal

/-! ## Handing children over -/

section

variable {t c : PlanTree} {X : PlanTree → Prop}

/-- What is required of all children, and of a child through its own children. -/
theorem forall_spliced_iff {A : Prop} (hc : c ∈ t.children)
    (hdist : ∀ s ∈ t.children, s.id = c.id → s = c) (hX : X c ↔ A ∧ ∀ s ∈ c.children, X s) :
    (∀ s ∈ t.children, X s) ↔ A ∧ ∀ s ∈ spliced t c, X s := by
  constructor
  · intro h
    obtain ⟨ha, hchildren⟩ := hX.mp (h c hc)
    refine ⟨ha, fun s hs => ?_⟩
    rcases (mem_spliced hc).mp hs with ⟨hs, -⟩ | hs
    · exact h s hs
    · exact hchildren s hs
  · rintro ⟨ha, h⟩ s hs
    by_cases hid : s.id = c.id
    · rw [hdist s hs hid, hX]
      exact ⟨ha, fun d hd => h d ((mem_spliced hc).mpr (Or.inr hd))⟩
    · exact h s ((mem_spliced hc).mpr (Or.inl ⟨hs, hid⟩))

/-- What is required of some child, and of a child through its own children. -/
theorem exists_spliced_iff (hc : c ∈ t.children)
    (hdist : ∀ s ∈ t.children, s.id = c.id → s = c) (hX : X c ↔ ∃ s ∈ c.children, X s) :
    (∃ s ∈ t.children, X s) ↔ ∃ s ∈ spliced t c, X s := by
  constructor
  · rintro ⟨s, hs, hx⟩
    by_cases hid : s.id = c.id
    · rw [hdist s hs hid, hX] at hx
      obtain ⟨d, hd, hx⟩ := hx
      exact ⟨d, (mem_spliced hc).mpr (Or.inr hd), hx⟩
    · exact ⟨s, (mem_spliced hc).mpr (Or.inl ⟨hs, hid⟩), hx⟩
  · rintro ⟨s, hs, hx⟩
    rcases (mem_spliced hc).mp hs with ⟨hs, -⟩ | hs
    · exact ⟨s, hs, hx⟩
    · exact ⟨c, hc, hX.mpr ⟨s, hs, hx⟩⟩

end

end Proposal

/-! ## Changes that keep the meaning -/

/-- The atom of a data operator. -/
def Operator.atom? : Operator → Option Atom
  | data a => some a
  | _ => none

/-- The conditions of a join or a filter. -/
def Operator.conditions : Operator → List Atom
  | join conditions => conditions
  | filter conditions => conditions
  | _ => []

theorem Operator.mem_mergeConditions {outer inner : List Atom} {a : Atom} :
    a ∈ mergeConditions outer inner ↔ a ∈ outer ∨ a ∈ inner := by
  induction inner generalizing outer with
  | nil => simp [mergeConditions]
  | cons c inner ih =>
    rw [mergeConditions, ih, List.mem_cons]
    by_cases hc : c ∈ outer
    · rw [if_pos hc]
      constructor
      · rintro (h | h)
        · exact Or.inl h
        · exact Or.inr (Or.inr h)
      · rintro (h | rfl | h)
        · exact Or.inl h
        · exact Or.inl hc
        · exact Or.inr h
    · rw [if_neg hc, List.mem_append, List.mem_singleton, or_assoc]

namespace PlanTree

open Proposal

variable {i : NodeId} {children : List PlanTree} {c : PlanTree}

theorem simplifies_join_single : (node i (.join []) [c]).Simplifies c where
  holds truth facts v := by
    rw [holds_join, List.forall_mem_singleton]
    simp
  isBody h := by
    cases h with
    | node hop hc => exact hc c (List.mem_singleton_self c)
  isQuery h := nomatch h
  answers h := nomatch h

theorem simplifies_union_single {n : Nat} : (node i (.union n) [c]).Simplifies c where
  holds truth facts v := by
    rw [holds_union]
    simp
  isBody h := by
    cases h with
    | node hop hc => exact absurd hop (by simp [Operator.outputArity?])
  isQuery h := by
    cases h with
    | union hc => exact hc c (List.mem_singleton_self c)
  answers _ truth facts ts := by
    rw [answers_union]
    simp

/-- A join with conditions acts like a filter. -/
theorem simplifies_join_filter {conditions : List Atom} :
    (node i (.join conditions) children).Simplifies (node i (.filter conditions) children) where
  holds truth facts v := by
    rw [holds_join, holds_filter]
  isBody h := by
    cases h with
    | node hop hc => exact .node rfl hc
  isQuery h := nomatch h
  answers h := nomatch h

theorem isBody_spliced {t : PlanTree} (ht : ∀ s ∈ t.children, s.IsBody) (hc : c ∈ t.children) :
    ∀ s ∈ spliced t c, s.IsBody := by
  refine forall_spliced hc ht ?_
  cases ht c hc with
  | node hop hchildren => exact hchildren

/-- A join below a join, whose conditions are added to those of the outer one. -/
theorem simplifies_flatten_join {outer inner : List Atom} (hc : c ∈ children)
    (hdist : ∀ s ∈ children, s.id = c.id → s = c) (hop : c.op = .join inner) :
    (node i (.join outer) children).Simplifies
      (node i (.join (outer ++ inner)) (spliced (node i (.join outer) children) c)) where
  holds truth facts v := by
    have hchild : c.Holds truth facts v ↔
        (∀ a ∈ inner, a.bind v ∈ truth) ∧ ∀ s ∈ c.children, s.Holds truth facts v := by
      obtain ⟨j, op, grandchildren⟩ := c
      obtain rfl : op = .join inner := hop
      exact holds_join
    rw [holds_join, holds_join, List.forall_mem_append, and_assoc,
      ← forall_spliced_iff (t := node i (.join outer) children) hc hdist hchild]
    rfl
  isBody h := by
    cases h with
    | node hj hchildren =>
      exact .node rfl (isBody_spliced (t := node i (.join outer) children) hchildren hc)
  isQuery h := nomatch h
  answers h := nomatch h

/-- A union below a union. -/
theorem simplifies_flatten_union {n : Nat} (hc : c ∈ children)
    (hdist : ∀ s ∈ children, s.id = c.id → s = c) (hop : c.op = .union n) :
    (node i (.union n) children).Simplifies
      (node i (.union n) (spliced (node i (.union n) children) c)) where
  holds truth facts v := by
    have hchild : c.Holds truth facts v ↔ ∃ s ∈ c.children, s.Holds truth facts v := by
      obtain ⟨j, op, grandchildren⟩ := c
      obtain rfl : op = .union n := hop
      exact holds_union
    rw [holds_union, holds_union]
    exact exists_spliced_iff (t := node i (.union n) children) hc hdist hchild
  isBody h := by
    cases h with
    | node hj hchildren => exact absurd hj (by simp [Operator.outputArity?])
  isQuery h := by
    cases h with
    | union hchildren =>
      refine .union fun s hs => ?_
      rcases (mem_spliced hc).mp hs with ⟨hs, -⟩ | hs
      · exact hchildren s hs
      · obtain ⟨j, op, grandchildren⟩ := c
        obtain rfl : op = .union n := hop
        cases hchildren _ hc with
        | union hgrand => exact hgrand s hs
  answers _ truth facts ts := by
    have hchild : c.Answers truth facts ts ↔ ∃ s ∈ c.children, s.Answers truth facts ts := by
      obtain ⟨j, op, grandchildren⟩ := c
      obtain rfl : op = .union n := hop
      exact answers_union
    rw [answers_union, answers_union]
    exact exists_spliced_iff (t := node i (.union n) children) hc hdist hchild

/-- A filter below a filter. -/
theorem simplifies_merge_filters {outer inner : List Atom} (hc : c ∈ children)
    (hdist : ∀ s ∈ children, s.id = c.id → s = c) (hop : c.op = .filter inner) :
    (node i (.filter outer) children).Simplifies
      (node i (.filter (Operator.mergeConditions outer inner))
        (spliced (node i (.filter outer) children) c)) where
  holds truth facts v := by
    have hchild : c.Holds truth facts v ↔
        (∀ a ∈ inner, a.bind v ∈ truth) ∧ ∀ s ∈ c.children, s.Holds truth facts v := by
      obtain ⟨j, op, grandchildren⟩ := c
      obtain rfl : op = .filter inner := hop
      exact holds_filter
    have hconditions : (∀ a ∈ Operator.mergeConditions outer inner, a.bind v ∈ truth) ↔
        (∀ a ∈ outer, a.bind v ∈ truth) ∧ ∀ a ∈ inner, a.bind v ∈ truth := by
      simp only [Operator.mem_mergeConditions, or_imp, forall_and]
    rw [holds_filter, holds_filter, hconditions, and_assoc,
      ← forall_spliced_iff (t := node i (.filter outer) children) hc hdist hchild]
    rfl
  isBody h := by
    cases h with
    | node hj hchildren =>
      exact .node rfl (isBody_spliced (t := node i (.filter outer) children) hchildren hc)
  isQuery h := nomatch h
  answers h := nomatch h

end PlanTree

/-! ## What optimizers do at a node -/

namespace PlanTree

open Proposal

/-- What the optimizers may put in the place of a node. -/
inductive Reduces : PlanTree → PlanTree → Prop where
  /-- The child of a join without conditions and with one child. -/
  | joinSingle {i : NodeId} {c : PlanTree} : Reduces (.node i (.join []) [c]) c
  /-- A filter for a join of one child. -/
  | joinConditions {i : NodeId} {conditions : List Atom} {c : PlanTree} (h : conditions ≠ []) :
      Reduces (.node i (.join conditions) [c]) (.node i (.filter conditions) [c])
  /-- The child of a union with one child. -/
  | unionSingle {i : NodeId} {n : Nat} {c : PlanTree} : Reduces (.node i (.union n) [c]) c
  /-- A join that has taken over the children of a join. -/
  | flattenJoin {i : NodeId} {outer inner : List Atom} {children : List PlanTree} {c : PlanTree}
      (hc : c ∈ children) (hop : c.op = .join inner) (hne : c.children ≠ []) :
      Reduces (.node i (.join outer) children)
        (.node i (.join (outer ++ inner)) (spliced (.node i (.join outer) children) c))
  /-- A union that has taken over the children of a union of its arity. -/
  | flattenUnion {i : NodeId} {n : Nat} {children : List PlanTree} {c : PlanTree}
      (hc : c ∈ children) (hop : c.op = .union n) (hne : c.children ≠ []) :
      Reduces (.node i (.union n) children)
        (.node i (.union n) (spliced (.node i (.union n) children) c))
  /-- A filter that has taken over the children and the conditions of a filter. -/
  | mergeFilters {i : NodeId} {outer inner : List Atom} {children : List PlanTree} {c : PlanTree}
      (hc : c ∈ children) (hop : c.op = .filter inner) :
      Reduces (.node i (.filter outer) children)
        (.node i (.filter (Operator.mergeConditions outer inner))
          (spliced (.node i (.filter outer) children) c))

variable {t new : PlanTree}

/-- Reducing a node keeps the meaning. -/
theorem Reduces.simplifies (h : t.Reduces new) (ht : t.ids.Nodup) : t.Simplifies new := by
  cases h with
  | joinSingle => exact simplifies_join_single
  | joinConditions => exact simplifies_join_filter
  | unionSingle => exact simplifies_union_single
  | flattenJoin hc hop =>
    exact simplifies_flatten_join hc (fun _ hs => eq_of_id_eq_of_children ht hc hs) hop
  | flattenUnion hc hop =>
    exact simplifies_flatten_union hc (fun _ hs => eq_of_id_eq_of_children ht hc hs) hop
  | mergeFilters hc hop =>
    exact simplifies_merge_filters hc (fun _ hs => eq_of_id_eq_of_children ht hc hs) hop

/-- Reducing a node takes no numbers that it did not have. -/
theorem Reduces.ids_sublist (h : t.Reduces new) (ht : t.ids.Nodup) : new.ids.Sublist t.ids := by
  cases h with
  | joinSingle | unionSingle =>
    rw [ids_node, List.flatMap_singleton]
    exact List.sublist_cons_self _ _
  | joinConditions =>
    rw [ids_node, ids_node]
  | flattenJoin hc | flattenUnion hc | mergeFilters hc =>
    exact ids_spliced_sublist fun _ hs => eq_of_id_eq_of_children ht hc hs

/-! ## The data atoms of a tree -/

/-- The atoms of the data nodes, from left to right. -/
def leafAtoms (t : PlanTree) : List Atom :=
  t.nodes.filterMap fun s =>
    match s.op with
    | .data a => some a
    | _ => none

theorem leafAtoms_node (i : NodeId) (op : Operator) (children : List PlanTree) :
    (node i op children).leafAtoms =
      (match op with | .data a => [a] | _ => []) ++ children.flatMap leafAtoms := by
  rw [leafAtoms, nodes_node, List.filterMap_cons, List.filterMap_flatMap]
  cases op <;> rfl

/-- A child that has no atom of its own hands on all that are below it. -/
theorem flatMap_leafAtoms_spliced {t c : PlanTree} (ht : t.ids.Nodup) (hc : c ∈ t.children)
    (hop : c.leafAtoms = c.children.flatMap leafAtoms) :
    (spliced t c).flatMap leafAtoms = t.children.flatMap leafAtoms := by
  rw [spliced, List.flatMap_assoc]
  refine List.flatMap_congr fun s hs => ?_
  by_cases hid : s.id = c.id
  · rw [if_pos hid, eq_of_id_eq_of_children ht hc hs hid, hop]
  · rw [if_neg hid, List.flatMap_singleton]

/-- Reducing a node keeps the data atoms. -/
theorem Reduces.leafAtoms_eq (h : t.Reduces new) (ht : t.ids.Nodup) :
    t.leafAtoms = new.leafAtoms := by
  have hown : ∀ {c : PlanTree}, (∀ a, c.op ≠ .data a) →
      c.leafAtoms = c.children.flatMap leafAtoms := by
    rintro ⟨i, op, children⟩ hop
    rw [leafAtoms_node]
    cases op with
    | data a => exact absurd rfl (hop a)
    | _ => rfl
  cases h with
  | joinSingle | unionSingle => rw [leafAtoms_node, List.flatMap_singleton, List.nil_append]
  | joinConditions => rw [leafAtoms_node, leafAtoms_node]
  | flattenJoin hc hop | flattenUnion hc hop | mergeFilters hc hop =>
    rw [leafAtoms_node, leafAtoms_node,
      flatMap_leafAtoms_spliced ht hc (hown fun a ha => nomatch hop.symm.trans ha)]
    rfl

end PlanTree

/-! ## What optimizers propose -/

namespace Optimizer

open PlanTree Proposal

/-- What an optimizer proposes for a node replaces it by what the node reduces to. -/
theorem propose_reduces {o : Optimizer} {t : PlanTree} {proposal : Proposal NodeId}
    (h : o.propose t = some proposal) {p p' : Plan} {u : Unit} (hfind : p.find? t.id = some t)
    (happly : proposal.apply.run p = .ok u p') : ∃ new, p' = p.graft t.id new ∧ t.Reduces new := by
  unfold propose at h
  split at h
  · -- a join of one child without conditions
    obtain rfl := Option.some.inj h
    obtain ⟨s, d, hs, hd, rfl⟩ := apply_replaceByChild_eq_ok.mp happly
    obtain rfl := Option.some.inj (hfind.symm.trans hs)
    obtain rfl := List.singleton_inj.mp hd
    exact ⟨_, rfl, .joinSingle⟩
  · -- a join of one child with conditions
    rename_i hne
    obtain rfl := Option.some.inj h
    obtain ⟨s, hs, -, rfl⟩ := apply_replaceOperator_eq_ok.mp happly
    obtain rfl := Option.some.inj (hfind.symm.trans hs)
    exact ⟨_, rfl, .joinConditions hne⟩
  · -- a union of one child
    obtain rfl := Option.some.inj h
    obtain ⟨s, d, hs, hd, rfl⟩ := apply_replaceByChild_eq_ok.mp happly
    obtain rfl := Option.some.inj (hfind.symm.trans hs)
    obtain rfl := List.singleton_inj.mp hd
    exact ⟨_, rfl, .unionSingle⟩
  · -- a join below a join
    obtain ⟨d, -, rfl⟩ := Option.map_eq_some_iff.mp h
    obtain ⟨s, c, op, hs, hc, hflat, hne, rfl⟩ := apply_flattenChild_eq_ok.mp happly
    obtain rfl := Option.some.inj (hfind.symm.trans hs)
    refine ⟨_, rfl, ?_⟩
    rcases flatten_eq_ok hflat with ⟨as, bs, hout, hinner, rfl⟩ | ⟨n, hout, -, -⟩
    · obtain rfl := Operator.join.inj hout
      exact .flattenJoin (childOf_eq_ok hc).1 hinner hne
    · exact nomatch hout
  · -- a union below a union
    obtain ⟨d, -, rfl⟩ := Option.map_eq_some_iff.mp h
    obtain ⟨s, c, op, hs, hc, hflat, hne, rfl⟩ := apply_flattenChild_eq_ok.mp happly
    obtain rfl := Option.some.inj (hfind.symm.trans hs)
    refine ⟨_, rfl, ?_⟩
    rcases flatten_eq_ok hflat with ⟨as, bs, hout, -, -⟩ | ⟨n, hout, hinner, rfl⟩
    · exact nomatch hout
    · obtain rfl := Operator.union.inj hout
      exact .flattenUnion (childOf_eq_ok hc).1 hinner hne
  · -- a filter below a filter
    split at h
    · obtain rfl := Option.some.inj h
      obtain ⟨s, c, outer, inner, hs, hc, hout, hinner, rfl⟩ := apply_mergeFilters_eq_ok.mp happly
      obtain rfl := Option.some.inj (hfind.symm.trans hs)
      obtain rfl := Operator.filter.inj hout
      exact ⟨_, rfl, .mergeFilters (childOf_eq_ok hc).1 hinner⟩
    · exact absurd h (by simp)
  · exact absurd h (by simp)

end Optimizer

/-! ## Rewriting a plan -/

namespace Plan

open PlanTree

/-- Whether a plan comes from another one by reducing a node. -/
def Rewrites (p p' : Plan) : Prop := ∃ t ∈ p.nodes, ∃ new, t.Reduces new ∧ p' = p.graft t.id new

variable {p p' : Plan}

/-- What an optimizer proposes for a node of a plan rewrites the plan. -/
theorem propose_rewrites {o : Optimizer} {t : PlanTree} {proposal : Proposal NodeId} {u : Unit}
    (hp : p.Numbered) (ht : t ∈ p.nodes) (h : o.propose t = some proposal)
    (happly : proposal.apply.run p = .ok u p') : p.Rewrites p' := by
  obtain ⟨new, hnew, hred⟩ := Optimizer.propose_reduces h (hp.find?_id ht) happly
  exact ⟨t, ht, new, hred, hnew⟩

theorem nextProposal_rewrites {os : List Optimizer} {proposal : Proposal NodeId} {u : Unit}
    (hp : p.Numbered) (h : p.nextProposal os = some proposal)
    (happly : proposal.apply.run p = .ok u p') : p.Rewrites p' := by
  obtain ⟨t, ht, hsome⟩ := List.exists_of_findSome?_eq_some h
  obtain ⟨o, -, ho⟩ := List.exists_of_findSome?_eq_some hsome
  exact propose_rewrites hp ht ho happly

theorem Rewrites.numbered (h : p.Rewrites p') (hp : p.Numbered) : p'.Numbered := by
  obtain ⟨t, ht, new, hnew, rfl⟩ := h
  exact hp.graft ht (hnew.ids_sublist (nodup_ids_of_mem hp.nodup ht))

/-- What all operators keep, and every reduction of a node, is kept by rewriting. -/
theorem Rewrites.rel {R : PlanTree → PlanTree → Prop} (h : p.Rewrites p') (hp : p.Numbered)
    (hcongr : ∀ i op cs cs', List.Forall₂ R cs cs' → R (.node i op cs) (.node i op cs'))
    (hreduces : ∀ t new : PlanTree, t.ids.Nodup → t.Reduces new → R t new) :
    R p.root p'.root := by
  obtain ⟨t, ht, new, hnew, rfl⟩ := h
  refine graft_rel hcongr fun s hs hid => ?_
  obtain rfl := eq_of_id_eq hp.nodup hs ht hid
  exact hreduces s new (nodup_ids_of_mem hp.nodup hs) hnew

theorem Rewrites.simplifies (h : p.Rewrites p') (hp : p.Numbered) : p.root.Simplifies p'.root :=
  h.rel hp simplifies_congr fun _ _ ht hnew => hnew.simplifies ht

theorem Rewrites.leafAtoms_eq (h : p.Rewrites p') (hp : p.Numbered) : p.leafAtoms = p'.leafAtoms :=
  h.rel (R := fun t t' => t.leafAtoms = t'.leafAtoms) hp
    (fun i op cs cs' hcs => by
      rw [leafAtoms_node, leafAtoms_node]
      congr 1
      induction hcs with
      | nil => rfl
      | cons hc _ ih => rw [List.flatMap_cons, List.flatMap_cons, hc, ih])
    fun _ _ ht hnew => hnew.leafAtoms_eq ht

end Plan

/-! ## Optimization -/

section

variable {os : List Optimizer} {n : Nat} {p q : Plan} {proposal : Proposal NodeId}

/-- Nothing is done if nothing is proposed. -/
theorem Edit.run_optimize_of_eq_none (hnext : p.nextProposal os = none) (n : Nat) :
    (Edit.optimize os n).run p = .ok 0 p := by
  cases n with
  | zero => rfl
  | succ n =>
    simp only [Edit.optimize, EStateM.run_bind, EStateM.run_get, hnext]
    rfl

/-- Optimization stops at a change that cannot be made. -/
theorem Edit.run_optimize_succ_of_error (hnext : p.nextProposal os = some proposal) {e : PlanError}
    (hrun : proposal.apply.run p = .error e q) : (Edit.optimize os (n + 1)).run p = .error e q := by
  simp only [Edit.optimize, EStateM.run_bind, EStateM.run_get, hnext, hrun]

/-- After a change optimization goes on. -/
theorem Edit.run_optimize_succ_of_ok (hnext : p.nextProposal os = some proposal) {u : Unit}
    (hrun : proposal.apply.run p = .ok u q) : (Edit.optimize os (n + 1)).run p =
      ((· + 1) <$> Edit.optimize os n : Edit Nat).run q := by
  simp only [Edit.optimize, EStateM.run_bind, EStateM.run_get, hnext, hrun]
  rfl

end

/-- Optimization stops where nothing is proposed, or goes on from the plan after the first change
that is proposed. -/
theorem Edit.optimize_succ_eq_ok {os : List Optimizer} {n k : Nat} {p p' : Plan}
    (h : (Edit.optimize os (n + 1)).run p = .ok k p') :
    p.nextProposal os = none ∧ p' = p ∨
      ∃ (proposal : Proposal NodeId) (u : Unit) (mid : Plan) (k' : Nat),
        p.nextProposal os = some proposal ∧ proposal.apply.run p = .ok u mid ∧
          (Edit.optimize os n).run mid = .ok k' p' := by
  rw [optimize, run_bind_eq_ok] at h
  obtain ⟨q, q', hget, hrest⟩ := h
  obtain ⟨rfl, rfl⟩ := EStateM.Result.ok.inj hget
  cases hnext : p.nextProposal os with
  | none =>
    rw [hnext] at hrest
    exact Or.inl ⟨rfl, (EStateM.Result.ok.inj hrest).2.symm⟩
  | some proposal =>
    simp only [hnext] at hrest
    obtain ⟨u, mid, happly, hrest'⟩ := run_bind_eq_ok.mp hrest
    obtain ⟨k', q, hopt, hpure⟩ := run_bind_eq_ok.mp hrest'
    obtain ⟨-, rfl⟩ := EStateM.Result.ok.inj hpure
    exact Or.inr ⟨proposal, u, mid, k', rfl, happly, hopt⟩

/-- Optimization keeps plans numbered, and simplifies them. -/
theorem Edit.optimize_eq_ok {os : List Optimizer} {n k : Nat} {p p' : Plan} (hp : p.Numbered)
    (h : (Edit.optimize os n).run p = .ok k p') :
    p'.Numbered ∧ p.root.Simplifies p'.root := by
  induction n generalizing p k with
  | zero =>
    obtain ⟨-, rfl⟩ := EStateM.Result.ok.inj h
    exact ⟨hp, .refl _⟩
  | succ n ih =>
    rcases optimize_succ_eq_ok h with ⟨-, rfl⟩ | ⟨proposal, u, mid, k', hnext, happly, hopt⟩
    · exact ⟨hp, .refl _⟩
    · have hrewrites := Plan.nextProposal_rewrites hp hnext happly
      obtain ⟨hq, hsimp⟩ := ih (hrewrites.numbered hp) hopt
      exact ⟨hq, (hrewrites.simplifies hp).trans hsimp⟩

end OntoQuery
