import Mathlib.Logic.Relation
import OntoQuery.Proofs.StoredProposals
import OntoQuery.Proofs.StoredReads
import OntoQuery.Proofs.StoredRules
import OntoQuery.Proofs.StoredTransform

/-!
# The plans that can be reached

Plans are made of one operator or of rules, and changed by edits, proposals, optimization and
transformers, with any keys and operators, and whether or not a change fails.  All plans that come
about in this way show trees (`PlanStore.Reachable.wellFormed`).

* `IsTree`: what the keys in the arena have to do with each other in a tree.
* `Reachable.isTree`: they do in all plans that can be reached.
* `Reachable.unchanged_of_error`: an edit that fails changes nothing.
-/

namespace OntoQuery

namespace PlanStore

/-! ## Plans in which everything fits -/

/-- Whether a plan in an arena shows a plan with room for the children of all nodes. -/
def WellFormed (s : PlanStore) : Prop := ∃ p, s.Shows p ∧ p.root.Roomy

theorem wellFormed_single (tag : Nat) (op : Operator) : (single tag op).WellFormed :=
  ⟨_, shows_single tag op, PlanTree.roomy_leaf 0 op⟩

end PlanStore

namespace StoreEdit

open PlanStore

variable {α β : Type} {I : PlanStore → Prop}

/-- Whether an edit keeps an invariant, also if it fails. -/
def Preserves (edit : StoreEdit α) (I : PlanStore → Prop) : Prop := ∀ s, I s → I (edit.after s)

theorem Preserves.bind {x : StoreEdit α} {f : α → StoreEdit β} (hx : x.Preserves I)
    (hf : ∀ a, (f a).Preserves I) : (x >>= f).Preserves I := by
  intro s hs
  have h := hx s hs
  unfold after at h ⊢
  rw [EStateM.run_bind]
  cases hrun : x.run s with
  | ok a s' =>
    rw [hrun] at h
    exact hf a s' h
  | error e s' =>
    rw [hrun] at h
    exact h

theorem preserves_pure (a : α) : (pure a : StoreEdit α).Preserves I := fun _ hs => hs

theorem preserves_throw (e : PlanError) : (throw e : StoreEdit α).Preserves I := fun _ hs => hs

theorem preserves_forM {γ : Type} {l : List γ} {f : γ → StoreEdit Unit}
    (hf : ∀ x ∈ l, (f x).Preserves I) : (l.forM f).Preserves I := by
  induction l with
  | nil => exact preserves_pure ()
  | cons x l ih =>
    obtain ⟨hx, hl⟩ := List.forall_mem_cons.mp hf
    exact hx.bind fun _ => ih hl

/-- An edit that follows one that leaves room for children keeps plans well-formed. -/
theorem Follows.preserves {edit : StoreEdit α} {spec : Edit β} {f : α → β}
    (h : edit.Follows spec f) (hspec : spec.KeepsRoom) : edit.Preserves WellFormed := by
  rintro s ⟨p, hp, hroomy⟩
  have hatomic := h s p hp
  unfold after
  cases hrun : edit.run s with
  | ok a s' =>
    obtain ⟨p', hrun', hshows⟩ := hatomic.of_ok hrun
    exact ⟨p', hshows, hspec p _ p' hroomy hrun'⟩
  | error e s' =>
    obtain rfl := hatomic.eq_of_error hrun
    exact ⟨p, hp, hroomy⟩

/-- What is shown after an edit that succeeds is what the other edit ends with. -/
theorem Follows.shows_after {edit : StoreEdit α} {spec : Edit β} {f : α → β}
    (h : edit.Follows spec f) {s s' : PlanStore} {p q : Plan} (hp : s.Shows p) {a : α}
    (hrun : edit.run s = .ok a s') {b : β} (hspec : spec.run p = .ok b q) :
    (edit.after s).Shows q := by
  obtain ⟨p₁, hrun₁, hshows⟩ := (h s p hp).of_ok hrun
  obtain ⟨-, rfl⟩ := EStateM.Result.ok.inj (hspec.symm.trans hrun₁)
  rwa [after, hrun]

theorem addChild_preserves (parent : Arena.Key) (op : Operator) :
    (addChild parent op).Preserves WellFormed :=
  (addChild_follows parent op).preserves (Edit.addChild_keepsRoom _ op)

theorem replaceOperator_preserves (k : Arena.Key) (op : Operator) :
    (replaceOperator k op).Preserves WellFormed :=
  (replaceOperator_follows k op).preserves (Edit.replaceOperator_keepsRoom _ op)

theorem removeSubtree_preserves (k : Arena.Key) : (removeSubtree k).Preserves WellFormed :=
  (removeSubtree_follows k).preserves (Edit.removeSubtree_keepsRoom _)

theorem apply_preserves (proposal : Proposal Arena.Key) :
    (apply proposal).Preserves WellFormed :=
  (apply_follows proposal).preserves (Edit.apply_keepsRoom _)

/-- A rule is planned by adding nodes. -/
theorem addRule_preserves (parent : Arena.Key) (arity : Nat) (r : Rule) :
    (addRule parent arity r).Preserves WellFormed := by
  unfold addRule
  split
  · exact preserves_throw _
  · exact preserves_throw _
  · split
    · exact preserves_throw _
    · dsimp only
      split
      · exact preserves_throw _
      · have hdata : ∀ (k : Arena.Key) (data : List Atom), (data.forM fun a => do
            let _ ← addChild k (.data a) : StoreEdit Unit).Preserves WellFormed := fun k data =>
          preserves_forM fun a _ => (addChild_preserves k _).bind fun _ => preserves_pure ()
        refine (addChild_preserves parent _).bind fun k => ?_
        split
        · refine (preserves_pure k).bind fun k => ?_
          split
          · exact (addChild_preserves k _).bind fun k => hdata k _
          · exact (preserves_pure k).bind fun k => hdata k _
        · refine (addChild_preserves k _).bind fun k => ?_
          split
          · exact (addChild_preserves k _).bind fun k => hdata k _
          · exact (preserves_pure k).bind fun k => hdata k _

end StoreEdit

namespace PlanStore

open StoreEdit

theorem wellFormed_ofRules {tag : Nat} {rs : List Rule} {s : PlanStore}
    (h : ofRules tag rs = .ok s) : s.WellFormed := by
  unfold ofRules at h
  split at h
  · exact absurd h (by simp)
  · rename_i first rest
    split at h
    · exact absurd h (by simp)
    · rename_i head _
      have hs := preserves_forM (f := addRule (single tag (.union head.arity)).root head.arity)
        (l := first :: rest) (fun r _ => addRule_preserves _ _ r) _
        (wellFormed_single tag (.union head.arity))
      dsimp only at h
      split at h
      · rename_i s' hrun
        obtain rfl := Except.ok.inj h
        rw [after, hrun] at hs
        exact hs
      · exact absurd h (by simp)

theorem WellFormed.transform {σ ε : Type} {t : Transformer σ ε} {invalid : PlanError → ε}
    {start : σ} {s s' : PlanStore} (hs : s.WellFormed)
    (h : s.transform t invalid start = some (.ok s')) : s'.WellFormed := by
  obtain ⟨p, hp, hroomy⟩ := hs
  obtain ⟨f, hf, rfl, -⟩ := transform_eq_ok h
  refine ⟨_, hp.withOperators f, hroomy.relabel fun t ht => ?_⟩
  obtain ⟨q, hq⟩ := hp.exists_keeps ht
  exact hf _ _ hq.get?_eq

/-! ## One change after another -/

/-- Optimization goes on by applying what is proposed next, which may fail. -/
def Step (os : List StoreOptimizer) (s s' : PlanStore) : Prop :=
  ∃ q, s.nextProposal os = some (some q) ∧ s' = (StoreEdit.apply q).after s

variable {os : List StoreOptimizer} {s s' : PlanStore}

theorem Step.wellFormed (h : Step os s s') (hs : s.WellFormed) : s'.WellFormed := by
  obtain ⟨q, -, rfl⟩ := h
  exact apply_preserves q s hs

/-- An outcome with one more change. -/
def counted : EStateM.Result PlanError PlanStore Nat → EStateM.Result PlanError PlanStore Nat
  | .ok made s => .ok (made + 1) s
  | .error e s => .error e s

/-- One change is made and counted. -/
theorem optimize_succ_eq_counted {q : Proposal Arena.Key} {max : Nat}
    (hnext : s.nextProposal os = some (some q)) {u : Unit}
    (hrun : (StoreEdit.apply q).run s = .ok u s') {r : EStateM.Result PlanError PlanStore Nat}
    (h : optimize os max s' = some r) : optimize os (max + 1) s = some (counted r) := by
  simp only [optimize, hnext, Option.bind_eq_bind, Option.bind_some, hrun, h]
  cases r <;> rfl

theorem optimize_succ_of_ok {q : Proposal Arena.Key} {max : Nat}
    (hnext : s.nextProposal os = some (some q)) {u : Unit}
    (hrun : (StoreEdit.apply q).run s = .ok u s') {r : EStateM.Result PlanError PlanStore Nat}
    (h : optimize os max s' = some r) :
    ∃ r', optimize os (max + 1) s = some r' ∧ finalPlan r' = finalPlan r :=
  ⟨counted r, optimize_succ_eq_counted hnext hrun h, by cases r <;> rfl⟩

/-- Optimization stops at a change that cannot be made. -/
theorem optimize_succ_of_error {q : Proposal Arena.Key} {max : Nat}
    (hnext : s.nextProposal os = some (some q)) {e : PlanError}
    (hrun : (StoreEdit.apply q).run s = .error e s') :
    optimize os (max + 1) s = some (.error e s') := by
  simp only [optimize, hnext, Option.bind_eq_bind, Option.bind_some, hrun]
  rfl

/-- Nothing is done if nothing is proposed. -/
theorem optimize_of_nextProposal_eq_none (hnext : s.nextProposal os = some none) (max : Nat) :
    optimize os max s = some (.ok 0 s) := by
  cases max with
  | zero => rfl
  | succ max => rw [optimize, hnext]; rfl

/-- Optimization of a well-formed plan comes to an end after some changes, whatever is proposed. -/
theorem WellFormed.exists_optimize (hs : s.WellFormed) (os : List StoreOptimizer) (max : Nat) :
    ∃ r, optimize os max s = some r ∧ Relation.ReflTransGen (Step os) s (finalPlan r) := by
  induction max generalizing s with
  | zero => exact ⟨_, rfl, .refl⟩
  | succ max ih =>
    obtain ⟨p, hp, -⟩ := id hs
    have hnext : s.nextProposal os = some (s.firstProposal os (p.nodes.map s.keyOf)) := by
      unfold nextProposal
      rw [hp.preOrder_eq]
      rfl
    cases hfirst : s.firstProposal os (p.nodes.map s.keyOf) with
    | none =>
      rw [hfirst] at hnext
      exact ⟨_, optimize_of_nextProposal_eq_none hnext _, .refl⟩
    | some q =>
      rw [hfirst] at hnext
      have hstep : Step os s ((StoreEdit.apply q).after s) := ⟨q, hnext, rfl⟩
      cases hrun : (StoreEdit.apply q).run s with
      | error e s' =>
        rw [after, hrun] at hstep
        exact ⟨.error e s', optimize_succ_of_error hnext hrun, .single hstep⟩
      | ok u s' =>
        rw [after, hrun] at hstep
        obtain ⟨r, hr, hsteps⟩ := ih (hstep.wellFormed hs)
        obtain ⟨r', hr', hfinal⟩ := optimize_succ_of_ok hnext hrun hr
        exact ⟨r', hr', hfinal ▸ .head hstep hsteps⟩

theorem wellFormed_of_steps (h : Relation.ReflTransGen (Step os) s s') (hs : s.WellFormed) :
    s'.WellFormed := by
  induction h with
  | refl => exact hs
  | tail _ hstep ih => exact hstep.wellFormed ih

/-! ## Reachable plans -/

/-- The plans that come about by building, editing, optimizing and transforming.  Nothing is asked
of the keys, operators, proposals, optimizers and transformers, and a change may fail. -/
inductive Reachable : PlanStore → Prop where
  /-- A plan of one operator. -/
  | single (tag : Nat) (op : Operator) : Reachable (.single tag op)
  /-- The plan of a list of rules. -/
  | ofRules {tag : Nat} {rs : List Rule} {s : PlanStore} (h : PlanStore.ofRules tag rs = .ok s) :
      Reachable s
  /-- A plan after a node was to be added. -/
  | addChild {s : PlanStore} (hs : Reachable s) (parent : Arena.Key) (op : Operator) :
      Reachable ((StoreEdit.addChild parent op).after s)
  /-- A plan after a node was to get another operator. -/
  | replaceOperator {s : PlanStore} (hs : Reachable s) (k : Arena.Key) (op : Operator) :
      Reachable ((StoreEdit.replaceOperator k op).after s)
  /-- A plan after a node was to be taken out. -/
  | removeSubtree {s : PlanStore} (hs : Reachable s) (k : Arena.Key) :
      Reachable ((StoreEdit.removeSubtree k).after s)
  /-- A plan after a proposal was to be applied. -/
  | apply {s : PlanStore} (hs : Reachable s) (proposal : Proposal Arena.Key) :
      Reachable ((StoreEdit.apply proposal).after s)
  /-- What optimization leaves. -/
  | optimize {s : PlanStore} (hs : Reachable s) {os : List StoreOptimizer} {max : Nat}
      {r : EStateM.Result PlanError PlanStore Nat} (h : PlanStore.optimize os max s = some r) :
      Reachable (finalPlan r)
  /-- A transformed plan. -/
  | transform {s s' : PlanStore} (hs : Reachable s) {σ ε : Type} {t : Transformer σ ε}
      {invalid : PlanError → ε} {start : σ}
      (h : PlanStore.transform t invalid start s = some (.ok s')) : Reachable s'

theorem Reachable.wellFormed (h : s.Reachable) : s.WellFormed := by
  induction h with
  | single tag op => exact wellFormed_single tag op
  | ofRules h => exact wellFormed_ofRules h
  | addChild _ parent op ih => exact addChild_preserves parent op _ ih
  | replaceOperator _ k op ih => exact replaceOperator_preserves k op _ ih
  | removeSubtree _ k ih => exact removeSubtree_preserves k _ ih
  | apply _ proposal ih => exact apply_preserves proposal _ ih
  | optimize _ h ih =>
    obtain ⟨r, hr, hsteps⟩ := ih.exists_optimize _ _
    obtain rfl := Option.some.inj (hr.symm.trans h)
    exact wellFormed_of_steps hsteps ih
  | transform _ h ih => exact ih.transform h

/-! ## Trees of keys -/

/-- Whether the keys that are kept in an arena are those of a tree. -/
structure IsTree (s : PlanStore) : Prop where
  /-- The root is stored and has no parent. -/
  root : ∃ n, s.get? s.root = some n ∧ n.parent = none
  /-- A child of a stored node is stored and has the node as its parent. -/
  child : ∀ k n, s.get? k = some n → ∀ c ∈ n.children, ∃ m, s.get? c = some m ∧ m.parent = some k
  /-- Every stored node but the root occurs exactly once in the list of its parent, and in no other
  list. -/
  once : ∀ k n, s.get? k = some n → k ≠ s.root → ∃ l m, n.parent = some l ∧ s.get? l = some m ∧
    m.children.count k = 1 ∧ ∀ l' m', s.get? l' = some m' → k ∈ m'.children → l' = l
  /-- Every stored node is reached from the root through lists of children. -/
  reached : ∀ k n, s.get? k = some n →
    Relation.ReflTransGen (fun l c => c ∈ s.children l) s.root k
  /-- Going through the plan in pre-order comes to an end, and lists every stored node once. -/
  preOrder : ∃ ks, s.preOrder = some ks ∧ ks.Nodup ∧ (∀ k, k ∈ ks ↔ ∃ n, s.get? k = some n) ∧
    ks.length = s.size
  /-- No node has more children than its kind allows. -/
  room : ∀ k n, s.get? k = some n → n.op.kind.hasRoom n.children.length = true

section

variable {p : Plan} {t u : PlanTree}

/-- Whatever is below a node of the plan is reached from there. -/
theorem Shows.reached (h : s.Shows p) (hu : u ∈ p.nodes) (ht : t ∈ u.nodes) :
    Relation.ReflTransGen (fun l c => c ∈ s.children l) (s.keyOf u) (s.keyOf t) := by
  induction u using PlanTree.ind with
  | node i op children ih =>
    rcases PlanTree.mem_nodes_node.mp ht with rfl | ⟨c, hc, ht⟩
    · exact .refl
    · obtain ⟨q, hq⟩ := h.exists_keeps hu
      have hedge : s.keyOf c ∈ s.children (s.keyOf (.node i op children)) := by
        rw [hq.children_eq]
        exact List.mem_map_of_mem hc
      have hcp := PlanTree.child_mem_nodes hu hc
      exact .head hedge (ih c hc hcp ht)

/-- A node that is in the list of a stored node is its child. -/
theorem Shows.mem_children (h : s.Shows p) (ht : t ∈ p.nodes) {l : Arena.Key} {n : PlanNode}
    (hl : s.get? l = some n) (hmem : s.keyOf t ∈ n.children) :
    ∃ v ∈ p.nodes, l = s.keyOf v ∧ t ∈ v.children := by
  obtain ⟨v, hv, q, rfl, rfl, -⟩ := h.exists_node hl
  obtain ⟨d, hd, heq⟩ := List.mem_map.mp hmem
  have hdp := PlanTree.child_mem_nodes hv hd
  exact ⟨v, hv, rfl, h.keyOf_inj hdp ht heq ▸ hd⟩

/-- Every key of a plan that shows a tree is in its place. -/
theorem isTree_of_wellFormed (hs : s.WellFormed) : s.IsTree := by
  obtain ⟨p, h, hroomy⟩ := hs
  refine ⟨?_, fun k n hk c hc => ?_, fun k n hk hroot => ?_, fun k n hk => ?_, ?_, fun k n hk => ?_⟩
  · exact ⟨_, h.root_eq ▸ h.keeps.get?_eq, rfl⟩
  · obtain ⟨t, ht, q, rfl, rfl, hq⟩ := h.exists_node hk
    obtain ⟨d, hd, rfl⟩ := List.mem_map.mp hc
    exact ⟨_, (hq.child hd).get?_eq, rfl⟩
  · obtain ⟨t, ht, q, rfl, rfl, hq⟩ := h.exists_node hk
    rcases h.eq_root_or_exists_parent ht with rfl | ⟨u, hu, htu, hqu⟩
    · exact absurd h.root_eq.symm hroot
    · obtain ⟨q', hq'⟩ := h.exists_keeps hu
      refine ⟨s.keyOf u, _, ?_, hq'.get?_eq, ?_, fun l m hl hmem => ?_⟩
      · show q = some (s.keyOf u)
        rw [← hq.parent_eq, hqu.parent_eq]
      · exact List.count_eq_one_of_mem (nodup_map_keyOf (h.nodup_ids hu)) (List.mem_map_of_mem htu)
      · obtain ⟨v, hv, rfl, htv⟩ := h.mem_children ht hl hmem
        rw [h.parent_unique hv hu htv htu]
  · obtain ⟨t, ht, q, rfl, rfl, hq⟩ := h.exists_node hk
    exact h.root_eq ▸ h.reached (PlanTree.self_mem_nodes p.root) ht
  · refine ⟨_, h.preOrder_eq_map_ids, h.numbered.nodup.map s.key_injective, fun k => ?_, ?_⟩
    · rw [List.mem_map]
      constructor
      · rintro ⟨i, hi, rfl⟩
        exact h.keeps.exists_of_mem_ids hi
      · rintro ⟨n, hn⟩
        obtain ⟨i, hi, rfl⟩ := h.stored k n hn
        exact ⟨i, hi, rfl⟩
    · rw [h.size_eq, List.length_map]
      exact List.length_map _
  · obtain ⟨t, ht, q, rfl, rfl, hq⟩ := h.exists_node hk
    rw [nodeOf, List.length_map]
    exact hroomy t ht

end

/-- In every plan that can be reached the children, the parents, the root and the stored nodes make
up one tree, and every node has room for its children. -/
theorem Reachable.isTree (h : s.Reachable) : s.IsTree := isTree_of_wellFormed h.wellFormed

/-- A join over a join over a data node. -/
def nestedJoins : PlanStore :=
  (StoreEdit.addChild ⟨0, 1⟩ (.data (.plain "a" []))).after
    ((StoreEdit.addChild ⟨0, 0⟩ (.join [])).after (.single 0 (.join [])))

theorem reachable_nestedJoins : nestedJoins.Reachable :=
  .addChild (.addChild (.single 0 (.join [])) ⟨0, 0⟩ (.join [])) ⟨0, 1⟩ (.data (.plain "a" []))

theorem shows_nestedJoins : nestedJoins.Shows
    ⟨.node 0 (.join []) [.node 1 (.join []) [.leaf 2 (.data (.plain "a" []))]], 3⟩ := by
  have hjoin := (addChild_follows ⟨0, 0⟩ (.join [])).shows_after (shows_single 0 (.join [])) rfl
    (b := 1) (q := ⟨.node 0 (.join []) [.leaf 1 (.join [])], 2⟩) (by cbv)
  exact (addChild_follows ⟨0, 1⟩ (.data (.plain "a" []))).shows_after hjoin rfl (b := 2) (by cbv)

/-- The lower join is flattened into the upper one, and once more when it is gone. -/
theorem isTree_flattened_nestedJoins :
    let flatten : StoreEdit Unit := StoreEdit.apply (.flattenChild ⟨0, 0⟩ ⟨0, 1⟩)
    (flatten.after (flatten.after nestedJoins)).IsTree ∧
      (flatten.after (flatten.after nestedJoins)).size = 2 := by
  refine ⟨?_, by decide⟩
  exact Reachable.isTree (.apply (.apply reachable_nestedJoins _) _)

/-! ## Edits that fail -/

/-- Every edit of a plan that can be reached checks all it has to check before it changes anything:
if it fails, the plan is the same as before. -/
theorem Reachable.unchanged_of_error (h : s.Reachable) :
    (∀ parent op e s', (StoreEdit.addChild parent op).run s = .error e s' → s' = s) ∧
    (∀ k op e s', (StoreEdit.replaceOperator k op).run s = .error e s' → s' = s) ∧
    (∀ k e s', (StoreEdit.removeSubtree k).run s = .error e s' → s' = s) ∧
    ∀ proposal e s', (StoreEdit.apply proposal).run s = .error e s' → s' = s := by
  obtain ⟨p, hp, -⟩ := h.wellFormed
  refine ⟨fun parent op e s' hrun => ?_, fun k op e s' hrun => ?_, fun k e s' hrun => ?_,
    fun proposal e s' hrun => ?_⟩
  · exact (addChild_follows parent op s p hp).eq_of_error hrun
  · exact (replaceOperator_follows k op s p hp).eq_of_error hrun
  · exact (removeSubtree_follows k s p hp).eq_of_error hrun
  · exact (apply_follows proposal s p hp).eq_of_error hrun

theorem unchanged_nestedJoins :
    ∃ s', (StoreEdit.apply (.mergeFilters ⟨0, 0⟩ ⟨0, 1⟩)).run nestedJoins =
      .error (.invalidProposal (.notFilters 0 1)) s' ∧ s' = nestedJoins := by
  obtain ⟨s', hrun⟩ : ∃ s', (StoreEdit.apply (.mergeFilters ⟨0, 0⟩ ⟨0, 1⟩)).run nestedJoins =
      .error (.invalidProposal (.notFilters 0 1)) s' := ⟨_, rfl⟩
  exact ⟨s', hrun, reachable_nestedJoins.unchanged_of_error.2.2.2 _ _ _ hrun⟩

end PlanStore

end OntoQuery
