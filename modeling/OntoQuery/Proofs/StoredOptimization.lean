import OntoQuery.Proofs.PlanOptimization
import OntoQuery.Proofs.ReachablePlan
import OntoQuery.Reformulation

/-!
# Optimization of plans in arenas

A plan in an arena has a meaning of its own (`PlanStore.Holds`), which says for every key what the
valuations are that satisfy the node there, from the keys of its children.

* `Shows.holds_iff`: it is the meaning of the tree that is shown.
* `exists_rewrites_of_steps`: what the optimizers do to a plan in an arena is, step by step, a
  rewriting of the plan that is shown.
* `Shows.optimize_eq`: it has the result of optimizing that plan, the number of changes and the
  error included.  So a query can be planned in an arena as well as without one
  (`Reformulator.map_optimizeStored_ofRules`).
* `Reachable.optimize_holds_iff`: however long it goes on, optimization keeps the meaning of the
  root and the data atoms.
-/

namespace OntoQuery

namespace PlanStore

/-! ## Satisfaction -/

/-- Whether a valuation satisfies the node under a key, over given facts and conditions that are
given to be true. -/
inductive Holds (truth facts : Set Atom) (s : PlanStore) : Arena.Key → Valuation → Prop where
  /-- The instance of the atom is a fact. -/
  | data {k : Arena.Key} {a : Atom} {children : List Arena.Key} {parent : Option Arena.Key}
      {v : Valuation} (hk : s.get? k = some ⟨.data a, children, parent⟩) (h : a.bind v ∈ facts) :
      Holds truth facts s k v
  /-- All conditions and all children hold. -/
  | join {k : Arena.Key} {conditions : List Atom} {children : List Arena.Key}
      {parent : Option Arena.Key} {v : Valuation}
      (hk : s.get? k = some ⟨.join conditions, children, parent⟩)
      (hconditions : ∀ c ∈ conditions, c.bind v ∈ truth)
      (h : ∀ c ∈ children, Holds truth facts s c v) : Holds truth facts s k v
  /-- All conditions and all children hold. -/
  | filter {k : Arena.Key} {conditions : List Atom} {children : List Arena.Key}
      {parent : Option Arena.Key} {v : Valuation}
      (hk : s.get? k = some ⟨.filter conditions, children, parent⟩)
      (hconditions : ∀ c ∈ conditions, c.bind v ∈ truth)
      (h : ∀ c ∈ children, Holds truth facts s c v) : Holds truth facts s k v
  /-- One of the children holds. -/
  | union {k c : Arena.Key} {arity : Nat} {children : List Arena.Key} {parent : Option Arena.Key}
      {v : Valuation} (hk : s.get? k = some ⟨.union arity, children, parent⟩) (hc : c ∈ children)
      (h : Holds truth facts s c v) : Holds truth facts s k v
  /-- All children hold for a valuation that agrees on the variables of the head. -/
  | projection {k : Arena.Key} {head : Atom} {children : List Arena.Key}
      {parent : Option Arena.Key} {v : Valuation} (w : Valuation)
      (hk : s.get? k = some ⟨.projection head, children, parent⟩)
      (hw : ∀ x ∈ head.vars, w x = v x) (h : ∀ c ∈ children, Holds truth facts s c w) :
      Holds truth facts s k v

variable {truth facts : Set Atom} {s s' : PlanStore} {p p' : Plan} {t : PlanTree}

/-- What it takes to satisfy a node. -/
theorem holds_iff {k : Arena.Key} {n : PlanNode} (hk : s.get? k = some n) {v : Valuation} :
    s.Holds truth facts k v ↔
      match n.op with
      | .data a => a.bind v ∈ facts
      | .join conditions | .filter conditions =>
        (∀ c ∈ conditions, c.bind v ∈ truth) ∧ ∀ c ∈ n.children, s.Holds truth facts c v
      | .union _ => ∃ c ∈ n.children, s.Holds truth facts c v
      | .projection head =>
        ∃ w : Valuation, (∀ x ∈ head.vars, w x = v x) ∧
          ∀ c ∈ n.children, s.Holds truth facts c w := by
  obtain ⟨op, children, parent⟩ := n
  constructor
  · intro h
    cases h with
    | data hk' h =>
      obtain ⟨rfl, rfl, rfl⟩ := PlanNode.mk.inj (Option.some.inj (hk.symm.trans hk'))
      exact h
    | join hk' hconditions h =>
      obtain ⟨rfl, rfl, rfl⟩ := PlanNode.mk.inj (Option.some.inj (hk.symm.trans hk'))
      exact ⟨hconditions, h⟩
    | filter hk' hconditions h =>
      obtain ⟨rfl, rfl, rfl⟩ := PlanNode.mk.inj (Option.some.inj (hk.symm.trans hk'))
      exact ⟨hconditions, h⟩
    | union hk' hc h =>
      obtain ⟨rfl, rfl, rfl⟩ := PlanNode.mk.inj (Option.some.inj (hk.symm.trans hk'))
      exact ⟨_, hc, h⟩
    | projection w hk' hw h =>
      obtain ⟨rfl, rfl, rfl⟩ := PlanNode.mk.inj (Option.some.inj (hk.symm.trans hk'))
      exact ⟨w, hw, h⟩
  · intro h
    cases op with
    | data a => exact .data hk h
    | join conditions => exact .join hk h.1 h.2
    | filter conditions => exact .filter hk h.1 h.2
    | union arity =>
      obtain ⟨c, hc, h⟩ := h
      exact .union hk hc h
    | projection head =>
      obtain ⟨w, hw, h⟩ := h
      exact .projection w hk hw h

/-- A node is satisfied in an arena as it is in the tree. -/
theorem Keeps.holds_iff {q : Option Arena.Key} (h : s.Keeps q t) {v : Valuation} :
    s.Holds truth facts (s.keyOf t) v ↔ t.Holds truth facts v := by
  induction t using PlanTree.ind generalizing q v with
  | node i op children ih =>
    have hall : ∀ w : Valuation, (∀ k ∈ children.map s.keyOf, s.Holds truth facts k w) ↔
        ∀ c ∈ children, c.Holds truth facts w := fun w => by
      rw [List.forall_mem_map]
      exact forall₂_congr fun c hc => ih c hc (h.child hc)
    rw [PlanStore.holds_iff h.get?_eq]
    cases op with
    | data a => exact PlanTree.holds_data.symm
    | join conditions =>
      rw [PlanTree.holds_join]
      exact and_congr Iff.rfl (hall v)
    | filter conditions =>
      rw [PlanTree.holds_filter]
      exact and_congr Iff.rfl (hall v)
    | union arity =>
      rw [PlanTree.holds_union]
      show (∃ k ∈ children.map s.keyOf, s.Holds truth facts k v) ↔ _
      simp only [List.mem_map, exists_exists_and_eq_and]
      exact exists_congr fun c => and_congr_right fun hc => ih c hc (h.child hc)
    | projection head =>
      rw [PlanTree.holds_projection]
      exact exists_congr fun w => and_congr Iff.rfl (hall w)

theorem Shows.holds_iff (h : s.Shows p) {v : Valuation} :
    s.Holds truth facts s.root v ↔ p.root.Holds truth facts v := by
  rw [h.root_eq]
  exact h.keeps.holds_iff

/-! ## Rewriting what is shown -/

variable {os : List Optimizer}

/-- A change that an optimizer proposes rewrites the plan that is shown, if it does not fail. -/
theorem Step.rewrites (h : Step (os.map Optimizer.proposeAt) s s') (hp : s.Shows p) :
    s' = s ∨ ∃ p', p.Rewrites p' ∧ s'.Shows p' := by
  obtain ⟨q, hnext, rfl⟩ := h
  rw [hp.nextProposal_eq] at hnext
  obtain ⟨proposal, hproposal, rfl⟩ := Option.map_eq_some_iff.mp (Option.some.inj hnext)
  have hatomic := StoreEdit.apply_follows (proposal.map s.key) s p hp
  rw [Proposal.map_offset_map_key] at hatomic
  rw [StoreEdit.after]
  cases hrun : (StoreEdit.apply (proposal.map s.key)).run s with
  | ok u s' =>
    obtain ⟨p', hrun', hshows⟩ := hatomic.of_ok hrun
    exact Or.inr ⟨p', Plan.nextProposal_rewrites hp.numbered hproposal hrun', hshows⟩
  | error e s' => exact Or.inl (hatomic.eq_of_error hrun)

/-- Optimization rewrites the plan that is shown, one node after the other. -/
theorem exists_rewrites_of_steps
    (h : Relation.ReflTransGen (Step (os.map Optimizer.proposeAt)) s s') (hp : s.Shows p) :
    ∃ p', Relation.ReflTransGen Plan.Rewrites p p' ∧ s'.Shows p' := by
  induction h with
  | refl => exact ⟨p, .refl, hp⟩
  | tail _ hstep ih =>
    obtain ⟨p₁, hsteps, hp₁⟩ := ih
    rcases hstep.rewrites hp₁ with rfl | ⟨p₂, hrewrites, hp₂⟩
    · exact ⟨p₁, hsteps, hp₁⟩
    · exact ⟨p₂, hsteps.tail hrewrites, hp₂⟩

end PlanStore

namespace Plan

variable {p p' : Plan}

theorem numbered_of_rewrites (h : Relation.ReflTransGen Rewrites p p') (hp : p.Numbered) :
    p'.Numbered := by
  induction h with
  | refl => exact hp
  | tail _ hrewrites ih => exact hrewrites.numbered ih

/-- A plan that has been rewritten has the meaning and the data atoms of the first one. -/
theorem simplifies_of_rewrites (h : Relation.ReflTransGen Rewrites p p') (hp : p.Numbered) :
    p.root.Simplifies p'.root ∧ p.leafAtoms = p'.leafAtoms := by
  induction h with
  | refl => exact ⟨.refl _, rfl⟩
  | tail hsteps hrewrites ih =>
    have hnumbered := numbered_of_rewrites hsteps hp
    exact ⟨ih.1.trans (hrewrites.simplifies hnumbered),
      ih.2.trans (hrewrites.leafAtoms_eq hnumbered)⟩

end Plan

namespace PlanStore

open StoreEdit

variable {s : PlanStore} {p : Plan}

/-! ## The same result in an arena -/

/-- Counting one change more does not depend on where the plan is. -/
theorem counted_ofResult (tag : Nat) (edit : Edit Nat) (p : Plan) :
    counted (ofResult tag (edit.run p)) = ofResult tag (((· + 1) <$> edit).run p) := by
  rw [EStateM.run_map]
  cases edit.run p <;> rfl

/-- Optimizing a plan in an arena makes the changes that are made to the plan that is shown, and
ends with the same error where that does. -/
theorem Shows.optimize_eq (h : s.Shows p) (os : List Optimizer) (max : Nat) :
    PlanStore.optimize (os.map Optimizer.proposeAt) max s =
      some (ofResult s.arena.tag ((Edit.optimize os max).run p)) := by
  induction max generalizing s p with
  | zero => exact congrArg (fun s => some (EStateM.Result.ok 0 s)) h.eq_ofPlan
  | succ max ih =>
    have hstored := h.nextProposal_eq os
    cases hnext : p.nextProposal os with
    | none =>
      rw [hnext] at hstored
      rw [optimize_of_nextProposal_eq_none hstored, Edit.run_optimize_of_eq_none hnext]
      exact congrArg (fun s => some (EStateM.Result.ok 0 s)) h.eq_ofPlan
    | some proposal =>
      rw [hnext] at hstored
      have happly := h.run_apply_eq proposal
      cases hrun : proposal.apply.run p with
      | error e p' =>
        rw [hrun] at happly
        rw [optimize_succ_of_error hstored happly, Edit.run_optimize_succ_of_error hnext hrun]
        rfl
      | ok u p' =>
        rw [hrun] at happly
        have hnumbered := (Plan.nextProposal_rewrites h.numbered hnext hrun).numbered h.numbered
        rw [optimize_succ_eq_counted hstored happly (ih (shows_ofPlan _ hnumbered)),
          counted_ofResult, Edit.run_optimize_succ_of_ok hnext hrun]
        rfl

/-! ## Meaning -/

/-- Whatever optimizers are used in whatever order, and wherever optimization stops, the root of
the plan is satisfied by the same valuations as before, and the data nodes have the same atoms from
left to right. -/
theorem Reachable.optimize_holds_iff (h : s.Reachable) (os : List Optimizer) (max : Nat) :
    ∃ r, PlanStore.optimize (os.map Optimizer.proposeAt) max s = some r ∧
      (∀ truth facts v, (finalPlan r).Holds truth facts (finalPlan r).root v ↔
        s.Holds truth facts s.root v) ∧
      ∃ atoms, s.leafAtoms = some atoms ∧ (finalPlan r).leafAtoms = some atoms := by
  obtain ⟨r, hr, hsteps⟩ := h.wellFormed.exists_optimize (os.map Optimizer.proposeAt) max
  obtain ⟨p, hp, -⟩ := h.wellFormed
  obtain ⟨p', hrewrites, hp'⟩ := exists_rewrites_of_steps hsteps hp
  obtain ⟨hsimplifies, hatoms⟩ := Plan.simplifies_of_rewrites hrewrites hp.numbered
  refine ⟨r, hr, fun truth facts v => ?_, p.leafAtoms, hp.leafAtoms_eq, ?_⟩
  · rw [hp'.holds_iff, hp.holds_iff, hsimplifies.holds]
  · rw [hp'.leafAtoms_eq, hatoms]

/-- The join that is left over a single data node holds where both joins did. -/
theorem optimize_nestedJoins :
    ∃ r, PlanStore.optimize (Optimizer.all.map Optimizer.proposeAt) 10 nestedJoins = some r ∧
      (∀ truth facts v, (finalPlan r).Holds truth facts (finalPlan r).root v ↔
        .plain "a" [] ∈ facts) ∧
      (finalPlan r).leafAtoms = some [.plain "a" []] := by
  obtain ⟨r, hr, hholds, atoms, hatoms, hatoms'⟩ :=
    reachable_nestedJoins.optimize_holds_iff Optimizer.all 10
  have hshows := shows_nestedJoins
  rw [hshows.leafAtoms_eq] at hatoms
  refine ⟨r, hr, fun truth facts v => (hholds truth facts v).trans ?_, ?_⟩
  · rw [hshows.holds_iff, PlanTree.holds_join]
    simp [PlanTree.holds_join, PlanTree.leaf, PlanTree.holds_data, Atom.bind]
  · rw [hatoms', ← Option.some.inj hatoms]
    cbv

end PlanStore

/-! ## Planning a query in an arena -/

namespace Reformulator

/-- Applies the optimizers to a plan in an arena, if the settings ask for it. -/
def optimizeStored (cfg : Settings) (s : PlanStore) : Option (Except PlanError PlanStore) :=
  if cfg.optimizePlan then
    (s.optimize (Optimizer.all.map Optimizer.proposeAt) cfg.maxOptimizationSteps).map fun
      | .ok _ s' => .ok s'
      | .error e _ => .error e
  else
    some (.ok s)

/-- A plan in an arena is optimized as the plan that is shown. -/
theorem optimizeStored_eq {s : PlanStore} {p : Plan} (h : s.Shows p) (cfg : Settings) :
    optimizeStored cfg s = some ((optimize cfg p).map (PlanStore.ofPlan s.arena.tag)) := by
  unfold optimizeStored optimize
  split
  · rw [h.optimize_eq]
    cases (Edit.optimize Optimizer.all cfg.maxOptimizationSteps).run p <;> rfl
  · exact congrArg (fun s => some (Except.ok s)) h.eq_ofPlan

/-- A query is planned in an arena as it is planned without one: the plan of its rules is made and
optimized with the same result, or with the same error in the same stage. -/
theorem map_optimizeStored_ofRules (tag : Nat) (cfg : Settings) (rules : List Rule) :
    (PlanStore.ofRules tag rules).map (optimizeStored cfg) =
      (Plan.ofRules rules).map fun p => some ((optimize cfg p).map (PlanStore.ofPlan tag)) := by
  rw [PlanStore.ofRules_eq]
  cases hp : Plan.ofRules rules with
  | error e => rfl
  | ok p =>
    have hshows := PlanStore.shows_ofPlan tag (Plan.ofRules_eq_ok hp).1
    exact congrArg Except.ok (optimizeStored_eq hshows cfg)

end Reformulator

end OntoQuery
