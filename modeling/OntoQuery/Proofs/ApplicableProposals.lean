import OntoQuery.Proofs.PlanNormalForm

/-!
# Which proposals can be applied

An optimizer looks at a node and its children before it proposes a change, and when the change is
applied, the node and its children are checked again.  Both ask for the same kinds, arities and
numbers of children, but for one thing: a join or a union takes over the children of a child only if
there are some, and no optimizer asks for that.  So a join is blocked by a childless join below it,
and a union by a childless union of its arity.

* `Shows.apply_or_blocked`: a proposed change is made, unless it is to flatten such a child.
* `Shows.exists_optimize`: so optimization fails only where a node is blocked.
* `Branched`: every join and every union has a child.  Changes keep it so, and nothing is blocked.
* `Reachable.proposals_apply`: what this means for the plans that can be reached.
* `optimize_childlessJoin_fails`: a plan in which a join is blocked.
-/

namespace OntoQuery

/-! ## Joins and unions with children -/

/-- Whether a node of a kind may have a number of children: joins and unions have some. -/
def OperatorKind.branches : OperatorKind → Nat → Bool
  | join, n | union, n => 0 < n
  | _, _ => true

theorem Operator.Alike.pos_of_branches {outer inner : Operator} (h : outer.Alike inner) {n : Nat}
    (hn : inner.kind.branches n = true) : 0 < n := by
  cases h <;> exact of_decide_eq_true hn

namespace PlanTree

variable {t c new : PlanTree}

theorem Blocked.not_branched (h : t.Blocked c) : ¬ t.Counted OperatorKind.branches := fun ht =>
  absurd h.childless (List.ne_nil_of_length_pos
    (h.alike.pos_of_branches (ht c (mem_nodes_of_mem_children h.mem))))

/-- Where joins and unions have children, this is so after a node has been reduced. -/
theorem Reduces.branched (h : t.Reduces new) (ht : t.Counted OperatorKind.branches) :
    new.Counted OperatorKind.branches := by
  cases h with
  | joinSingle | unionSingle => exact (counted_node.mp ht).2 _ (List.mem_singleton_self _)
  | joinConditions => exact counted_node.mpr ⟨rfl, (counted_node.mp ht).2⟩
  | flattenJoin hc _ hne | flattenUnion hc _ hne =>
    exact counted_node.mpr ⟨decide_eq_true (length_spliced_pos hc hne), ht.spliced hc⟩
  | mergeFilters hc _ => exact counted_node.mpr ⟨rfl, ht.spliced hc⟩

end PlanTree

theorem Plan.Rewrites.branched {p p' : Plan} (h : p.Rewrites p')
    (hp : p.root.Counted OperatorKind.branches) : p'.root.Counted OperatorKind.branches := by
  obtain ⟨t, ht, new, hnew, rfl⟩ := h
  exact hp.graft (hnew.branched (hp.of_mem ht)) t.id

/-! ## Blocked nodes in arenas -/

namespace PlanStore

open StoreEdit

variable {s : PlanStore} {p : Plan} {t : PlanTree} {os : List Optimizer}

/-- Whether a stored node is blocked by a child that is like it and has nothing to hand over. -/
def Blocked (s : PlanStore) (k c : Arena.Key) : Prop :=
  ∃ n m, s.get? k = some n ∧ c ∈ n.children ∧ s.get? c = some m ∧ n.op.Alike m.op ∧ m.children = []

/-- Whether every join and every union that is stored has a child. -/
def Branched (s : PlanStore) : Prop :=
  ∀ k n, s.get? k = some n → n.op.kind.branches n.children.length = true

theorem Shows.blocked (h : s.Shows p) (ht : t ∈ p.nodes) {c : PlanTree} (hc : t.Blocked c) :
    s.Blocked (s.keyOf t) (s.keyOf c) := by
  obtain ⟨q, hq⟩ := h.exists_keeps ht
  refine ⟨_, _, hq.get?_eq, List.mem_map_of_mem hc.mem, (hq.child hc.mem).get?_eq, hc.alike, ?_⟩
  rw [nodeOf, hc.childless, List.map_nil]

/-- A child that blocks a node is not flattened, and nothing is changed. -/
theorem Blocked.run_flattenChild {k c : Arena.Key} (h : s.Blocked k c) :
    (StoreEdit.apply (.flattenChild k c)).run s =
      .error (.invalidProposal (.childless c.offset)) s := by
  obtain ⟨n, m, hn, hc, hm, halike, hempty⟩ := h
  obtain ⟨op, hop⟩ := halike.exists_flatten_eq_ok
  rw [StoreEdit.apply, run_bind_of_ok (run_checkIsChild hn hc), run_bind_of_ok (run_find hn),
    run_bind_of_ok (run_find hm), run_bind_of_ok (run_check hop), hempty]
  rfl

/-- What is proposed for a node is done, and rewrites the plan that is shown, unless the node is
blocked. -/
theorem Shows.apply_or_blocked (h : s.Shows p) (ht : t ∈ p.nodes) {o : Optimizer}
    {proposal : Proposal NodeId} (hpropose : o.propose t = some proposal) :
    (∃ s' p', (StoreEdit.apply (proposal.map s.key)).run s = .ok () s' ∧ s'.Shows p' ∧
        p.Rewrites p') ∨
      o = .nestedOperators ∧ ∃ c, t.Blocked c ∧
        proposal.map s.key = .flattenChild (s.keyOf t) (s.keyOf c) := by
  rcases o.apply_or_blocked_of_propose h.numbered ht hpropose with
    ⟨p', happly⟩ | ⟨hnested, c, hc, rfl⟩
  · obtain ⟨s', hrun, hshows⟩ := exists_run_apply h happly
    exact Or.inl ⟨s', p', hrun, hshows, Plan.propose_rewrites h.numbered ht hpropose happly⟩
  · exact Or.inr ⟨hnested, c, hc, rfl⟩

/-- Optimization comes to an end.  It fails only if nested operators are to be flattened and a node
is blocked in the plan that is left. -/
theorem Shows.exists_optimize (h : s.Shows p) (os : List Optimizer) (max : Nat) :
    ∃ r, PlanStore.optimize (os.map Optimizer.proposeAt) max s = some r ∧
      (∀ e s', r = .error e s' → .nestedOperators ∈ os ∧
        ∃ k c, s'.Blocked k c ∧ e = .invalidProposal (.childless c.offset)) ∧
      (p.root.Counted OperatorKind.branches → ∃ n s', r = .ok n s') := by
  induction max generalizing s p with
  | zero => exact ⟨.ok 0 s, rfl, fun e s' he => (nomatch he), fun _ => ⟨0, s, rfl⟩⟩
  | succ max ih =>
    have hstored := h.nextProposal_eq os
    cases hnext : p.nextProposal os with
    | none =>
      rw [hnext] at hstored
      exact ⟨.ok 0 s, optimize_of_nextProposal_eq_none hstored _, fun e s' he => (nomatch he),
        fun _ => ⟨0, s, rfl⟩⟩
    | some proposal =>
      rw [hnext] at hstored
      obtain ⟨t, ht, hsome⟩ := List.exists_of_findSome?_eq_some hnext
      obtain ⟨o, ho, hpropose⟩ := List.exists_of_findSome?_eq_some hsome
      rcases h.apply_or_blocked ht hpropose with
        ⟨s₁, p₁, hrun, hshows, hrewrites⟩ | ⟨rfl, c, hc, hflatten⟩
      · obtain ⟨r, hr, herror, hok⟩ := ih hshows
        refine ⟨counted r, optimize_succ_eq_counted hstored hrun hr, fun e s' he => ?_,
          fun hp => ?_⟩
        · cases r with
          | ok n s₂ => exact nomatch he
          | error e' s₂ => exact herror e s' he
        · obtain ⟨n, s', rfl⟩ := hok (hrewrites.branched hp)
          exact ⟨n + 1, s', rfl⟩
      · have hblocked := h.blocked ht hc
        refine ⟨.error _ s, optimize_succ_of_error hstored (hflatten ▸ hblocked.run_flattenChild),
          fun e s' he => ?_, fun hp => absurd (hp.of_mem ht) hc.not_branched⟩
        obtain ⟨rfl, rfl⟩ := EStateM.Result.error.inj he
        exact ⟨ho, _, _, hblocked, rfl⟩

/-- What an optimizer proposes for a stored node can be applied, unless it is to flatten a child
that blocks the node; then applying it fails because of the missing children, and nothing changes.
So optimization fails only because of a blocked node in the plan that is left, and it succeeds if
every join and every union has a child at the start. -/
theorem Reachable.proposals_apply (h : s.Reachable) :
    (∀ (o : Optimizer) k n proposal, s.get? k = some n → o.proposeAt s k n.op = some proposal →
      (∃ s', (StoreEdit.apply proposal).run s = .ok () s') ∨
        o = .nestedOperators ∧ ∃ c, s.Blocked k c ∧ proposal = .flattenChild k c ∧
          (StoreEdit.apply proposal).run s =
            .error (.invalidProposal (.childless c.offset)) s) ∧
    ∀ (os : List Optimizer) max, ∃ r,
      PlanStore.optimize (os.map Optimizer.proposeAt) max s = some r ∧
      (∀ e s', r = .error e s' → .nestedOperators ∈ os ∧
        ∃ k c, s'.Blocked k c ∧ e = .invalidProposal (.childless c.offset)) ∧
      (s.Branched → ∃ n s', r = .ok n s') := by
  obtain ⟨p, hp, -⟩ := h.wellFormed
  refine ⟨fun o k n proposal hk hpropose => ?_, fun os max => ?_⟩
  · obtain ⟨t, ht, q, rfl, rfl, hq⟩ := hp.exists_node hk
    have hop : (s.nodeOf q t).op = t.op := rfl
    rw [hop, proposeAt_eq o hq] at hpropose
    obtain ⟨proposal, htree, rfl⟩ := Option.map_eq_some_iff.mp hpropose
    rcases hp.apply_or_blocked ht htree with ⟨s', p', hrun, -, -⟩ | ⟨hnested, c, hc, hflatten⟩
    · exact Or.inl ⟨s', hrun⟩
    · have hblocked := hp.blocked ht hc
      exact Or.inr ⟨hnested, _, hblocked, hflatten, hflatten ▸ hblocked.run_flattenChild⟩
  · obtain ⟨r, hr, herror, hok⟩ := hp.exists_optimize os max
    exact ⟨r, hr, herror, fun hbranched => hok (hp.forall_stored_iff.mp hbranched)⟩

/-- The lower of two joins is flattened, and since both have children, optimization succeeds. -/
theorem proposals_apply_nestedJoins :
    nestedJoins.Reachable ∧ nestedJoins.Branched ∧
      (∃ s', (StoreEdit.apply (.flattenChild ⟨0, 0⟩ ⟨0, 1⟩)).run nestedJoins = .ok () s') ∧
      ∃ n s', PlanStore.optimize (Optimizer.all.map Optimizer.proposeAt) 10 nestedJoins =
        some (.ok n s') := by
  have hbranched : nestedJoins.Branched := by
    refine shows_nestedJoins.forall_stored_iff.mpr ?_
    simp [PlanTree.leaf, PlanTree.counted_node, OperatorKind.branches, Operator.kind]
  obtain ⟨happly, hoptimize⟩ := reachable_nestedJoins.proposals_apply
  refine ⟨reachable_nestedJoins, hbranched, ?_, ?_⟩
  · rcases happly .nestedOperators ⟨0, 0⟩ ⟨.join [], [⟨0, 1⟩], none⟩ (.flattenChild ⟨0, 0⟩ ⟨0, 1⟩)
      rfl (by decide) with hok | ⟨-, c, ⟨n, m, -, -, hm, -, hempty⟩, hflatten, -⟩
    · exact hok
    · obtain rfl := (Proposal.flattenChild.inj hflatten).2
      obtain rfl := Option.some.inj hm
      exact absurd hempty (by decide)
  · obtain ⟨r, hr, -, hok⟩ := hoptimize Optimizer.all 10
    obtain ⟨n, s', rfl⟩ := hok hbranched
    exact ⟨n, s', hr⟩

/-! ## A join that is blocked -/

/-- A join over a data node and over a join without children. -/
def childlessJoin : PlanStore :=
  (StoreEdit.addChild ⟨0, 0⟩ (.join [])).after
    ((StoreEdit.addChild ⟨0, 0⟩ (.data (.plain "a" [.var ⟨"x"⟩]))).after (.single 0 (.join [])))

theorem reachable_childlessJoin : childlessJoin.Reachable :=
  .addChild (.addChild (.single 0 (.join [])) _ _) _ _

theorem shows_childlessJoin : childlessJoin.Shows
    ⟨.node 0 (.join []) [.leaf 1 (.data (.plain "a" [.var ⟨"x"⟩])), .leaf 2 (.join [])], 3⟩ := by
  have hdata := (addChild_follows ⟨0, 0⟩ (.data (.plain "a" [.var ⟨"x"⟩]))).shows_after
    (shows_single 0 (.join [])) rfl (b := 1)
    (q := ⟨.node 0 (.join []) [.leaf 1 (.data (.plain "a" [.var ⟨"x"⟩]))], 2⟩) (by cbv)
  exact (addChild_follows ⟨0, 0⟩ (.join [])).shows_after hdata rfl (b := 2) (by cbv)

/-- It is proposed to flatten the lower join, which fails, and with it optimization. -/
theorem optimize_childlessJoin_fails :
    childlessJoin.Reachable ∧
      Optimizer.nestedOperators.proposeAt childlessJoin ⟨0, 0⟩ (.join []) =
        some (.flattenChild ⟨0, 0⟩ ⟨0, 2⟩) ∧
      (StoreEdit.apply (.flattenChild ⟨0, 0⟩ ⟨0, 2⟩)).run childlessJoin =
        .error (.invalidProposal (.childless 2)) childlessJoin ∧
      PlanStore.optimize (Optimizer.all.map Optimizer.proposeAt) 5 childlessJoin =
        some (.error (.invalidProposal (.childless 2)) childlessJoin) := by
  have hblocked : childlessJoin.Blocked ⟨0, 0⟩ ⟨0, 2⟩ :=
    ⟨_, _, rfl, by decide, rfl, .join, rfl⟩
  have hnext : childlessJoin.nextProposal (Optimizer.all.map Optimizer.proposeAt) =
      some (some (.flattenChild ⟨0, 0⟩ ⟨0, 2⟩)) := by
    rw [shows_childlessJoin.nextProposal_eq]
    exact congrArg some (by cbv)
  exact ⟨reachable_childlessJoin, by decide, hblocked.run_flattenChild,
    optimize_succ_of_error hnext hblocked.run_flattenChild⟩

end PlanStore

end OntoQuery
