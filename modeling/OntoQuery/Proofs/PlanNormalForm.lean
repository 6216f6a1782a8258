import OntoQuery.Proofs.RulePlans

/-!
# How optimization ends

Optimization of a valid plan does not fail, and it stops by itself.  Most changes take one node out.
The exception is a join of one child with conditions, which is replaced by a filter in place; no
change makes a join.  So if joins count twice, every change makes the plan lighter.

* `PlanTree.weight`: this measure, and `Plan.Rewrites.weight_lt`, by which it decreases.
* `Optimizer.apply_or_blocked_of_propose`: what is proposed for a node can be done, unless a child
  is to hand its children over and has none.
* `Optimizer.exists_apply_of_propose`: so all that is proposed for a plan whose numbers of children
  are right can be done.  The numbers stay right, although arities may not.
* `exists_optimize_eq_ok`: so optimization goes on until nothing is proposed or no change is left.
* `Reachable.optimize_normalizes`: what this means for the plans that can be reached.
-/

namespace OntoQuery

/-! ## The weight of a plan -/

/-- What a node counts for. -/
def Operator.weight (op : Operator) : Nat := if op.kind = .join then 2 else 1

theorem Operator.weight_pos (op : Operator) : 0 < op.weight := by
  unfold weight
  split <;> decide

namespace PlanTree

open Proposal

variable {t c new : PlanTree}

/-- The number of nodes, where joins count twice. -/
def weight (t : PlanTree) : Nat := (t.labels fun _ op => op.weight).sum

theorem weight_node (i : NodeId) (op : Operator) (children : List PlanTree) :
    (node i op children).weight = op.weight + (children.map weight).sum := by
  rw [weight, labels_node, List.sum_cons, List.flatMap_def, List.sum_flatten, List.map_map]
  rfl

theorem weight_eq (t : PlanTree) :
    t.weight = t.nodes.length + t.nodes.countP fun s => s.op.kind = .join := by
  rw [weight, labels]
  induction t.nodes with
  | nil => rfl
  | cons s nodes ih =>
    rw [List.map_cons, List.sum_cons, ih, List.length_cons, List.countP_cons, Operator.weight]
    by_cases hjoin : s.op.kind = .join
    · rw [if_pos hjoin, if_pos (decide_eq_true hjoin)]
      omega
    · rw [if_neg hjoin, if_neg (by simpa using hjoin)]
      omega

theorem weight_pos (t : PlanTree) : 0 < t.weight := by
  obtain ⟨i, op, children⟩ := t
  rw [weight_node]
  have := op.weight_pos
  omega

/-- Grafting changes the weight by what it changes in the place of the node. -/
theorem weight_graft {r : PlanTree} (hr : r.ids.Nodup) (ht : t ∈ r.nodes) (new : PlanTree) :
    (graft t.id new r).weight + t.weight = r.weight + new.weight := by
  obtain ⟨l, l', hl, hgraft⟩ := exists_labels_graft (fun _ op => op.weight) hr ht
  simp only [weight, hl, hgraft new, List.sum_append]
  omega

/-- The children of a child come to stand in its place. -/
theorem spliced_eq {i : NodeId} {op : Operator} {before after : List PlanTree}
    (ht : (node i op (before ++ c :: after)).ids.Nodup) :
    spliced (node i op (before ++ c :: after)) c = before ++ c.children ++ after := by
  have hne : ∀ d ∈ before ++ after, d.id ≠ c.id := fun d hd heq =>
    notMem_ids_sibling ht hd (id_mem_ids c) (heq ▸ id_mem_ids d)
  have hkeep : ∀ ds ⊆ before ++ after,
      (ds.flatMap fun d => if d.id = c.id then c.children else [d]) = ds := fun ds hds =>
    (List.flatMap_congr fun d hd => if_neg (hne d (hds hd))).trans (List.flatMap_singleton' ds)
  rw [spliced, children, List.flatMap_append, List.flatMap_cons, if_pos rfl,
    hkeep before (List.subset_append_left _ _), hkeep after (List.subset_append_right _ _),
    List.append_assoc]

/-- A child that hands its children over takes its own weight away. -/
theorem weight_spliced {i : NodeId} {op : Operator} {children : List PlanTree}
    (ht : (node i op children).ids.Nodup) (hc : c ∈ children) :
    ((spliced (node i op children) c).map weight).sum + c.op.weight =
      (children.map weight).sum := by
  obtain ⟨before, after, rfl⟩ := List.append_of_mem hc
  obtain ⟨j, op', grandchildren⟩ := c
  rw [spliced_eq ht, List.map_append, List.map_append, List.map_append, List.map_cons,
    List.sum_append, List.sum_append, List.sum_append, List.sum_cons, weight_node]
  simp only [PlanTree.children, PlanTree.op]
  omega

/-- A node that is reduced becomes lighter. -/
theorem Reduces.weight_lt (h : t.Reduces new) (ht : t.ids.Nodup) : new.weight < t.weight := by
  cases h with
  | joinSingle | unionSingle =>
    rw [weight_node, List.map_singleton, List.sum_singleton]
    exact Nat.lt_add_of_pos_left (Operator.weight_pos _)
  | joinConditions =>
    rw [weight_node, weight_node]
    exact Nat.add_lt_add_right (show 1 < 2 by decide) _
  | @flattenJoin i outer inner children c hc | @flattenUnion i n children c hc
  | @mergeFilters i outer inner children c hc =>
    rw [weight_node, weight_node, ← weight_spliced ht hc, ← Nat.add_assoc]
    exact Nat.lt_add_of_pos_right c.op.weight_pos

end PlanTree

namespace Plan

open PlanTree

variable {p p' : Plan}

/-- Rewriting makes a plan lighter. -/
theorem Rewrites.weight_lt (h : p.Rewrites p') (hp : p.Numbered) :
    p'.root.weight < p.root.weight := by
  obtain ⟨t, ht, new, hnew, rfl⟩ := h
  have hgraft := weight_graft hp.nodup ht new
  have hlt := hnew.weight_lt (nodup_ids_of_mem hp.nodup ht)
  show (PlanTree.graft t.id new p.root).weight < p.root.weight
  omega

end Plan

/-! ## What is proposed can be done -/

theorem Operator.exists_join_of_kind {op : Operator} (h : op.kind = .join) :
    ∃ conditions, op = .join conditions := by
  cases op with
  | join conditions => exact ⟨conditions, rfl⟩
  | _ => exact nomatch h

theorem Operator.exists_filter_of_kind {op : Operator} (h : op.kind = .filter) :
    ∃ conditions, op = .filter conditions := by
  cases op with
  | filter conditions => exact ⟨conditions, rfl⟩
  | _ => exact nomatch h

/-- Whether nodes with these operators can be made one: both are joins, or unions of one arity. -/
inductive Operator.Alike : Operator → Operator → Prop where
  /-- Joins, whatever their conditions are. -/
  | join {outer inner : List Atom} : Alike (.join outer) (.join inner)
  /-- Unions of one arity. -/
  | union {n : Nat} : Alike (.union n) (.union n)

theorem Operator.Alike.exists_flatten_eq_ok {outer inner : Operator} (h : outer.Alike inner) :
    ∃ op, Proposal.flatten outer inner = .ok op := by
  cases h with
  | join => exact ⟨_, rfl⟩
  | union => exact ⟨_, if_pos rfl⟩

theorem Operator.Alike.kind_eq {outer inner : Operator} (h : outer.Alike inner) :
    inner.kind = .join ∨ inner.kind = .union := by
  cases h with
  | join => exact Or.inl rfl
  | union => exact Or.inr rfl

/-- Whether a node is blocked by a child that is like it and has nothing to hand over. -/
structure PlanTree.Blocked (t c : PlanTree) : Prop where
  /-- It is a child. -/
  mem : c ∈ t.children
  /-- The operators are alike. -/
  alike : t.op.Alike c.op
  /-- The child has no children of its own. -/
  childless : c.children = []

namespace Optimizer

open PlanTree Proposal

variable {o : Optimizer} {p : Plan} {t : PlanTree} {proposal : Proposal NodeId}

theorem childOf_of_numbered (hp : p.Numbered) (ht : t ∈ p.nodes) {c : PlanTree}
    (hc : c ∈ t.children) : childOf t c.id = .ok c :=
  childOf_id hc fun _ hs hid => eq_of_id_eq_of_children (nodup_ids_of_mem hp.nodup ht) hc hs hid

/-- A child that is like the node hands its children over, if there are any. -/
theorem exists_apply_flattenChild (hp : p.Numbered) (ht : t ∈ p.nodes) {c : PlanTree}
    (hc : c ∈ t.children) (halike : t.op.Alike c.op) :
    (∃ p', (flattenChild t.id c.id).apply.run p = .ok () p') ∨ t.Blocked c := by
  by_cases hne : c.children = []
  · exact Or.inr ⟨hc, halike, hne⟩
  · obtain ⟨op, hop⟩ := halike.exists_flatten_eq_ok
    exact Or.inl ⟨_, apply_flattenChild_eq_ok.mpr
      ⟨_, c, op, hp.find?_id ht, childOf_of_numbered hp ht hc, hop, hne, rfl⟩⟩

/-- What is proposed for a node can be done, unless the node is blocked. -/
theorem apply_or_blocked_of_propose (hp : p.Numbered) (ht : t ∈ p.nodes)
    (h : o.propose t = some proposal) :
    (∃ p', proposal.apply.run p = .ok () p') ∨
      o = nestedOperators ∧ ∃ c, t.Blocked c ∧ proposal = .flattenChild t.id c.id := by
  have hfind := hp.find?_id ht
  unfold propose at h
  split at h
  · -- a join of one child without conditions
    obtain rfl := Option.some.inj h
    exact Or.inl ⟨_, apply_replaceByChild_eq_ok.mpr ⟨_, _, hfind, rfl, rfl⟩⟩
  · -- a join of one child with conditions
    obtain rfl := Option.some.inj h
    exact Or.inl ⟨_, apply_replaceOperator_eq_ok.mpr ⟨_, hfind, rfl, rfl⟩⟩
  · -- a union of one child
    obtain rfl := Option.some.inj h
    exact Or.inl ⟨_, apply_replaceByChild_eq_ok.mpr ⟨_, _, hfind, rfl, rfl⟩⟩
  · -- a join below a join
    obtain ⟨c, hc, rfl⟩ := Option.map_eq_some_iff.mp h
    have hkind : c.op.kind = .join := by simpa using List.find?_some hc
    obtain ⟨inner, hinner⟩ := Operator.exists_join_of_kind hkind
    rcases exists_apply_flattenChild hp ht (List.mem_of_find?_eq_some hc) (hinner ▸ .join)
      with hok | hblocked
    · exact Or.inl hok
    · exact Or.inr ⟨rfl, c, hblocked, rfl⟩
  · -- a union below a union
    obtain ⟨c, hc, rfl⟩ := Option.map_eq_some_iff.mp h
    rename_i n _
    have hop : c.op = .union n := by simpa using List.find?_some hc
    rcases exists_apply_flattenChild hp ht (List.mem_of_find?_eq_some hc) (hop ▸ .union)
      with hok | hblocked
    · exact Or.inl hok
    · exact Or.inr ⟨rfl, c, hblocked, rfl⟩
  · -- a filter below a filter
    split at h
    · rename_i hkind
      obtain rfl := Option.some.inj h
      obtain ⟨inner, hinner⟩ := Operator.exists_filter_of_kind hkind
      exact Or.inl ⟨_, apply_mergeFilters_eq_ok.mpr ⟨_, _, _, inner, hfind,
        childOf_of_numbered hp ht (List.mem_cons_self ..), rfl, hinner, rfl⟩⟩
    · exact absurd h (by simp)
  · exact absurd h (by simp)

/-- What is proposed for a node can be done, if the numbers of children are right. -/
theorem exists_apply_of_propose (hp : p.Numbered) (hcomplete : p.root.Complete) (ht : t ∈ p.nodes)
    (h : o.propose t = some proposal) : ∃ p', proposal.apply.run p = .ok () p' := by
  rcases apply_or_blocked_of_propose hp ht h with hok | ⟨-, c, hblocked, -⟩
  · exact hok
  · -- a join or a union has children that it can hand over
    have hkind : c.op.kind ≠ .data := by rcases hblocked.alike.kind_eq with h | h <;> simp [h]
    have hcount := OperatorKind.pos_of_accepts hkind
      (hcomplete c (child_mem_nodes ht hblocked.mem))
    exact absurd hblocked.childless (List.ne_nil_of_length_pos hcount)

end Optimizer

/-! ## Optimization in arenas -/

namespace PlanStore

open StoreEdit

variable {s s' : PlanStore} {p p' : Plan} {os : List Optimizer}

/-- The number of joins that are stored. -/
def joins (s : PlanStore) : Nat :=
  s.arena.slots.countP fun slot => slot.any fun n => n.op.kind = .join

theorem Shows.weight_eq (h : s.Shows p) : p.root.weight = s.size + s.joins := by
  rw [PlanTree.weight_eq, h.size_eq, joins, h.countP_eq fun op => op.kind = .join]
  rfl

/-- The next change of a plan whose numbers of children are right is made, and rewrites the plan
that is shown. -/
theorem Shows.exists_run_next (h : s.Shows p) (hcomplete : p.root.Complete)
    {proposal : Proposal NodeId} (hnext : p.nextProposal os = some proposal) :
    ∃ s' p', (StoreEdit.apply (proposal.map s.key)).run s = .ok () s' ∧ s'.Shows p' ∧
      p.Rewrites p' := by
  obtain ⟨t, ht, hsome⟩ := List.exists_of_findSome?_eq_some hnext
  obtain ⟨o, -, hpropose⟩ := List.exists_of_findSome?_eq_some hsome
  obtain ⟨p', happly⟩ := o.exists_apply_of_propose h.numbered hcomplete ht hpropose
  obtain ⟨s', hrun, hshows⟩ := exists_run_apply h happly
  exact ⟨s', p', hrun, hshows, Plan.nextProposal_rewrites h.numbered hnext happly⟩

/-- Optimization makes changes until nothing is proposed or no change is left.  The plan loses at
least as much weight as there are changes. -/
theorem Shows.exists_optimize_eq_ok (h : s.Shows p) (hcomplete : p.root.Complete)
    (os : List Optimizer) (max : Nat) :
    ∃ n s' p', PlanStore.optimize (os.map Optimizer.proposeAt) max s = some (.ok n s') ∧
      s'.Shows p' ∧ n ≤ max ∧ p'.root.weight + n ≤ p.root.weight ∧
      (n < max → p'.nextProposal os = none) := by
  induction max generalizing s p with
  | zero => exact ⟨0, s, p, rfl, h, Nat.le_refl 0, Nat.le_refl _, fun hn => absurd hn (by simp)⟩
  | succ max ih =>
    have hstored := h.nextProposal_eq os
    cases hnext : p.nextProposal os with
    | none =>
      rw [hnext] at hstored
      exact ⟨0, s, p, optimize_of_nextProposal_eq_none hstored _, h, Nat.zero_le _, Nat.le_refl _,
        fun _ => hnext⟩
    | some proposal =>
      rw [hnext] at hstored
      obtain ⟨s₁, p₁, hrun, hshows, hrewrites⟩ := h.exists_run_next hcomplete hnext
      have hcomplete₁ := Plan.complete_of_rewrites (.single hrewrites) hcomplete
      have hlt := hrewrites.weight_lt h.numbered
      obtain ⟨n, s', p', hopt, hshows', hmax, hweight, hquiet⟩ := ih hshows hcomplete₁
      exact ⟨n + 1, s', p', optimize_succ_eq_counted hstored hrun hopt, hshows', by omega, by omega,
        fun hn => hquiet (by omega)⟩

/-- If nothing is proposed for the plan that is shown, nothing is proposed for any stored node. -/
theorem Shows.proposeAt_eq_none (h : s.Shows p) (hnext : p.nextProposal os = none) {k : Arena.Key}
    {n : PlanNode} (hk : s.get? k = some n) {o : Optimizer} (ho : o ∈ os) :
    o.proposeAt s k n.op = none := by
  obtain ⟨t, ht, q, rfl, rfl, hq⟩ := h.exists_node hk
  show o.proposeAt s (s.keyOf t) t.op = none
  rw [proposeAt_eq o hq, Plan.nextProposal_eq_none.mp hnext t ht o ho, Option.map_none]

/-- Optimization of a valid plan succeeds.  It makes no more changes than it is allowed to, and no
more than the plan has joins and nodes besides the root.  If it makes fewer than it is allowed to,
no optimizer has anything to propose for any node that is left, and to optimize once more changes
nothing. -/
theorem Reachable.optimize_normalizes (h : s.Reachable) (hvalid : s.validate = some (.ok ()))
    (os : List Optimizer) (max : Nat) :
    ∃ n s', PlanStore.optimize (os.map Optimizer.proposeAt) max s = some (.ok n s') ∧
      n ≤ max ∧ n ≤ s.size - 1 + s.joins ∧
      (n < max →
        (∀ k node, s'.get? k = some node → ∀ o ∈ os, o.proposeAt s' k node.op = none) ∧
        ∀ max', PlanStore.optimize (os.map Optimizer.proposeAt) max' s' = some (.ok 0 s')) := by
  obtain ⟨p, hp, -⟩ := h.wellFormed
  rw [hp.validate_eq] at hvalid
  obtain ⟨hcomplete, -⟩ := Plan.validate_eq_ok.mp (Option.some.inj hvalid)
  obtain ⟨n, s', p', hopt, hp', hmax, hweight, hquiet⟩ := hp.exists_optimize_eq_ok hcomplete os max
  refine ⟨n, s', hopt, hmax, ?_, fun hn => ⟨fun k node hk o ho => ?_, fun max' => ?_⟩⟩
  · have hpos := p'.root.weight_pos
    rw [hp.weight_eq] at hweight
    have hsize : 0 < s.size := by
      rw [hp.size_eq]
      exact List.length_pos_of_mem (PlanTree.self_mem_nodes p.root)
    omega
  · exact hp'.proposeAt_eq_none (hquiet hn) hk ho
  · have hnext := hp'.nextProposal_eq os
    rw [hquiet hn] at hnext
    exact optimize_of_nextProposal_eq_none hnext max'

/-- Of the two joins over a data node at most four changes are made, so with ten allowed there is
nothing left to do. -/
theorem optimize_normalizes_nestedJoins :
    nestedJoins.Reachable ∧ nestedJoins.validate = some (.ok ()) ∧
      ∃ n s', PlanStore.optimize (Optimizer.all.map Optimizer.proposeAt) 10 nestedJoins =
          some (.ok n s') ∧ n ≤ 4 ∧
        (∀ k node, s'.get? k = some node → ∀ o ∈ Optimizer.all, o.proposeAt s' k node.op = none) ∧
        PlanStore.optimize (Optimizer.all.map Optimizer.proposeAt) 10 s' = some (.ok 0 s') := by
  have hvalid : nestedJoins.validate = some (.ok ()) := by
    rw [shows_nestedJoins.validate_eq]
    exact congrArg some (by cbv)
  obtain ⟨n, s', hopt, -, hbound, hquiet⟩ :=
    reachable_nestedJoins.optimize_normalizes hvalid Optimizer.all 10
  have hn : n ≤ 4 := Nat.le_trans hbound (by decide)
  obtain ⟨hnone, hagain⟩ := hquiet (by omega)
  exact ⟨reachable_nestedJoins, hvalid, n, s', hopt, hn, hnone, hagain 10⟩

end PlanStore

end OntoQuery
