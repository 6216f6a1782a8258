import OntoQuery.Plan.Optimizer
import OntoQuery.Proofs.PlanNodes

/-!
# What edits make of a plan

An edit or a proposal that succeeds puts a tree in the place of a node (`…_eq_ok`).

* `mem_spliced`: the children of a node after one of them has handed over its own children.
* `PlanTree.Roomy`: no node has more children than its kind allows.  Every edit and every proposal
  keeps it so (`…_keepsRoom`).
-/

namespace OntoQuery

/-! ## Edits that succeed -/

namespace OperatorKind

variable {k : OperatorKind} {n : Nat}

theorem checkChildren_eq_ok : k.checkChildren n = .ok () ↔ k.accepts n = true := by
  unfold checkChildren
  split <;> simp_all

theorem checkRoom_eq_ok : k.checkRoom n = .ok () ↔ k.hasRoom n = true := by
  unfold checkRoom
  split <;> simp_all

end OperatorKind

namespace Edit

variable {α β : Type} {p p' : Plan}

theorem run_bind_eq_ok {x : Edit α} {f : α → Edit β} {b : β} :
    (x >>= f).run p = .ok b p' ↔ ∃ a q, x.run p = .ok a q ∧ (f a).run q = .ok b p' := by
  rw [EStateM.run_bind]
  cases x.run p with
  | ok a q => simp
  | error e q => simp

theorem run_ofExcept_eq_ok {e : Except PlanError α} {a : α} :
    (ofExcept e : Edit α).run p = .ok a p' ↔ e = .ok a ∧ p' = p := by
  cases e with
  | error e =>
    have hrun : (ofExcept (Except.error e : Except PlanError α) : Edit α).run p = .error e p := rfl
    simp [hrun]
  | ok b =>
    have hrun : (ofExcept (Except.ok b : Except PlanError α) : Edit α).run p = .ok b p := rfl
    simp [hrun, eq_comm]

theorem run_find_eq_ok {i : NodeId} {t : PlanTree} :
    (find i).run p = .ok t p' ↔ p.find? i = some t ∧ p' = p := by
  have hfind : p.find i = .ok t ↔ p.find? i = some t := by
    unfold Plan.find
    cases p.find? i <;> simp
  rw [← hfind, ← run_ofExcept_eq_ok]
  rfl

theorem run_graft_eq_ok {i : NodeId} {new : PlanTree} {u : Unit} :
    (graft i new).run p = .ok u p' ↔ p' = p.graft i new := by
  simp [graft, eq_comm]

end Edit

namespace Proposal

variable {p p' : Plan} {u : Unit} {i j : NodeId}

theorem childOf_eq_ok {t c : PlanTree} (h : childOf t j = .ok c) : c ∈ t.children ∧ c.id = j := by
  unfold childOf at h
  split at h
  · rename_i d hd
    obtain rfl := Except.ok.inj h
    exact ⟨List.mem_of_find?_eq_some hd, by simpa using List.find?_some hd⟩
  · exact absurd h (by simp)

/-- A child is found if no other one has its number. -/
theorem childOf_id {t c : PlanTree} (hc : c ∈ t.children)
    (hdist : ∀ s ∈ t.children, s.id = c.id → s = c) : childOf t c.id = .ok c := by
  unfold childOf
  cases hfind : t.children.find? fun s => s.id = c.id with
  | none => exact absurd (decide_eq_true rfl) (List.find?_eq_none.mp hfind c hc)
  | some s =>
    rw [hdist s (List.mem_of_find?_eq_some hfind) (by simpa using List.find?_some hfind)]

/-- Joins can be flattened into joins, and unions into unions of their arity. -/
theorem flatten_eq_ok {outer inner op : Operator} (h : flatten outer inner = .ok op) :
    (∃ as bs, outer = .join as ∧ inner = .join bs ∧ op = .join (as ++ bs)) ∨
      ∃ n, outer = .union n ∧ inner = .union n ∧ op = .union n := by
  unfold flatten at h
  split at h
  · exact Or.inl ⟨_, _, rfl, rfl, (Except.ok.inj h).symm⟩
  · split at h
    · rename_i hn
      exact Or.inr ⟨_, rfl, hn ▸ rfl, (Except.ok.inj h).symm⟩
    · exact absurd h (by simp)
  · exact absurd h (by simp)

theorem apply_replaceOperator_eq_ok {op : Operator} :
    (replaceOperator i op).apply.run p = .ok u p' ↔
      ∃ t, p.find? i = some t ∧ op.kind.accepts t.children.length = true ∧
        p' = p.graft i (.node i op t.children) := by
  rw [apply, Edit.run_bind_eq_ok]
  refine ⟨?_, ?_⟩
  · rintro ⟨t, q, hfind, hrest⟩
    obtain ⟨ht, rfl⟩ := Edit.run_find_eq_ok.mp hfind
    obtain ⟨_, q', hcheck, hgraft⟩ := Edit.run_bind_eq_ok.mp hrest
    obtain ⟨hok, rfl⟩ := Edit.run_ofExcept_eq_ok.mp hcheck
    exact ⟨t, ht, OperatorKind.checkChildren_eq_ok.mp hok, Edit.run_graft_eq_ok.mp hgraft⟩
  · rintro ⟨t, ht, hok, rfl⟩
    exact ⟨t, p, Edit.run_find_eq_ok.mpr ⟨ht, rfl⟩, Edit.run_bind_eq_ok.mpr
      ⟨(), p, Edit.run_ofExcept_eq_ok.mpr ⟨OperatorKind.checkChildren_eq_ok.mpr hok, rfl⟩,
        Edit.run_graft_eq_ok.mpr rfl⟩⟩

theorem apply_replaceByChild_eq_ok :
    (replaceByChild i).apply.run p = .ok u p' ↔
      ∃ t c, p.find? i = some t ∧ t.children = [c] ∧ p' = p.graft i c := by
  rw [apply, Edit.run_bind_eq_ok]
  refine ⟨?_, ?_⟩
  · rintro ⟨t, q, hfind, hgraft⟩
    obtain ⟨ht, rfl⟩ := Edit.run_find_eq_ok.mp hfind
    split at hgraft
    · rename_i c hc
      exact ⟨t, c, ht, hc, Edit.run_graft_eq_ok.mp hgraft⟩
    · exact absurd hgraft (by simp)
  · rintro ⟨t, c, ht, hc, rfl⟩
    refine ⟨t, p, Edit.run_find_eq_ok.mpr ⟨ht, rfl⟩, ?_⟩
    rw [hc]
    exact Edit.run_graft_eq_ok.mpr rfl

theorem apply_flattenChild_eq_ok :
    (flattenChild i j).apply.run p = .ok u p' ↔
      ∃ t c op, p.find? i = some t ∧ childOf t j = .ok c ∧ flatten t.op c.op = .ok op ∧
        c.children ≠ [] ∧ p' = p.graft i (.node i op (spliced t c)) := by
  rw [apply, Edit.run_bind_eq_ok]
  refine ⟨?_, ?_⟩
  · rintro ⟨t, q, hfind, hrest⟩
    obtain ⟨ht, rfl⟩ := Edit.run_find_eq_ok.mp hfind
    obtain ⟨c, q', hchild, hrest'⟩ := Edit.run_bind_eq_ok.mp hrest
    obtain ⟨hc, rfl⟩ := Edit.run_ofExcept_eq_ok.mp hchild
    obtain ⟨op, q'', hop, hgraft⟩ := Edit.run_bind_eq_ok.mp hrest'
    obtain ⟨hflat, rfl⟩ := Edit.run_ofExcept_eq_ok.mp hop
    split at hgraft
    · exact absurd hgraft (by simp)
    · rename_i hne
      exact ⟨t, c, op, ht, hc, hflat, by simpa using hne, Edit.run_graft_eq_ok.mp hgraft⟩
  · rintro ⟨t, c, op, ht, hc, hflat, hne, rfl⟩
    refine ⟨t, p, Edit.run_find_eq_ok.mpr ⟨ht, rfl⟩, Edit.run_bind_eq_ok.mpr ⟨c, p,
      Edit.run_ofExcept_eq_ok.mpr ⟨hc, rfl⟩, Edit.run_bind_eq_ok.mpr ⟨op, p,
        Edit.run_ofExcept_eq_ok.mpr ⟨hflat, rfl⟩, ?_⟩⟩⟩
    rw [if_neg (by simpa using hne)]
    exact Edit.run_graft_eq_ok.mpr rfl

theorem apply_mergeFilters_eq_ok :
    (mergeFilters i j).apply.run p = .ok u p' ↔
      ∃ t c outer inner, p.find? i = some t ∧ childOf t j = .ok c ∧ t.op = .filter outer ∧
        c.op = .filter inner ∧
        p' = p.graft i
          (.node i (.filter (Operator.mergeConditions outer inner)) (spliced t c)) := by
  rw [apply, Edit.run_bind_eq_ok]
  refine ⟨?_, ?_⟩
  · rintro ⟨t, q, hfind, hrest⟩
    obtain ⟨ht, rfl⟩ := Edit.run_find_eq_ok.mp hfind
    obtain ⟨c, q', hchild, hgraft⟩ := Edit.run_bind_eq_ok.mp hrest
    obtain ⟨hc, rfl⟩ := Edit.run_ofExcept_eq_ok.mp hchild
    split at hgraft
    · rename_i outer inner houter hinner
      exact ⟨t, c, outer, inner, ht, hc, houter, hinner, Edit.run_graft_eq_ok.mp hgraft⟩
    · exact absurd hgraft (by simp)
  · rintro ⟨t, c, outer, inner, ht, hc, houter, hinner, rfl⟩
    refine ⟨t, p, Edit.run_find_eq_ok.mpr ⟨ht, rfl⟩, Edit.run_bind_eq_ok.mpr ⟨c, p,
      Edit.run_ofExcept_eq_ok.mpr ⟨hc, rfl⟩, ?_⟩⟩
    rw [houter, hinner]
    exact Edit.run_graft_eq_ok.mpr rfl

/-! ## Handing children over -/

/-- If no other child has its number, a child hands its own children over and all others stay. -/
theorem mem_spliced {t c s : PlanTree} (hc : c ∈ t.children) :
    s ∈ spliced t c ↔ (s ∈ t.children ∧ s.id ≠ c.id) ∨ s ∈ c.children := by
  rw [spliced, List.mem_flatMap]
  constructor
  · rintro ⟨d, hd, hs⟩
    by_cases hid : d.id = c.id
    · rw [if_pos hid] at hs
      exact Or.inr hs
    · rw [if_neg hid, List.mem_singleton] at hs
      exact Or.inl ⟨hs ▸ hd, hs ▸ hid⟩
  · rintro (⟨hs, hid⟩ | hs)
    · exact ⟨s, hs, by rw [if_neg hid, List.mem_singleton]⟩
    · exact ⟨c, hc, by rwa [if_pos rfl]⟩

/-- What holds of the children of a node and of a child holds of those that the node gets. -/
theorem forall_spliced {t c : PlanTree} {X : PlanTree → Prop} (hc : c ∈ t.children)
    (ht : ∀ s ∈ t.children, X s) (hX : ∀ s ∈ c.children, X s) : ∀ s ∈ spliced t c, X s := by
  intro s hs
  rcases (mem_spliced hc).mp hs with ⟨hs, -⟩ | hs
  · exact ht s hs
  · exact hX s hs

/-- A node without other children gets those of its child. -/
theorem spliced_of_length_le_one {t c : PlanTree} (h : t.children.length ≤ 1)
    (hc : c ∈ t.children) : t.children = [c] ∧ spliced t c = c.children := by
  obtain ⟨d, hd⟩ := List.length_eq_one_iff.mp (Nat.le_antisymm h (List.length_pos_of_mem hc))
  rw [hd, List.mem_singleton] at hc
  subst hc
  refine ⟨hd, ?_⟩
  rw [spliced, hd]
  simp

/-- The numbers that are left after a child has handed its children over. -/
theorem ids_spliced_sublist {t c : PlanTree} {op : Operator}
    (hdist : ∀ s ∈ t.children, s.id = c.id → s = c) :
    (PlanTree.node t.id op (spliced t c)).ids.Sublist t.ids := by
  obtain ⟨i, op', children⟩ := t
  rw [PlanTree.ids_node, PlanTree.ids_node, spliced]
  refine List.Sublist.cons_cons i ?_
  change ∀ s ∈ children, s.id = c.id → s = c at hdist
  show (List.flatMap PlanTree.ids (children.flatMap _)).Sublist (children.flatMap PlanTree.ids)
  induction children with
  | nil => exact List.Sublist.refl _
  | cons s children ih =>
    rw [List.flatMap_cons, List.flatMap_append, List.flatMap_cons]
    refine List.Sublist.append ?_ (ih fun d hd => hdist d (List.mem_cons_of_mem _ hd))
    by_cases hid : s.id = c.id
    · rw [if_pos hid, ← hdist s (List.mem_cons_self ..) hid]
      obtain ⟨j, op'', grandchildren⟩ := s
      rw [PlanTree.ids_node]
      exact List.sublist_cons_self _ _
    · rw [if_neg hid, List.flatMap_singleton]

/-- Only the number of the child gets lost. -/
theorem mem_ids_spliced {t c : PlanTree} {op : Operator} (hc : c ∈ t.children)
    (hdist : ∀ s ∈ t.children, s.id = c.id → s = c) {i : NodeId} (hi : i ∈ t.ids) :
    i = c.id ∨ i ∈ (PlanTree.node t.id op (spliced t c)).ids := by
  have hspliced : ∀ {s}, s ∈ spliced t c → i ∈ s.ids →
      i ∈ (PlanTree.node t.id op (spliced t c)).ids := fun hs his =>
    PlanTree.mem_ids.mpr (Or.inr ⟨_, hs, his⟩)
  rcases PlanTree.mem_ids.mp hi with rfl | ⟨s, hs, his⟩
  · exact Or.inr (PlanTree.id_mem_ids (.node t.id op _))
  · by_cases hsc : s.id = c.id
    · rw [hdist s hs hsc] at his
      rcases PlanTree.mem_ids.mp his with rfl | ⟨d, hd, hid⟩
      · exact Or.inl rfl
      · exact Or.inr (hspliced ((mem_spliced hc).mpr (Or.inr hd)) hid)
    · exact Or.inr (hspliced ((mem_spliced hc).mpr (Or.inl ⟨hs, hsc⟩)) his)

end Proposal

/-! ## Edits by number -/

namespace Plan

variable {p : Plan} {i : NodeId} {t : PlanTree}

theorem find?_eq_some (h : p.find? i = some t) : t ∈ p.nodes ∧ t.id = i :=
  ⟨List.mem_of_find?_eq_some h, by simpa using List.find?_some h⟩

theorem parent?_eq_some (h : p.parent? i = some t) : t ∈ p.nodes ∧ ∃ c ∈ t.children, c.id = i :=
  ⟨List.mem_of_find?_eq_some h, by simpa using List.find?_some h⟩

end Plan

namespace Edit

variable {p p' : Plan} {i j : NodeId} {op old : Operator} {u : Unit}

theorem addChild_eq_ok :
    (addChild i op).run p = .ok j p' ↔
      ∃ t, p.find? i = some t ∧ t.op.kind.hasRoom (t.children.length + 1) = true ∧ j = p.next ∧
        p' = ⟨PlanTree.graft i (.node i t.op (t.children ++ [.leaf p.next op])) p.root,
          p.next + 1⟩ := by
  rw [addChild, run_bind_eq_ok]
  refine ⟨?_, ?_⟩
  · rintro ⟨t, q, hfind, hrest⟩
    obtain ⟨ht, rfl⟩ := run_find_eq_ok.mp hfind
    obtain ⟨_, q', hcheck, hadd⟩ := run_bind_eq_ok.mp hrest
    obtain ⟨hok, rfl⟩ := run_ofExcept_eq_ok.mp hcheck
    obtain ⟨rfl, rfl⟩ := EStateM.Result.ok.inj hadd
    exact ⟨t, ht, OperatorKind.checkRoom_eq_ok.mp hok, rfl, rfl⟩
  · rintro ⟨t, ht, hok, rfl, rfl⟩
    exact ⟨t, p, run_find_eq_ok.mpr ⟨ht, rfl⟩, run_bind_eq_ok.mpr
      ⟨(), p, run_ofExcept_eq_ok.mpr ⟨OperatorKind.checkRoom_eq_ok.mpr hok, rfl⟩, rfl⟩⟩

theorem replaceOperator_eq_ok :
    (replaceOperator i op).run p = .ok old p' ↔
      ∃ t, p.find? i = some t ∧ op.kind.hasRoom t.children.length = true ∧ old = t.op ∧
        p' = p.graft i (.node i op t.children) := by
  rw [replaceOperator, run_bind_eq_ok]
  refine ⟨?_, ?_⟩
  · rintro ⟨t, q, hfind, hrest⟩
    obtain ⟨ht, rfl⟩ := run_find_eq_ok.mp hfind
    obtain ⟨_, q', hcheck, hgraft⟩ := run_bind_eq_ok.mp hrest
    obtain ⟨hok, rfl⟩ := run_ofExcept_eq_ok.mp hcheck
    obtain ⟨rfl, rfl⟩ := EStateM.Result.ok.inj hgraft
    exact ⟨t, ht, OperatorKind.checkRoom_eq_ok.mp hok, rfl, rfl⟩
  · rintro ⟨t, ht, hok, rfl, rfl⟩
    exact ⟨t, p, run_find_eq_ok.mpr ⟨ht, rfl⟩, run_bind_eq_ok.mpr
      ⟨(), p, run_ofExcept_eq_ok.mpr ⟨OperatorKind.checkRoom_eq_ok.mpr hok, rfl⟩, rfl⟩⟩

theorem removeSubtree_eq_ok :
    (removeSubtree i).run p = .ok u p' ↔
      i ≠ p.root.id ∧ ∃ t, p.parent? i = some t ∧
        p' = p.graft t.id (.node t.id t.op (t.children.filter fun c => c.id ≠ i)) := by
  have hget : (get : Edit Plan).run p = .ok p p := rfl
  rw [removeSubtree, EStateM.run_bind, hget]
  by_cases hroot : i = p.root.id
  · simp [hroot]
  · simp only [if_neg hroot]
    cases p.parent? i with
    | none => simp
    | some t => simp [run_graft_eq_ok, hroot]

end Edit

/-! ## Room for children -/

namespace OperatorKind

variable {k : OperatorKind} {m n : Nat}

/-- Whoever has room for some children has room for fewer. -/
theorem hasRoom_of_le (h : k.hasRoom n = true) (hmn : m ≤ n) : k.hasRoom m = true := by
  unfold hasRoom at h ⊢
  split
  · rfl
  · rename_i hmax
    simp only [hmax, decide_eq_true_eq] at h ⊢
    exact Nat.le_trans hmn h

theorem hasRoom_of_accepts (h : k.accepts n = true) : k.hasRoom n = true :=
  (Bool.and_eq_true_iff.mp h).2

end OperatorKind

theorem OperatorKind.le_one_of_filter {n : Nat} (h : OperatorKind.filter.hasRoom n = true) :
    n ≤ 1 := by simpa using of_decide_eq_true h

namespace PlanTree

/-- Whether the number of children is right for the kind of every node, where `P` says what is
right. -/
def Counted (P : OperatorKind → Nat → Bool) (t : PlanTree) : Prop :=
  ∀ s ∈ t.nodes, P s.op.kind s.children.length = true

/-- Whether no node has more children than its kind allows. -/
abbrev Roomy (t : PlanTree) : Prop := t.Counted OperatorKind.hasRoom

/-- Whether every node has as many children as its kind needs. -/
abbrev Complete (t : PlanTree) : Prop := t.Counted OperatorKind.accepts

variable {P : OperatorKind → Nat → Bool}

theorem counted_node {i : NodeId} {op : Operator} {children : List PlanTree} :
    (node i op children).Counted P ↔
      P op.kind children.length = true ∧ ∀ c ∈ children, c.Counted P := by
  unfold Counted
  rw [nodes_node, List.forall_mem_cons]
  refine and_congr Iff.rfl ?_
  simp only [List.mem_flatMap, forall_exists_index, and_imp]
  exact ⟨fun h c hc s hs => h s c hc hs, fun h s c hc hs => h c hc s hs⟩

theorem roomy_leaf (i : NodeId) (op : Operator) : (leaf i op).Roomy :=
  counted_node.mpr ⟨by cases op <;> rfl, by simp⟩

variable {s t new : PlanTree}

theorem Counted.of_mem (h : t.Counted P) (hs : s ∈ t.nodes) : s.Counted P := fun u hu =>
  h u (mem_nodes_trans hs hu)

theorem Counted.child (h : t.Counted P) {c : PlanTree} (hc : c ∈ t.children) : c.Counted P :=
  h.of_mem (mem_nodes_of_mem_children hc)

/-- The children that a node gets from one of its children are counted as well. -/
theorem Counted.spliced (h : t.Counted P) {c : PlanTree} (hc : c ∈ t.children) :
    ∀ s ∈ Proposal.spliced t c, s.Counted P :=
  Proposal.forall_spliced hc (fun _ hs => h.child hs) fun _ hs => (h.child hc).child hs

theorem Counted.graft (h : t.Counted P) (hnew : new.Counted P) (i : NodeId) :
    (graft i new t).Counted P := by
  induction t using ind with
  | node j op children ih =>
    rw [PlanTree.graft, graftList_eq_map]
    by_cases hj : j = i
    · rwa [if_pos hj]
    · obtain ⟨hcount, hchildren⟩ := counted_node.mp h
      rw [if_neg hj, counted_node, List.length_map, List.forall_mem_map]
      exact ⟨hcount, fun c hc => ih c hc (hchildren c hc)⟩

end PlanTree

namespace Edit

open PlanTree

variable {α : Type}

/-- Whether an edit leaves room for the children of all nodes. -/
def KeepsRoom (edit : Edit α) : Prop :=
  ∀ p a p', p.root.Roomy → edit.run p = .ok a p' → p'.root.Roomy

theorem addChild_keepsRoom (i : NodeId) (op : Operator) : (addChild i op).KeepsRoom := by
  intro p j p' hp h
  obtain ⟨t, ht, hroom, -, rfl⟩ := addChild_eq_ok.mp h
  have htp : t.Roomy := hp.of_mem (Plan.find?_eq_some ht).1
  refine hp.graft (counted_node.mpr ⟨?_, fun c hc => ?_⟩) i
  · rwa [List.length_append, List.length_singleton]
  · rcases List.mem_append.mp hc with hc | hc
    · exact htp.child hc
    · rw [List.mem_singleton.mp hc]
      exact roomy_leaf p.next op

theorem replaceOperator_keepsRoom (i : NodeId) (op : Operator) :
    (replaceOperator i op).KeepsRoom := by
  intro p old p' hp h
  obtain ⟨t, ht, hroom, -, rfl⟩ := replaceOperator_eq_ok.mp h
  have htp : t.Roomy := hp.of_mem (Plan.find?_eq_some ht).1
  exact hp.graft (counted_node.mpr ⟨hroom, fun c hc => htp.child hc⟩) i

theorem removeSubtree_keepsRoom (i : NodeId) : (removeSubtree i).KeepsRoom := by
  intro p u p' hp h
  obtain ⟨-, t, ht, rfl⟩ := removeSubtree_eq_ok.mp h
  have htp : t.Roomy := hp.of_mem (Plan.parent?_eq_some ht).1
  refine hp.graft (counted_node.mpr ⟨?_, fun c hc => htp.child (List.mem_of_mem_filter hc)⟩) t.id
  exact OperatorKind.hasRoom_of_le (htp t (self_mem_nodes t)) (List.length_filter_le _ _)

/-- Proposals may be applied to any plan: what does not fit is refused. -/
theorem apply_keepsRoom (proposal : Proposal NodeId) : proposal.apply.KeepsRoom := by
  intro p u p' hp h
  have hfound : ∀ {i t}, p.find? i = some t → t.Roomy := fun ht =>
    hp.of_mem (Plan.find?_eq_some ht).1
  cases proposal with
  | replaceOperator i op =>
    obtain ⟨t, ht, hok, rfl⟩ := Proposal.apply_replaceOperator_eq_ok.mp h
    exact hp.graft (counted_node.mpr
      ⟨OperatorKind.hasRoom_of_accepts hok, fun c hc => (hfound ht).child hc⟩) i
  | replaceByChild i =>
    obtain ⟨t, c, ht, hc, rfl⟩ := Proposal.apply_replaceByChild_eq_ok.mp h
    exact hp.graft ((hfound ht).child (hc ▸ List.mem_singleton_self c)) i
  | flattenChild i j =>
    obtain ⟨t, c, op, ht, hc, hflat, -, rfl⟩ := Proposal.apply_flattenChild_eq_ok.mp h
    refine hp.graft (counted_node.mpr
      ⟨?_, (hfound ht).spliced (Proposal.childOf_eq_ok hc).1⟩) i
    rcases Proposal.flatten_eq_ok hflat with ⟨as, bs, -, -, rfl⟩ | ⟨n, -, -, rfl⟩ <;> rfl
  | mergeFilters i j =>
    obtain ⟨t, c, outer, inner, ht, hc, hout, hin, rfl⟩ := Proposal.apply_mergeFilters_eq_ok.mp h
    obtain ⟨hct, -⟩ := Proposal.childOf_eq_ok hc
    refine hp.graft (counted_node.mpr ⟨?_, (hfound ht).spliced hct⟩) i
    have houter := hfound ht t (self_mem_nodes t)
    have hinner := (hfound ht).child hct c (self_mem_nodes c)
    rw [hout] at houter
    rw [hin] at hinner
    -- the upper filter has no other child, so it gets what the lower one has
    rwa [(Proposal.spliced_of_length_le_one (OperatorKind.le_one_of_filter houter) hct).2]

end Edit

end OntoQuery
