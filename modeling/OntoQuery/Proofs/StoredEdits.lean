import OntoQuery.Proofs.AtomicEdit
import OntoQuery.Proofs.PlanEdits
import OntoQuery.Proofs.StoredPlan

/-!
# Edits in arenas and edits of plans

An edit in an arena *follows* an edit of plans if, wherever a plan is shown, it either fails and
changes nothing or shows afterwards what the other one makes of that plan.

* `addChild_follows`: a new node takes the next slot, and its key is appended to a list.
* `replaceOperator_follows`: the keys stay as they are.
* `removeSubtree_atomic`, `removeSubtree_follows`: a key is taken out of the list of its parent, and
  the slots of whatever was below it are freed.  Freeing goes on with a stack of keys, which are
  those of separate trees at any time (`get?_discard`).
-/

namespace OntoQuery

namespace StoreEdit

open PlanStore

/-- Whether an edit in an arena does what an edit of plans does; `f` says what its result is for
the other one. -/
def Follows {α β : Type} (edit : StoreEdit α) (spec : Edit β) (f : α → β) : Prop :=
  ∀ s p, s.Shows p → edit.Atomic s fun a s' => ∃ p', spec.run p = .ok (f a) p' ∧ s'.Shows p'

/-! ## Adding a node -/

/-- A plan in an arena after a node has been stored and its key appended to the list of another
one. -/
theorem shows_addChild {s : PlanStore} {p : Plan} (h : s.Shows p) {t : PlanTree}
    {q : Option Arena.Key} (ht : t ∈ p.nodes) (hq : s.Keeps q t) (op : Operator) :
    ((s.push ⟨op, [], some (s.keyOf t)⟩).mapNodes (updateAt (s.keyOf t) fun n =>
        { n with children := n.children ++ [s.key p.next] })).Shows
      (p.extend t [.leaf p.next op]) := by
  let leaf : PlanNode := ⟨op, [], some (s.keyOf t)⟩
  let s₁ := s.push leaf
  let s' := s₁.mapNodes (updateAt (s.keyOf t) fun n =>
    { n with children := n.children ++ [s.key p.next] })
  have hnext : ∀ {i}, i ∈ t.ids → i ≠ p.next := fun hi => Nat.ne_of_lt (h.lt_next ht hi)
  have htnext : t.id ≠ p.next := hnext (PlanTree.id_mem_ids t)
  have hget₁ : ∀ l, s₁.get? l = if l = s.key p.next then some leaf else s.get? l := fun l => by
    rw [← h.length_slots]
    exact get?_push s l leaf
  have hparent : s₁.get? (s.keyOf t) = some (s.nodeOf q t) := by
    rw [hget₁, if_neg (key_ne htnext), hq.get?_eq]
  have hnode : s'.get? (s.keyOf t) =
      some ⟨t.op, (t.children ++ [PlanTree.leaf p.next op]).map s.keyOf, q⟩ := by
    rw [get?_updateAt_self hparent, List.map_append]
    rfl
  have hleaf : s'.get? (s.key p.next) = some leaf := by
    rw [get?_updateAt_of_ne (key_ne htnext.symm), hget₁, if_pos rfl]
  have hsame : ∀ i, i ≠ t.id → i ≠ p.next → s'.get? (s.key i) = s.get? (s.key i) := by
    intro i hi hinext
    rw [get?_updateAt_of_ne (key_ne hi), hget₁, if_neg (key_ne hinext)]
  have hids := PlanTree.ids_extend_leaf t p.next op
  refine h.graft_node ht hq (h.numbered.extend_leaf ht op) rfl ?_ rfl hnode (fun c hc => ?_)
    (fun u hu hut => ?_) (fun l m hl => ?_) fun i hi hnot => ?_
  · rw [length_slots_mapNodes, length_slots_push, h.length_slots]
    rfl
  · rcases List.mem_append.mp hc with hc | hc
    · have hct := PlanTree.mem_nodes_of_mem_children hc
      refine (hq.child hc).congr rfl fun i hi =>
        hsame i ?_ (hnext (PlanTree.ids_subset_of_mem hct hi))
      exact fun heq => PlanTree.id_notMem_ids_child (h.nodup_ids ht) hc (heq ▸ hi)
    · rw [List.mem_singleton.mp hc]
      exact Keeps.of_children (s := s) rfl hleaf (by simp [PlanTree.leaf, PlanTree.children])
  · exact hsame u.id (fun heq => hut (heq ▸ PlanTree.id_mem_ids t))
      (Nat.ne_of_lt (h.lt_next hu (PlanTree.id_mem_ids u)))
  · obtain ⟨m', hm'⟩ := exists_of_get?_mapNodes hl
    rw [hget₁] at hm'
    split at hm'
    · exact Or.inl ⟨p.next, hids ▸ List.mem_append_right _ (List.mem_singleton_self _), ‹_›⟩
    · exact Or.inr ⟨m', hm'⟩
  · exact absurd (hids ▸ List.mem_append_left _ hi) hnot

/-- Adding a node does not fail where there is room for it. -/
theorem run_addChild {s : PlanStore} {p : Plan} (h : s.Shows p) {t : PlanTree} (ht : t ∈ p.nodes)
    (op : Operator) (hroom : t.op.kind.hasRoom (t.children.length + 1) = true) :
    (addChild (s.keyOf t) op).run s = .ok (s.key p.next)
      ((s.push ⟨op, [], some (s.keyOf t)⟩).mapNodes (updateAt (s.keyOf t) fun n =>
        { n with children := n.children ++ [s.key p.next] })) := by
  obtain ⟨q, hq⟩ := h.exists_keeps ht
  have hnext : s.key s.arena.slots.length = s.key p.next := congrArg s.key h.length_slots
  have hparent : (s.push ⟨op, [], some (s.keyOf t)⟩).get? (s.keyOf t) = some (s.nodeOf q t) := by
    have hne : t.id ≠ p.next := Nat.ne_of_lt (h.lt_next ht (PlanTree.id_mem_ids t))
    rw [get?_push, hnext, if_neg (key_ne hne), hq.get?_eq]
  have hcheck : (s.nodeOf q t).op.kind.checkRoom ((s.nodeOf q t).children.length + 1) = .ok () := by
    rw [OperatorKind.checkRoom_eq_ok, nodeOf, List.length_map]
    exact hroom
  rw [addChild, run_bind_of_ok (run_find hq.get?_eq), run_bind_of_ok (run_check hcheck),
    run_bind_of_ok (run_alloc _), hnext, run_bind_of_ok (run_update hparent _)]
  rfl

theorem addChild_follows (k : Arena.Key) (op : Operator) :
    (addChild k op).Follows (Edit.addChild k.offset op) Arena.Key.offset := by
  intro s p h
  refine atomic_find_check fun n hn hroom => ?_
  obtain ⟨t, ht, q, rfl, rfl, hq⟩ := h.exists_node hn
  rw [OperatorKind.checkRoom_eq_ok, nodeOf, List.length_map] at hroom
  exact atomic_of_run (run_addChild h ht op hroom) ⟨_, Edit.addChild_eq_ok.mpr
    ⟨t, h.find?_eq ht, hroom, rfl, rfl⟩, shows_addChild h ht hq op⟩

/-! ## Changing the operator of a node -/

/-- A plan in an arena after the operator of a node has changed. -/
theorem shows_setOperator {s : PlanStore} {p : Plan} (h : s.Shows p) {t : PlanTree}
    {q : Option Arena.Key} (ht : t ∈ p.nodes) (hq : s.Keeps q t) (op : Operator) :
    (s.mapNodes (updateAt (s.keyOf t) fun n => { n with op := op })).Shows
      (p.graft t.id (.node t.id op t.children)) := by
  have hids : (PlanTree.node t.id op t.children).ids = t.ids := by
    obtain ⟨i, op', children⟩ := t
    rw [PlanTree.ids_node, PlanTree.ids_node]
    rfl
  refine h.graft_node ht hq (h.numbered.graft ht (hids ▸ List.Sublist.refl _)) rfl ?_ rfl
    (get?_updateAt_self hq.get?_eq) (fun c hc => ?_) (fun u hu hut => ?_) (fun l m hl => ?_)
    fun i hi hnot => absurd (hids ▸ hi) hnot
  · rw [length_slots_mapNodes, h.length_slots]
  · refine (hq.child hc).congr rfl fun i hi => get?_updateAt_of_ne (key_ne fun heq => ?_)
    exact PlanTree.id_notMem_ids_child (h.nodup_ids ht) hc (heq ▸ hi)
  · exact get?_updateAt_of_ne (key_ne fun heq => hut (heq ▸ PlanTree.id_mem_ids t))
  · exact Or.inr (exists_of_get?_mapNodes hl)

theorem run_replaceOperator {s : PlanStore} {k : Arena.Key} {n : PlanNode} {op : Operator}
    (hn : s.get? k = some n) (hroom : op.kind.checkRoom n.children.length = .ok ()) :
    (replaceOperator k op).run s =
      .ok n.op (s.mapNodes (updateAt k fun n => { n with op := op })) := by
  rw [replaceOperator, run_bind_of_ok (run_find hn), run_bind_of_ok (run_check hroom),
    run_bind_of_ok (run_update hn _)]
  rfl

theorem replaceOperator_follows (k : Arena.Key) (op : Operator) :
    (replaceOperator k op).Follows (Edit.replaceOperator k.offset op) id := by
  intro s p h
  refine atomic_find_check fun n hn hroom => ?_
  obtain ⟨t, ht, q, rfl, rfl, hq⟩ := h.exists_node hn
  refine atomic_of_run (run_replaceOperator hn hroom) ⟨_, Edit.replaceOperator_eq_ok.mpr
    ⟨t, h.find?_eq ht, ?_, rfl, rfl⟩, shows_setOperator h ht hq op⟩
  rwa [OperatorKind.checkRoom_eq_ok, nodeOf, List.length_map] at hroom

/-! ## Taking out a node -/

theorem tag_discard (a : Arena PlanNode) (stack : List Arena.Key) :
    (discard a stack).tag = a.tag := by
  fun_induction discard a stack with
  | case1 a => rfl
  | case2 a k stack _ _ ih => exact ih
  | case3 a k stack n a' hremove ih => rw [ih, ← Arena.tag_remove a k, hremove]

theorem length_slots_discard (a : Arena PlanNode) (stack : List Arena.Key) :
    (discard a stack).slots.length = a.slots.length := by
  fun_induction discard a stack with
  | case1 a => rfl
  | case2 a k stack _ _ ih => exact ih
  | case3 a k stack n a' hremove ih => rw [ih, ← Arena.length_slots_remove a k, hremove]

theorem discard_cons {a : Arena PlanNode} {k : Arena.Key} {n : PlanNode} (h : a.get? k = some n)
    (stack : List Arena.Key) :
    discard a (k :: stack) = discard (a.remove k).2 (n.children.reverse ++ stack) := by
  have hfst : (a.remove k).1 = some n := (Arena.fst_remove a k).trans h
  rw [discard]
  split
  · rename_i hremove
    rw [hremove] at hfst
    exact absurd hfst (by simp)
  · rename_i m a' hremove
    rw [hremove] at hfst ⊢
    rw [Option.some.inj hfst]

/-- Discarding trees removes their nodes and nothing else. -/
theorem get?_discard {s : PlanStore} {ts : List PlanTree} (hts : ∀ t ∈ ts, ∃ q, s.Keeps q t)
    (hnodup : (ts.flatMap PlanTree.ids).Nodup) (l : Arena.Key) :
    (discard s.arena (ts.map s.keyOf)).get? l =
      if ∃ i ∈ ts.flatMap PlanTree.ids, l = s.key i then none else s.get? l := by
  match ts with
  | [] =>
    rw [List.map_nil, discard, if_neg (by simp)]
    rfl
  | t :: ts =>
    obtain ⟨⟨q, hq⟩, hts⟩ := List.forall_mem_cons.mp hts
    let s₁ := s.erase (s.keyOf t)
    have hkey : s₁.key = s.key := by
      funext i
      rw [key, key, tag_erase]
    have hkeyOf : s₁.keyOf = s.keyOf := funext fun u => congrFun hkey u.id
    have hperm : ((t :: ts).flatMap PlanTree.ids).Perm
        (t.id :: (t.children.reverse ++ ts).flatMap PlanTree.ids) := by
      obtain ⟨i, op, children⟩ := t
      rw [List.flatMap_cons, PlanTree.ids_node, List.flatMap_append, List.cons_append]
      exact (((List.reverse_perm children).symm.flatMap_right _).append_right _).cons _
    obtain ⟨hnotMem, hnodup'⟩ := List.nodup_cons.mp (hperm.nodup_iff.mp hnodup)
    have hts₁ : ∀ u ∈ t.children.reverse ++ ts, ∃ q, s₁.Keeps q u := by
      intro u hu
      have hold : ∃ q, s.Keeps q u := by
        rcases List.mem_append.mp hu with hc | hu
        · exact ⟨_, hq.child (List.mem_reverse.mp hc)⟩
        · exact hts u hu
      obtain ⟨q', hq'⟩ := hold
      refine ⟨q', hq'.congr (tag_erase s _) fun i hi => ?_⟩
      rw [get?_erase, if_neg (key_ne fun heq => hnotMem ?_)]
      exact List.mem_flatMap.mpr ⟨u, hu, heq ▸ hi⟩
    have hsmaller : ((t.children.reverse ++ ts).flatMap PlanTree.ids).length <
        ((t :: ts).flatMap PlanTree.ids).length := by
      rw [hperm.length_eq]
      exact Nat.lt_succ_self _
    have ih := get?_discard hts₁ hnodup' l
    rw [hkeyOf, hkey, get?_erase] at ih
    rw [List.map_cons, discard_cons hq.get?_eq, nodeOf, ← List.map_reverse, ← List.map_append]
    refine ih.trans ?_
    simp only [hperm.mem_iff, List.mem_cons, exists_eq_or_imp]
    by_cases hl : l = s.keyOf t
    · rw [if_pos hl, if_pos (Or.inl hl), ite_self]
    · simp only [hl, if_false, false_or]
termination_by (ts.flatMap PlanTree.ids).length
decreasing_by exact hsmaller

/-- A plan after the key of a child has been taken out of the list of its parent, and the child has
been discarded with everything below it. -/
def cutChild (s : PlanStore) (parent k : Arena.Key) : PlanStore :=
  let s₁ := s.mapNodes (updateAt parent fun n =>
    { n with children := n.children.filter fun c => c ≠ k })
  { s₁ with arena := discard s₁.arena [k] }

@[simp] theorem tag_cutChild (s : PlanStore) (parent k : Arena.Key) :
    (cutChild s parent k).arena.tag = s.arena.tag := tag_discard _ _

@[simp] theorem length_slots_cutChild (s : PlanStore) (parent k : Arena.Key) :
    (cutChild s parent k).arena.slots.length = s.arena.slots.length := by
  rw [cutChild, length_slots_discard, length_slots_mapNodes]

/-- What is stored after a child of a node has been cut off. -/
theorem get?_cutChild {s : PlanStore} {u t : PlanTree} {q : Option Arena.Key}
    (hq : s.Keeps q u) (hnodup : u.ids.Nodup) (htu : t ∈ u.children) (l : Arena.Key) :
    (cutChild s (s.keyOf u) (s.keyOf t)).get? l =
      if ∃ i ∈ t.ids, l = s.key i then none
      else if l = s.keyOf u then
        some ⟨u.op, (u.children.filter fun c => c.id ≠ t.id).map s.keyOf, q⟩
      else s.get? l := by
  let s₁ := s.mapNodes (updateAt (s.keyOf u) fun n =>
    { n with children := n.children.filter fun c => c ≠ s.keyOf t })
  have hut : u.id ∉ t.ids := PlanTree.id_notMem_ids_child hnodup htu
  have hkept : ∀ v ∈ [t], ∃ q, s₁.Keeps q v := by
    refine List.forall_mem_singleton.mpr ⟨some (s.keyOf u), ?_⟩
    exact (hq.child htu).congr rfl fun i hi =>
      get?_updateAt_of_ne (key_ne fun heq => hut (heq ▸ hi))
  have hdistinct : ([t].flatMap PlanTree.ids).Nodup := by
    rw [List.flatMap_singleton]
    exact PlanTree.nodup_ids_of_mem hnodup (PlanTree.mem_nodes_of_mem_children htu)
  have hdiscard := get?_discard hkept hdistinct l
  rw [List.map_singleton, List.flatMap_singleton] at hdiscard
  refine hdiscard.trans (ite_congr rfl (fun _ => rfl) fun _ => ?_)
  by_cases hl : l = s.keyOf u
  · rw [if_pos hl, hl, get?_updateAt_self hq.get?_eq, nodeOf, List.filter_map]
    simp [Function.comp_def]
  · rw [if_neg hl, get?_updateAt_of_ne hl]

/-- A plan in an arena after a node and what is below it has been taken out. -/
theorem shows_cutChild {s : PlanStore} {p : Plan} (h : s.Shows p) {t u : PlanTree}
    (hu : u ∈ p.nodes) (htu : t ∈ u.children) : (cutChild s (s.keyOf u) (s.keyOf t)).Shows
      (p.graft u.id (.node u.id u.op (u.children.filter fun c => c.id ≠ t.id))) := by
  obtain ⟨q, hq⟩ := h.exists_keeps hu
  have hnodup := h.nodup_ids hu
  have htu' : t ∈ u.nodes := PlanTree.mem_nodes_of_mem_children htu
  let s' : PlanStore := cutChild s (s.keyOf u) (s.keyOf t)
  have htag : s'.arena.tag = s.arena.tag := tag_cutChild _ _ _
  have hget := get?_cutChild hq hnodup htu
  have hkey : ∀ {i}, i ∉ t.ids → ¬ ∃ j ∈ t.ids, s.key i = s.key j := by
    rintro i hi ⟨j, hj, heq⟩
    exact hi (s.key_injective heq ▸ hj)
  have hnode : s'.get? (s.keyOf u) =
      some ⟨u.op, (u.children.filter fun c => c.id ≠ t.id).map s.keyOf, q⟩ :=
    (hget _).trans ((if_neg (hkey (PlanTree.id_notMem_ids_child hnodup htu))).trans (if_pos rfl))
  have hsame : ∀ i, i ≠ u.id → i ∉ t.ids → s'.get? (s.key i) = s.get? (s.key i) :=
    fun i hiu hit => (hget _).trans ((if_neg (hkey hit)).trans (if_neg (key_ne hiu)))
  have hsublist : (PlanTree.node u.id u.op (u.children.filter fun c => c.id ≠ t.id)).ids.Sublist
      u.ids := by
    obtain ⟨i, op, children⟩ := u
    rw [PlanTree.ids_node, PlanTree.ids_node]
    exact ((List.filter_sublist).flatMap _).cons_cons i
  refine h.graft_node hu hq (h.numbered.graft hu hsublist) htag ?_ rfl hnode (fun c hc => ?_)
    (fun v hv hvu => ?_) (fun l m hl => ?_) fun i hi hnot => ?_
  · rw [length_slots_cutChild, h.length_slots]
  · obtain ⟨hc, hct⟩ := List.mem_filter.mp hc
    refine (hq.child hc).congr htag fun i hi => hsame i (fun heq => ?_)
      (PlanTree.notMem_ids_of_children hnodup hc htu (Ne.symm (of_decide_eq_true hct)) hi)
    exact PlanTree.id_notMem_ids_child hnodup hc (heq ▸ hi)
  · exact hsame v.id (fun heq => hvu (heq ▸ PlanTree.id_mem_ids u)) fun hvt =>
      hvu (PlanTree.ids_subset_of_mem htu' hvt)
  · by_cases hlu : l = s.keyOf u
    · exact Or.inr ⟨_, hlu ▸ hq.get?_eq⟩
    · rw [show s'.get? l = _ from hget l, if_neg hlu] at hl
      split at hl
      · exact absurd hl (by simp)
      · exact Or.inr ⟨m, hl⟩
  · rcases PlanTree.mem_ids.mp hi with rfl | ⟨c, hc, hic⟩
    · exact absurd (PlanTree.id_mem_ids _) hnot
    · by_cases hct : c.id = t.id
      · obtain rfl := PlanTree.eq_of_id_eq_of_children hnodup hc htu hct.symm
        exact (hget _).trans (if_pos ⟨i, hic, rfl⟩)
      · refine absurd (PlanTree.mem_ids.mpr (Or.inr ⟨c, ?_, hic⟩)) hnot
        exact List.mem_filter.mpr ⟨hc, decide_eq_true hct⟩

/-- Taking out a node that has a parent does not fail. -/
theorem run_removeSubtree {s : PlanStore} {p : Plan} (h : s.Shows p) {t u : PlanTree}
    (hu : u ∈ p.nodes) (htu : t ∈ u.children) :
    (removeSubtree (s.keyOf t)).run s = .ok () (cutChild s (s.keyOf u) (s.keyOf t)) := by
  obtain ⟨q, hq⟩ := h.exists_keeps hu
  show (if s.keyOf t = s.root then (throw .rootRemoval : StoreEdit Unit) else _).run s = _
  rw [if_neg (h.keyOf_ne_root hu htu), run_bind_of_ok (run_find (h.get?_child hu htu).get?_eq)]
  show ((update (s.keyOf u) _ >>= _ : StoreEdit Unit)).run s = _
  rw [run_bind_of_ok (run_update hq.get?_eq _)]
  rfl

/-- Either a child of a node is cut off, or nothing is changed. -/
theorem removeSubtree_atomic {s : PlanStore} {p : Plan} (h : s.Shows p) (k : Arena.Key) :
    (removeSubtree k).Atomic s fun _ s' => ∃ u ∈ p.nodes, ∃ t ∈ u.children,
      k = s.keyOf t ∧ s' = cutChild s (s.keyOf u) (s.keyOf t) := by
  by_cases hroot : k = s.root
  · refine atomic_get_bind ?_
    rw [if_pos hroot]
    exact atomic_throw _
  · cases hk : s.get? k with
    | none =>
      refine atomic_get_bind ?_
      rw [if_neg hroot]
      exact atomic_find_bind fun n hn => nomatch hk.symm.trans hn
    | some n =>
      obtain ⟨t, ht, q, rfl, rfl, -⟩ := h.exists_node hk
      rcases h.eq_root_or_exists_parent ht with rfl | ⟨u, hu, htu, -⟩
      · exact absurd h.root_eq.symm hroot
      · exact atomic_of_run (run_removeSubtree h hu htu) ⟨u, hu, t, htu, rfl, rfl⟩

theorem removeSubtree_follows (k : Arena.Key) :
    (removeSubtree k).Follows (Edit.removeSubtree k.offset) id := by
  intro s p h
  refine (removeSubtree_atomic h k).mono fun _ s' hs' => ?_
  obtain ⟨u, hu, t, htu, rfl, rfl⟩ := hs'
  refine ⟨_, Edit.removeSubtree_eq_ok.mpr ⟨fun heq => ?_, u, h.parent?_eq hu htu, rfl⟩,
    shows_cutChild h hu htu⟩
  exact h.keyOf_ne_root hu htu ((congrArg s.key heq).trans h.root_eq.symm)

end StoreEdit

end OntoQuery
