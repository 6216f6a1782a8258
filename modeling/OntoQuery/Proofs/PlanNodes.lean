import Mathlib.Data.List.Flatten
import Mathlib.Data.List.Forall2
import Mathlib.Data.List.Nodup
import OntoQuery.Plan.Tree

/-!
# Nodes of plans

The nodes of a tree in pre-order are the topmost node and then those of its children.

* `nodes_node`: this recursion, which `PlanTree.walk` carries out with a stack.
* `graft_rel`: a relation between trees that all operators keep holds between a tree and what
  grafting makes of it, if it holds between each node that is replaced and the new tree.
* `exists_labels_graft`: grafting changes what is read off the nodes of a tree in one place.
* `graft_graft`: a node of a tree that has been put in the place of a node is replaced there.
* `Plan.Numbered`: the numbers of the nodes are distinct, and all of them have been given out.  Then
  a number stands for one node, and that is the one which is found.
-/

namespace OntoQuery

namespace PlanTree

/-- Induction on trees, with a hypothesis for each child. -/
@[elab_as_elim]
theorem ind {motive : PlanTree → Prop}
    (node : ∀ id op children, (∀ t ∈ children, motive t) → motive (.node id op children))
    (t : PlanTree) : motive t := by
  refine PlanTree.rec (motive_1 := motive) (motive_2 := fun ts => ∀ t ∈ ts, motive t) node
    (fun _ h => nomatch h) (fun t ts ht hts u hu => ?_) t
  rcases List.mem_cons.mp hu with rfl | hu
  · exact ht
  · exact hts u hu

/-! ## The nodes of a tree -/

theorem walk_append (ts us : List PlanTree) : walk (ts ++ us) = walk ts ++ walk us := by
  fun_induction walk ts with
  | case1 => rfl
  | case2 t ts ih =>
    rw [List.cons_append, walk, ← List.append_assoc, ih]
    rfl

theorem walk_eq_flatMap (ts : List PlanTree) : walk ts = ts.flatMap nodes := by
  induction ts with
  | nil => rw [walk, List.flatMap_nil]
  | cons t ts ih =>
    rw [← List.singleton_append, walk_append, List.flatMap_append, ih, List.flatMap_cons,
      List.flatMap_nil, List.append_nil]
    rfl

theorem nodes_node (i : NodeId) (op : Operator) (children : List PlanTree) :
    (node i op children).nodes = node i op children :: children.flatMap nodes := by
  rw [nodes, walk, List.append_nil, walk_eq_flatMap]
  rfl

theorem mem_nodes_node {s : PlanTree} {i : NodeId} {op : Operator} {children : List PlanTree} :
    s ∈ (node i op children).nodes ↔ s = node i op children ∨ ∃ c ∈ children, s ∈ c.nodes := by
  rw [nodes_node, List.mem_cons, List.mem_flatMap]

theorem self_mem_nodes (t : PlanTree) : t ∈ t.nodes := by
  obtain ⟨i, op, children⟩ := t
  exact mem_nodes_node.mpr (Or.inl rfl)

/-- What is read off the numbers and operators of the nodes of a tree. -/
def labels {α : Type} (f : NodeId → Operator → α) (t : PlanTree) : List α :=
  t.nodes.map fun s => f s.id s.op

theorem labels_node {α : Type} (f : NodeId → Operator → α) (i : NodeId) (op : Operator)
    (children : List PlanTree) :
    (node i op children).labels f = f i op :: children.flatMap (labels f) := by
  rw [labels, nodes_node, List.map_cons, List.map_flatMap]
  rfl

/-- The numbers of the nodes of a tree. -/
def ids (t : PlanTree) : List NodeId := t.nodes.map id

theorem ids_node (i : NodeId) (op : Operator) (children : List PlanTree) :
    (node i op children).ids = i :: children.flatMap ids :=
  labels_node (fun i _ => i) i op children

theorem ids_leaf (i : NodeId) (op : Operator) : (leaf i op).ids = [i] := ids_node i op []

/-- The numbers below a node are among those of the tree, in the same order. -/
theorem ids_sublist_of_mem {s t : PlanTree} (h : s ∈ t.nodes) : s.ids.Sublist t.ids := by
  induction t using ind with
  | node i op children ih =>
    rcases mem_nodes_node.mp h with rfl | ⟨c, hc, hs⟩
    · exact List.Sublist.refl _
    · rw [ids_node, List.flatMap_def]
      exact ((ih c hc hs).trans (List.sublist_flatten_of_mem (List.mem_map_of_mem hc))).cons _

/-- With distinct numbers, nodes of one number are the same. -/
theorem eq_of_id_eq {s s' t : PlanTree} (ht : t.ids.Nodup) (hs : s ∈ t.nodes) (hs' : s' ∈ t.nodes)
    (h : s.id = s'.id) : s = s' :=
  List.inj_on_of_nodup_map ht hs hs' h

theorem mem_nodes_of_mem_children {c t : PlanTree} (hc : c ∈ t.children) : c ∈ t.nodes := by
  obtain ⟨i, op, children⟩ := t
  exact mem_nodes_node.mpr (Or.inr ⟨c, hc, self_mem_nodes c⟩)

/-- With distinct numbers, children of one number are the same. -/
theorem eq_of_id_eq_of_children {c s t : PlanTree} (ht : t.ids.Nodup) (hc : c ∈ t.children)
    (hs : s ∈ t.children) (h : s.id = c.id) : s = c :=
  eq_of_id_eq ht (mem_nodes_of_mem_children hs) (mem_nodes_of_mem_children hc) h

/-- A node below a node of a tree is a node of the tree. -/
theorem mem_nodes_trans {s t u : PlanTree} (hs : s ∈ t.nodes) (hu : u ∈ s.nodes) : u ∈ t.nodes := by
  induction t using ind with
  | node i op children ih =>
    rcases mem_nodes_node.mp hs with rfl | ⟨c, hc, hs⟩
    · exact hu
    · exact mem_nodes_node.mpr (Or.inr ⟨c, hc, ih c hc hs⟩)

theorem child_mem_nodes {c s t : PlanTree} (hs : s ∈ t.nodes) (hc : c ∈ s.children) : c ∈ t.nodes :=
  mem_nodes_trans hs (mem_nodes_of_mem_children hc)

theorem id_mem_ids (t : PlanTree) : t.id ∈ t.ids := List.mem_map_of_mem (self_mem_nodes t)

theorem mem_ids_iff {i : NodeId} {t : PlanTree} : i ∈ t.ids ↔ ∃ s ∈ t.nodes, s.id = i :=
  List.mem_map

/-- The numbers of a tree are that of its topmost node and those below. -/
theorem mem_ids {t : PlanTree} {i : NodeId} :
    i ∈ t.ids ↔ i = t.id ∨ ∃ c ∈ t.children, i ∈ c.ids := by
  obtain ⟨j, op, children⟩ := t
  rw [ids_node, List.mem_cons, List.mem_flatMap]
  rfl

theorem ids_subset_of_mem {s t : PlanTree} (h : s ∈ t.nodes) {i : NodeId} (hi : i ∈ s.ids) :
    i ∈ t.ids :=
  (ids_sublist_of_mem h).subset hi

/-- Every node but the topmost one is a child of a node. -/
theorem eq_or_exists_parent {s t : PlanTree} (h : s ∈ t.nodes) :
    s = t ∨ ∃ u ∈ t.nodes, s ∈ u.children := by
  induction t using ind with
  | node i op children ih =>
    rcases mem_nodes_node.mp h with rfl | ⟨c, hc, hs⟩
    · exact Or.inl rfl
    · refine Or.inr ?_
      rcases ih c hc hs with rfl | ⟨u, hu, hsu⟩
      · exact ⟨_, self_mem_nodes _, hc⟩
      · exact ⟨u, mem_nodes_node.mpr (Or.inr ⟨c, hc, hu⟩), hsu⟩

/-- What occurs below a child does not occur below the others. -/
theorem notMem_ids_sibling {i : NodeId} {op : Operator} {c d : PlanTree}
    {before after : List PlanTree} (h : (node i op (before ++ c :: after)).ids.Nodup)
    (hd : d ∈ before ++ after) {k : NodeId} (hk : k ∈ c.ids) : k ∉ d.ids := by
  rw [ids_node, List.flatMap_append, List.flatMap_cons, List.nodup_cons, List.nodup_append] at h
  obtain ⟨-, -, hrest, hbefore⟩ := h
  intro hkd
  rcases List.mem_append.mp hd with hd | hd
  · exact hbefore k (List.mem_flatMap.mpr ⟨d, hd, hkd⟩) k (List.mem_append_left _ hk) rfl
  · exact (List.nodup_append.mp hrest).2.2 k hk k (List.mem_flatMap.mpr ⟨d, hd, hkd⟩) rfl

/-- Children with different numbers have no number in common. -/
theorem notMem_ids_of_children {t c d : PlanTree} (ht : t.ids.Nodup) (hc : c ∈ t.children)
    (hd : d ∈ t.children) (hne : d.id ≠ c.id) {k : NodeId} (hk : k ∈ c.ids) : k ∉ d.ids := by
  obtain ⟨i, op, children⟩ := t
  obtain ⟨before, after, rfl⟩ := List.append_of_mem hc
  refine notMem_ids_sibling ht ?_ hk
  rcases List.mem_append.mp hd with hd | hd
  · exact List.mem_append_left _ hd
  · rcases List.mem_cons.mp hd with rfl | hd
    · exact absurd rfl hne
    · exact List.mem_append_right _ hd

theorem id_notMem_ids_child {t c : PlanTree} (ht : t.ids.Nodup) (hc : c ∈ t.children) :
    t.id ∉ c.ids := by
  obtain ⟨j, op, children⟩ := t
  rw [ids_node, List.nodup_cons] at ht
  exact fun h => ht.1 (List.mem_flatMap.mpr ⟨c, hc, h⟩)

theorem nodup_ids_of_mem {s t : PlanTree} (ht : t.ids.Nodup) (h : s ∈ t.nodes) : s.ids.Nodup :=
  ht.sublist (ids_sublist_of_mem h)

/-! ## Grafting -/

theorem graftList_eq_map (i : NodeId) (new : PlanTree) (ts : List PlanTree) :
    graftList i new ts = ts.map (graft i new) := by
  induction ts with
  | nil => rfl
  | cons t ts ih => rw [graftList, ih, List.map_cons]

theorem id_graft (i : NodeId) (new t : PlanTree) :
    (graft i new t).id = if t.id = i then new.id else t.id := by
  obtain ⟨j, op, children⟩ := t
  rw [graft]
  by_cases hj : j = i
  · rw [if_pos hj, if_pos (by exact hj)]
  · rw [if_neg hj, if_neg (by exact hj)]
    rfl

theorem graft_node_of_ne {i j : NodeId} (h : j ≠ i) (new : PlanTree) (op : Operator)
    (children : List PlanTree) :
    graft i new (node j op children) = node j op (children.map (graft i new)) := by
  rw [graft, if_neg h, graftList_eq_map]

/-- Without a node of the given number, nothing is replaced. -/
theorem graft_eq_self {i : NodeId} {new t : PlanTree} (h : i ∉ t.ids) : graft i new t = t := by
  induction t using ind with
  | node j op children ih =>
    rw [ids_node, List.mem_cons, List.mem_flatMap, not_or] at h
    rw [graft_node_of_ne (fun hj => h.1 hj.symm)]
    congr 1
    exact (List.map_congr_left fun c hc => ih c hc fun hi => h.2 ⟨c, hc, hi⟩).trans (List.map_id _)

/-- A relation that all operators keep is kept by grafting. -/
theorem graft_rel {R : PlanTree → PlanTree → Prop}
    (hcongr : ∀ i op cs cs', List.Forall₂ R cs cs' → R (.node i op cs) (.node i op cs'))
    {i : NodeId} {new t : PlanTree} (h : ∀ s ∈ t.nodes, s.id = i → R s new) :
    R t (graft i new t) := by
  induction t using ind with
  | node j op children ih =>
    rw [graft]
    by_cases hj : j = i
    · rw [if_pos hj]
      exact h _ (self_mem_nodes _) hj
    · rw [if_neg hj, graftList_eq_map]
      refine hcongr j op _ _ (List.forall₂_map_right_iff.mpr (List.forall₂_same.mpr fun c hc => ?_))
      exact ih c hc fun s hs => h s (mem_nodes_node.mpr (Or.inr ⟨c, hc, hs⟩))

/-- Grafting a tree with fewer numbers leaves fewer numbers. -/
theorem ids_graft_sublist {i : NodeId} {new t : PlanTree}
    (h : ∀ s ∈ t.nodes, s.id = i → new.ids.Sublist s.ids) : (graft i new t).ids.Sublist t.ids := by
  refine graft_rel (R := fun s s' => s'.ids.Sublist s.ids) (fun j op cs cs' hcs => ?_) h
  rw [ids_node, ids_node]
  refine List.Sublist.cons_cons j ?_
  induction hcs with
  | nil => exact List.Sublist.refl _
  | cons hc _ ih =>
    rw [List.flatMap_cons, List.flatMap_cons]
    exact hc.append ih

/-- The labels of a tree around those of one of its nodes. -/
theorem exists_labels_graft {α : Type} (f : NodeId → Operator → α) {r t : PlanTree}
    (hr : r.ids.Nodup) (ht : t ∈ r.nodes) :
    ∃ l l', r.labels f = l ++ t.labels f ++ l' ∧
      ∀ new, (graft t.id new r).labels f = l ++ new.labels f ++ l' := by
  induction r using ind with
  | node j op children ih =>
    by_cases hj : j = t.id
    · obtain rfl : node j op children = t := eq_of_id_eq hr (self_mem_nodes _) ht hj
      refine ⟨[], [], by simp, fun new => ?_⟩
      rw [graft, if_pos hj]
      simp
    · rcases mem_nodes_node.mp ht with rfl | ⟨c, hc, htc⟩
      · exact absurd rfl hj
      · obtain ⟨before, after, rfl⟩ := List.append_of_mem hc
        have hcr : c ∈ (node j op (before ++ c :: after)).nodes :=
          mem_nodes_of_mem_children hc
        obtain ⟨l, l', hl, hgraft⟩ := ih c hc (nodup_ids_of_mem hr hcr) htc
        have hother : ∀ d ∈ before ++ after, ∀ new, graft t.id new d = d := fun d hd new =>
          graft_eq_self (notMem_ids_sibling hr hd (ids_subset_of_mem htc (id_mem_ids t)))
        refine ⟨f j op :: before.flatMap (labels f) ++ l, l' ++ after.flatMap (labels f), ?_,
          fun new => ?_⟩
        · rw [labels_node, List.flatMap_append, List.flatMap_cons, hl]
          simp
        · have hmap : ∀ ds ⊆ before ++ after, ds.map (graft t.id new) = ds := fun ds hds =>
            (List.map_congr_left fun d hd => hother d (hds hd) new).trans (List.map_id _)
          rw [graft_node_of_ne hj, List.map_append, List.map_cons,
            hmap before (List.subset_append_left _ _), hmap after (List.subset_append_right _ _),
            labels_node, List.flatMap_append, List.flatMap_cons, hgraft new]
          simp

/-- The numbers of a tree around those of one of its nodes. -/
theorem exists_ids_graft {r t : PlanTree} (hr : r.ids.Nodup) (ht : t ∈ r.nodes) :
    ∃ l l', r.ids = l ++ t.ids ++ l' ∧ ∀ new, (graft t.id new r).ids = l ++ new.ids ++ l' :=
  exists_labels_graft (fun i _ => i) hr ht

/-- The numbers after grafting. -/
theorem mem_ids_graft {r t new : PlanTree} (hr : r.ids.Nodup) (ht : t ∈ r.nodes) {i : NodeId} :
    i ∈ (graft t.id new r).ids ↔ i ∈ new.ids ∨ i ∈ r.ids ∧ i ∉ t.ids := by
  obtain ⟨l, l', hl, hgraft⟩ := exists_ids_graft hr ht
  rw [hl] at hr
  rw [hgraft, hl]
  simp only [List.mem_append]
  simp only [List.nodup_append, List.mem_append] at hr
  constructor
  · rintro ((h | h) | h)
    · exact Or.inr ⟨Or.inl (Or.inl h), fun hi => hr.1.2.2 i h i hi rfl⟩
    · exact Or.inl h
    · exact Or.inr ⟨Or.inr h, fun hi => hr.2.2 i (Or.inr hi) i h rfl⟩
  · rintro (h | ⟨(h | h) | h, hi⟩)
    · exact Or.inl (Or.inr h)
    · exact Or.inl (Or.inl h)
    · exact absurd h hi
    · exact Or.inr h

/-! ## Replacing more than one node -/

section

variable {i j : NodeId} {new u r t : PlanTree}

/-- What has been put in the place of a node is a node of the tree. -/
theorem mem_nodes_graft (hi : i ∈ r.ids) : new ∈ (graft i new r).nodes := by
  induction r using ind with
  | node k op children ih =>
    by_cases hk : k = i
    · rw [graft, if_pos hk]
      exact self_mem_nodes new
    · rw [graft_node_of_ne hk]
      rcases mem_ids.mp hi with heq | ⟨c, hc, hic⟩
      · exact absurd heq.symm hk
      · exact mem_nodes_node.mpr (Or.inr ⟨_, List.mem_map_of_mem hc, ih c hc hic⟩)

/-- Putting a node in its own place changes nothing. -/
theorem graft_self (hr : r.ids.Nodup) (ht : t ∈ r.nodes) : graft t.id t r = r := by
  induction r using ind with
  | node k op children ih =>
    by_cases hk : k = t.id
    · rw [graft, if_pos hk]
      exact (eq_of_id_eq hr (self_mem_nodes _) ht hk).symm
    · rw [graft_node_of_ne hk]
      congr 1
      refine (List.map_congr_left fun c hc => ?_).trans (List.map_id children)
      have hcr := mem_nodes_of_mem_children (t := node k op children) hc
      by_cases htc : t.id ∈ c.ids
      · obtain ⟨v, hv, hid⟩ := mem_ids_iff.mp htc
        obtain rfl := eq_of_id_eq hr (mem_nodes_trans hcr hv) ht hid
        exact ih c hc (nodup_ids_of_mem hr hcr) hv
      · exact graft_eq_self htc

/-- A node that is replaced twice becomes what it was replaced by at last. -/
theorem graft_graft_self (hu : u.id = i) : graft i new (graft i u r) = graft i new r := by
  induction r using ind with
  | node k op children ih =>
    by_cases hk : k = i
    · rw [graft, if_pos hk, graft, if_pos hk]
      obtain ⟨k', op', children'⟩ := u
      exact if_pos hu
    · rw [graft_node_of_ne hk, graft_node_of_ne hk, graft_node_of_ne hk, List.map_map]
      exact congrArg _ (List.map_congr_left ih)

/-- A node that is only found in a new tree is replaced there. -/
theorem graft_graft (hj : j ∉ r.ids) : graft j new (graft i u r) = graft i (graft j new u) r := by
  induction r using ind with
  | node k op children ih =>
    have hkj : k ≠ j := fun heq => hj (mem_ids.mpr (Or.inl heq.symm))
    by_cases hk : k = i
    · rw [graft, if_pos hk, graft, if_pos hk]
    · rw [graft_node_of_ne hk, graft_node_of_ne hkj, graft_node_of_ne hk, List.map_map]
      refine congrArg _ (List.map_congr_left fun c hc => ih c hc fun hjc => ?_)
      exact hj (mem_ids.mpr (Or.inr ⟨c, hc, hjc⟩))

end

/-! ## More children -/

section

variable {j : NodeId} {new t : PlanTree}

/-- A tree with more trees below its topmost node. -/
def extend (t : PlanTree) (us : List PlanTree) : PlanTree := .node t.id t.op (t.children ++ us)

@[simp] theorem id_extend (t : PlanTree) (us : List PlanTree) : (t.extend us).id = t.id := rfl

@[simp] theorem op_extend (t : PlanTree) (us : List PlanTree) : (t.extend us).op = t.op := rfl

@[simp] theorem children_extend (t : PlanTree) (us : List PlanTree) :
    (t.extend us).children = t.children ++ us := rfl

@[simp] theorem extend_nil (t : PlanTree) : t.extend [] = t := by
  obtain ⟨i, op, children⟩ := t
  exact congrArg (node i op) (List.append_nil children)

theorem extend_extend (t : PlanTree) (us vs : List PlanTree) :
    (t.extend us).extend vs = t.extend (us ++ vs) := by
  rw [extend, id_extend, op_extend, children_extend, List.append_assoc, extend]

theorem ids_extend (t : PlanTree) (us : List PlanTree) :
    (t.extend us).ids = t.ids ++ us.flatMap ids := by
  obtain ⟨i, op, children⟩ := t
  rw [extend, ids_node, ids_node, List.cons_append, ← List.flatMap_append]
  rfl

theorem ids_extend_leaf (t : PlanTree) (j : NodeId) (op : Operator) :
    (t.extend [leaf j op]).ids = t.ids ++ [j] := by
  rw [ids_extend, List.flatMap_singleton, ids_leaf]

/-- A new leaf below a node is replaced. -/
theorem graft_extend_leaf {op : Operator} (hj : j ∉ t.ids) :
    graft j new (t.extend [leaf j op]) = t.extend [new] := by
  have hid : t.id ≠ j := fun heq => hj (heq ▸ id_mem_ids t)
  have hchildren : t.children.map (graft j new) = t.children :=
    (List.map_congr_left fun c hc => graft_eq_self fun hjc =>
      hj (ids_subset_of_mem (mem_nodes_of_mem_children hc) hjc)).trans (List.map_id _)
  rw [extend, graft_node_of_ne hid, List.map_append, hchildren, List.map_singleton, leaf, graft,
    if_pos rfl, extend]

end

end PlanTree

namespace Plan

/-- Whether the numbers of the nodes are distinct and have been given out. -/
structure Numbered (p : Plan) : Prop where
  /-- No number stands for two nodes. -/
  nodup : p.root.ids.Nodup
  /-- The next number has not been used. -/
  lt_next : ∀ i ∈ p.root.ids, i < p.next

variable {p : Plan} {s t : PlanTree}

/-- A node is found by its number. -/
theorem Numbered.find?_id (hp : p.Numbered) (ht : t ∈ p.nodes) : p.find? t.id = some t := by
  cases hf : p.find? t.id with
  | none =>
    have hne := List.find?_eq_none.mp hf t ht
    exact absurd (decide_eq_true rfl) hne
  | some s =>
    have hid : s.id = t.id := by simpa using List.find?_some hf
    rw [PlanTree.eq_of_id_eq hp.nodup (List.mem_of_find?_eq_some hf) ht hid]

/-- Replacing a node by a tree with fewer numbers keeps the numbering. -/
theorem Numbered.graft (hp : p.Numbered) (ht : t ∈ p.nodes) {new : PlanTree}
    (h : new.ids.Sublist t.ids) : (p.graft t.id new).Numbered := by
  have hsub : (p.graft t.id new).root.ids.Sublist p.root.ids :=
    PlanTree.ids_graft_sublist fun s hs hid => by
      rwa [PlanTree.eq_of_id_eq hp.nodup hs ht hid]
  exact ⟨hp.nodup.sublist hsub, fun i hi => hp.lt_next i (hsub.subset hi)⟩

/-- Replacing a node by a tree whose other numbers are new keeps the numbering. -/
theorem Numbered.graft_of_new {p : Plan} {t new : PlanTree} {next : NodeId} (hp : p.Numbered)
    (ht : t ∈ p.nodes) (hnew : new.ids.Nodup) (hnext : p.next ≤ next)
    (hids : ∀ i ∈ new.ids, i ∈ t.ids ∨ p.next ≤ i ∧ i < next) :
    (⟨PlanTree.graft t.id new p.root, next⟩ : Plan).Numbered := by
  obtain ⟨l, l', hl, hgraft⟩ := PlanTree.exists_ids_graft hp.nodup ht
  have hold := hp.nodup
  have hlt := hp.lt_next
  rw [hl] at hold hlt
  simp only [List.mem_append] at hlt
  simp only [List.nodup_append, List.mem_append] at hold
  constructor
  · show (PlanTree.graft t.id new p.root).ids.Nodup
    rw [hgraft]
    simp only [List.nodup_append, List.mem_append]
    refine ⟨⟨hold.1.1, hnew, ?_⟩, hold.2.1, ?_⟩
    · rintro i hi _ hj rfl
      rcases hids i hj with hj | ⟨hj, -⟩
      · exact hold.1.2.2 i hi i hj rfl
      · exact absurd (hlt i (Or.inl (Or.inl hi))) (Nat.not_lt.mpr hj)
    · rintro i (hi | hi) _ hj rfl
      · exact hold.2.2 i (Or.inl hi) i hj rfl
      · rcases hids i hi with hi | ⟨hi, -⟩
        · exact hold.2.2 i (Or.inr hi) i hj rfl
        · exact absurd (hlt i (Or.inr hj)) (Nat.not_lt.mpr hi)
  · intro i hi
    rcases (PlanTree.mem_ids_graft hp.nodup ht).mp hi with hi | ⟨hi, -⟩
    · rcases hids i hi with hi | ⟨-, hi⟩
      · exact Nat.lt_of_lt_of_le (hlt i (Or.inl (Or.inr hi))) hnext
      · exact hi
    · exact Nat.lt_of_lt_of_le (hp.lt_next i hi) hnext

/-- A plan with more trees below a node, which have the next numbers. -/
def extend (p : Plan) (t : PlanTree) (us : List PlanTree) : Plan :=
  ⟨PlanTree.graft t.id (t.extend us) p.root, p.next + PlanTree.sizes us⟩

theorem extend_nil (hp : p.Numbered) (ht : t ∈ p.nodes) : p.extend t [] = p := by
  rw [extend, PlanTree.extend_nil, PlanTree.graft_self hp.nodup ht]
  rfl

theorem mem_nodes_extend (ht : t ∈ p.nodes) (us : List PlanTree) :
    t.extend us ∈ (p.extend t us).nodes :=
  PlanTree.mem_nodes_graft (PlanTree.ids_subset_of_mem ht (PlanTree.id_mem_ids t))

theorem extend_extend (p : Plan) (t : PlanTree) (us vs : List PlanTree) :
    (p.extend t us).extend (t.extend us) vs = p.extend t (us ++ vs) := by
  rw [extend, extend, PlanTree.id_extend, PlanTree.graft_graft_self (PlanTree.id_extend t us),
    PlanTree.extend_extend, Nat.add_assoc, ← PlanTree.sizes_append, extend]

/-- Trees below a new leaf. -/
theorem extend_leaf (hp : p.Numbered) (ht : t ∈ p.nodes) (op : Operator) (us : List PlanTree) :
    (p.extend t [.leaf p.next op]).extend (.leaf p.next op) us =
      p.extend t [.node p.next op us] := by
  have hnext : p.next ∉ p.root.ids := fun h => Nat.lt_irrefl _ (hp.lt_next _ h)
  have hleaf : (PlanTree.leaf p.next op).extend us = .node p.next op us := rfl
  have hsizes : PlanTree.sizes [.leaf p.next op] + PlanTree.sizes us =
      PlanTree.sizes [.node p.next op us] := by
    simp [PlanTree.sizes, PlanTree.size, PlanTree.leaf]
  have hid : (PlanTree.leaf p.next op).id = p.next := rfl
  rw [extend, extend, extend, hleaf, hid, PlanTree.graft_graft hnext, Nat.add_assoc, hsizes,
    PlanTree.graft_extend_leaf fun h => hnext (PlanTree.ids_subset_of_mem ht h)]

theorem Numbered.extend_leaf (hp : p.Numbered) (ht : t ∈ p.nodes) (op : Operator) :
    (p.extend t [.leaf p.next op]).Numbered := by
  have hsub := fun i => PlanTree.ids_subset_of_mem (i := i) ht
  have hids := PlanTree.ids_extend_leaf t p.next op
  refine hp.graft_of_new ht ?_ (Nat.le_add_right _ _) fun i hi => ?_
  · rw [hids, List.nodup_append]
    refine ⟨PlanTree.nodup_ids_of_mem hp.nodup ht, List.nodup_singleton _, fun i hi j hj => ?_⟩
    exact List.mem_singleton.mp hj ▸ Nat.ne_of_lt (hp.lt_next i (hsub i hi))
  · rw [hids, List.mem_append, List.mem_singleton] at hi
    rcases hi with hi | rfl
    · exact Or.inl hi
    · exact Or.inr ⟨Nat.le_refl _, Nat.lt_succ_self _⟩

end Plan

end OntoQuery
