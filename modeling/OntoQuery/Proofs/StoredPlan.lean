import OntoQuery.Plan.Store
import OntoQuery.Proofs.PlanNodes

/-!
# The tree of a plan in an arena

A plan in an arena *keeps* a tree if each node of the tree is found under the key of its number,
with the keys of its children and of its parent (`PlanStore.Keeps`).  It *shows* a plan if it keeps
the tree of the plan below its root and nothing else (`PlanStore.Shows`).  Then all questions about
the one are answered by the other.

* `keeps_iff`: what it means to keep a tree, by recursion.
* `Keeps.congr`: only the nodes of the tree matter.
* `Shows.exists_node`, `Shows.get?_child`: whatever is stored is a node of the plan, and its
  children have it as their parent.
* `Shows.walk_eq`: going through the arena ends, and lists the nodes of the plan in pre-order.
* `shows_ofPlan`, `Shows.eq_ofPlan`: a plan is shown by its nodes, stored under their numbers, and
  in no other way.
-/

namespace OntoQuery

namespace PlanStore

/-! ## Keys -/

theorem key_injective (s : PlanStore) : Function.Injective s.key := fun _ _ h =>
  congrArg Arena.Key.offset h

@[simp] theorem key_inj {s : PlanStore} {i j : NodeId} : s.key i = s.key j ↔ i = j :=
  s.key_injective.eq_iff

theorem key_ne {s : PlanStore} {i j : NodeId} (h : i ≠ j) : s.key i ≠ s.key j := fun heq =>
  h (s.key_injective heq)

@[simp] theorem offset_key (s : PlanStore) (i : NodeId) : (s.key i).offset = i := rfl

/-- The key of the topmost node of a tree. -/
abbrev keyOf (s : PlanStore) (t : PlanTree) : Arena.Key := s.key t.id

/-- The keys of the nodes of a tree are those of its numbers. -/
theorem map_key_ids (s : PlanStore) (t : PlanTree) : t.ids.map s.key = t.nodes.map s.keyOf := by
  rw [PlanTree.ids, List.map_map]
  rfl

/-- How a tree is written down in its topmost node, below a given parent. -/
def nodeOf (s : PlanStore) (parent : Option Arena.Key) (t : PlanTree) : PlanNode :=
  ⟨t.op, t.children.map s.keyOf, parent⟩

/-! ## Keeping a tree -/

/-- Whether the nodes of a tree are stored under their numbers, below a given parent. -/
def Keeps (s : PlanStore) (parent : Option Arena.Key) (t : PlanTree) : Prop :=
  ∀ e ∈ t.entries s.arena.tag parent, s.get? (s.key e.1) = some e.2

end PlanStore

namespace PlanTree

theorem entriesList_eq_flatMap (tag : Nat) (parent : Option Arena.Key) (ts : List PlanTree) :
    entriesList tag parent ts = ts.flatMap (entries tag parent) := by
  induction ts with
  | nil => rfl
  | cons t ts ih => rw [entriesList, ih, List.flatMap_cons]

theorem map_fst_entries (tag : Nat) (parent : Option Arena.Key) (t : PlanTree) :
    (t.entries tag parent).map Prod.fst = t.ids := by
  induction t using ind generalizing parent with
  | node i op children ih =>
    rw [entries, entriesList_eq_flatMap, List.map_cons, List.map_flatMap, ids_node]
    congr 1
    exact List.flatMap_congr fun c hc => ih c hc _

theorem mem_ids_of_mem_entries {tag : Nat} {parent : Option Arena.Key} {t : PlanTree}
    {e : NodeId × PlanNode} (he : e ∈ t.entries tag parent) : e.1 ∈ t.ids := by
  rw [← map_fst_entries tag parent]
  exact List.mem_map_of_mem he

/-- A node of a tree is looked up by its number. -/
theorem lookup_entries {tag : Nat} {parent : Option Arena.Key} {t : PlanTree}
    (ht : t.ids.Nodup) {e : NodeId × PlanNode} (he : e ∈ t.entries tag parent) :
    (t.entries tag parent).lookup e.1 = some e.2 := by
  obtain ⟨before, after, heq⟩ := List.append_of_mem he
  refine List.lookup_eq_some_iff.mpr ⟨before, after, heq, fun d hd => ?_⟩
  rw [← map_fst_entries tag parent, heq, List.map_append, List.map_cons] at ht
  have hne := List.nodup_append.mp ht |>.2.2 d.1 (List.mem_map_of_mem hd) e.1
    List.mem_cons_self
  exact bne_iff_ne.mpr hne.symm

end PlanTree

namespace PlanStore

variable {s s' : PlanStore} {parent q : Option Arena.Key} {t c : PlanTree}

theorem keeps_iff :
    s.Keeps parent t ↔ s.get? (s.keyOf t) = some (s.nodeOf parent t) ∧
      ∀ c ∈ t.children, s.Keeps (some (s.keyOf t)) c := by
  obtain ⟨i, op, children⟩ := t
  unfold Keeps
  rw [PlanTree.entries, PlanTree.entriesList_eq_flatMap, List.forall_mem_cons]
  refine and_congr Iff.rfl ?_
  simp only [List.mem_flatMap, forall_exists_index, and_imp]
  exact ⟨fun h c hc e he => h e c hc he, fun h e c hc he => h c hc e he⟩

/-- The topmost node of a tree that is kept. -/
theorem Keeps.get?_eq (h : s.Keeps parent t) : s.get? (s.keyOf t) = some (s.nodeOf parent t) :=
  (keeps_iff.mp h).1

theorem Keeps.child (h : s.Keeps parent t) (hc : c ∈ t.children) : s.Keeps (some (s.keyOf t)) c :=
  (keeps_iff.mp h).2 c hc

theorem Keeps.children_eq (h : s.Keeps parent t) :
    s.children (s.keyOf t) = t.children.map s.keyOf := by
  rw [children, h.get?_eq]
  rfl

theorem Keeps.parent_eq (h : s.Keeps parent t) : s.parent? (s.keyOf t) = parent := by
  rw [parent?, h.get?_eq]
  rfl

/-- Every node of a tree that is kept is kept itself. -/
theorem Keeps.exists_of_mem {u : PlanTree} (h : s.Keeps parent t) (hu : u ∈ t.nodes) :
    ∃ q, s.Keeps q u := by
  induction t using PlanTree.ind generalizing parent with
  | node i op children ih =>
    rcases PlanTree.mem_nodes_node.mp hu with rfl | ⟨c, hc, hu⟩
    · exact ⟨parent, h⟩
    · exact ih c hc (h.child hc) hu

/-- Every number of a tree that is kept stands for a stored node. -/
theorem Keeps.exists_of_mem_ids {i : NodeId} (h : s.Keeps parent t) (hi : i ∈ t.ids) :
    ∃ n, s.get? (s.key i) = some n := by
  obtain ⟨u, hu, rfl⟩ := PlanTree.mem_ids_iff.mp hi
  obtain ⟨q, hq⟩ := h.exists_of_mem hu
  exact ⟨_, hq.get?_eq⟩

/-- A tree is kept as long as its nodes do not change. -/
theorem Keeps.congr (h : s.Keeps parent t) (htag : s'.arena.tag = s.arena.tag)
    (hget : ∀ i ∈ t.ids, s'.get? (s.key i) = s.get? (s.key i)) : s'.Keeps parent t := by
  intro e he
  rw [htag] at he
  have hkey : s'.key e.1 = s.key e.1 := by rw [key, key, htag]
  rw [hkey, hget e.1 (PlanTree.mem_ids_of_mem_entries he)]
  exact h e he

/-- A node and what is below it are kept if only the node has changed. -/
theorem Keeps.of_children (htag : s'.arena.tag = s.arena.tag)
    (hget : s'.get? (s.keyOf t) = some (s.nodeOf q t))
    (hchildren : ∀ c ∈ t.children, s'.Keeps (some (s.keyOf t)) c) : s'.Keeps q t := by
  have hkey : s'.keyOf = s.keyOf := by
    funext u
    rw [keyOf, keyOf, key, key, htag]
  rw [keeps_iff, nodeOf, hkey]
  exact ⟨hget, hchildren⟩

/-- A tree is kept below another parent if only its topmost node has changed, and only this. -/
theorem Keeps.adopt {q' : Option Arena.Key} (h : s.Keeps q t) (ht : t.ids.Nodup)
    (htag : s'.arena.tag = s.arena.tag) (hget : s'.get? (s.keyOf t) = some (s.nodeOf q' t))
    (hsame : ∀ i ∈ t.ids, i ≠ t.id → s'.get? (s.key i) = s.get? (s.key i)) : s'.Keeps q' t := by
  refine Keeps.of_children htag hget fun c hc => (h.child hc).congr htag fun i hi => ?_
  have hct := PlanTree.mem_nodes_of_mem_children hc
  exact hsame i (PlanTree.ids_subset_of_mem hct hi) fun heq =>
    PlanTree.id_notMem_ids_child ht hc (heq ▸ hi)

/-! ## Putting another tree in the place of a node -/

/-- Makes one key stand for another one. -/
def redirect (k l j : Arena.Key) : Arena.Key := if j = k then l else j

theorem redirect_self (k : Arena.Key) : redirect k k = id := by
  funext j
  unfold redirect
  split
  · rename_i h
    exact h.symm
  · rfl

theorem redirect_keyOf (t new u : PlanTree) :
    redirect (s.keyOf t) (s.keyOf new) (s.keyOf u) = s.keyOf (PlanTree.graft t.id new u) := by
  unfold redirect keyOf
  rw [PlanTree.id_graft]
  by_cases hu : u.id = t.id
  · rw [if_pos hu, if_pos (congrArg s.key hu)]
  · rw [if_neg hu, if_neg (fun h => hu (s.key_injective h))]

theorem map_redirect_keyOf (t new : PlanTree) (us : List PlanTree) :
    (us.map s.keyOf).map (redirect (s.keyOf t) (s.keyOf new)) =
      (us.map (PlanTree.graft t.id new)).map s.keyOf := by
  rw [List.map_map, List.map_map]
  exact List.map_congr_left fun u _ => redirect_keyOf t new u

/-- A tree beside a node that is replaced is kept. -/
theorem Keeps.of_disjoint {d new : PlanTree} (h : s.Keeps parent d) (hdt : ∀ i ∈ t.ids, i ∉ d.ids)
    (htag : s'.arena.tag = s.arena.tag)
    (hold : ∀ u ∈ d.nodes, u.id ∉ t.ids → ∀ n, s.get? (s.keyOf u) = some n →
      s'.get? (s.keyOf u) =
        some { n with children := n.children.map (redirect (s.keyOf t) (s.keyOf new)) }) :
    s'.Keeps parent d := by
  refine h.congr htag fun i hi => ?_
  obtain ⟨u, hu, rfl⟩ := PlanTree.mem_ids_iff.mp hi
  obtain ⟨p, hp⟩ := h.exists_of_mem hu
  have hsame : u.children.map (PlanTree.graft t.id new) = u.children :=
    (List.map_congr_left fun v hv => PlanTree.graft_eq_self fun htv =>
      hdt _ (PlanTree.id_mem_ids t) (PlanTree.ids_subset_of_mem
        (PlanTree.child_mem_nodes hu hv) htv)).trans
      (List.map_id _)
  have hnode := hold u hu (fun hut => hdt _ hut hi) _ hp.get?_eq
  rw [nodeOf, map_redirect_keyOf, hsame] at hnode
  exact hnode.trans hp.get?_eq.symm

/-- A tree with a node replaced is kept if the new node is, and the nodes around have changed
in no more than the key of the node. -/
theorem Keeps.graft {r new : PlanTree} (h : s.Keeps parent r) (hr : r.ids.Nodup) (ht : t ∈ r.nodes)
    (hq : s.Keeps q t) (htag : s'.arena.tag = s.arena.tag) (hnew : s'.Keeps q new)
    (hold : ∀ u ∈ r.nodes, u.id ∉ t.ids → ∀ n, s.get? (s.keyOf u) = some n →
      s'.get? (s.keyOf u) =
        some { n with children := n.children.map (redirect (s.keyOf t) (s.keyOf new)) }) :
    s'.Keeps parent (PlanTree.graft t.id new r) := by
  induction r using PlanTree.ind generalizing parent with
  | node j op children ih =>
    by_cases hj : j = t.id
    · -- the node is the topmost one
      obtain rfl : PlanTree.node j op children = t :=
        PlanTree.eq_of_id_eq hr (PlanTree.self_mem_nodes _) ht hj
      obtain rfl : parent = q := by rw [← h.parent_eq, hq.parent_eq]
      rwa [PlanTree.graft, if_pos hj]
    · rcases PlanTree.mem_nodes_node.mp ht with rfl | ⟨c, hc, htc⟩
      · exact absurd rfl hj
      have hcids : ∀ i ∈ t.ids, i ∈ c.ids := fun i hi => PlanTree.ids_subset_of_mem htc hi
      have hj' : (PlanTree.node j op children).id ∉ t.ids := fun hi =>
        PlanTree.id_notMem_ids_child hr hc (hcids _ hi)
      rw [PlanTree.graft_node_of_ne hj]
      refine Keeps.of_children htag ?_ fun d' hd' => ?_
      · have hnode := hold _ (PlanTree.self_mem_nodes _) hj' _ h.get?_eq
        rw [nodeOf, PlanTree.children, map_redirect_keyOf] at hnode
        exact hnode
      · obtain ⟨d, hd, rfl⟩ := List.mem_map.mp hd'
        have hbelow := fun u hu => hold u (PlanTree.mem_nodes_node.mpr (Or.inr ⟨d, hd, hu⟩))
        by_cases htd : t ∈ d.nodes
        · exact ih d hd (h.child hd)
            (PlanTree.nodup_ids_of_mem hr (PlanTree.mem_nodes_of_mem_children hd)) htd hbelow
        · -- another child stays as it is
          have hdc : d.id ≠ c.id := fun hid =>
            htd (PlanTree.eq_of_id_eq_of_children hr hc hd hid ▸ htc)
          have hdt : ∀ i ∈ t.ids, i ∉ d.ids := fun i hi =>
            PlanTree.notMem_ids_of_children hr hc hd hdc (hcids i hi)
          rw [PlanTree.graft_eq_self (hdt _ (PlanTree.id_mem_ids t))]
          exact (h.child hd).of_disjoint hdt htag hbelow

/-! ## Showing a plan -/

/-- Whether a plan in an arena consists of the nodes of a tree under their numbers. -/
structure Shows (s : PlanStore) (p : Plan) : Prop where
  /-- The numbers can be told apart. -/
  numbered : p.Numbered
  /-- The next number is that of the next slot. -/
  length_slots : s.arena.slots.length = p.next
  /-- The root is that of the tree. -/
  root_eq : s.root = s.keyOf p.root
  /-- All nodes of the tree are stored. -/
  keeps : s.Keeps none p.root
  /-- Nothing else is stored. -/
  stored : ∀ k n, s.get? k = some n → ∃ i ∈ p.root.ids, k = s.key i

namespace Shows

variable {p : Plan} {k : Arena.Key} {n : PlanNode}

theorem exists_keeps (h : s.Shows p) (ht : t ∈ p.nodes) : ∃ q, s.Keeps q t :=
  h.keeps.exists_of_mem ht

/-- Whatever is stored is a node of the plan. -/
theorem exists_node (h : s.Shows p) (hk : s.get? k = some n) :
    ∃ t ∈ p.nodes, ∃ q, k = s.keyOf t ∧ n = s.nodeOf q t ∧ s.Keeps q t := by
  obtain ⟨i, hi, rfl⟩ := h.stored k n hk
  obtain ⟨t, ht, rfl⟩ := PlanTree.mem_ids_iff.mp hi
  obtain ⟨q, hq⟩ := h.exists_keeps ht
  obtain rfl : n = s.nodeOf q t := Option.some.inj (hk.symm.trans hq.get?_eq)
  exact ⟨t, ht, q, rfl, rfl, hq⟩

/-- No two nodes have the same key. -/
theorem keyOf_inj {u : PlanTree} (h : s.Shows p) (ht : t ∈ p.nodes) (hu : u ∈ p.nodes)
    (heq : s.keyOf t = s.keyOf u) : t = u :=
  PlanTree.eq_of_id_eq h.numbered.nodup ht hu (s.key_injective heq)

/-- The next key is not in use. -/
theorem lt_next (h : s.Shows p) (ht : t ∈ p.nodes) {i : NodeId} (hi : i ∈ t.ids) : i < p.next :=
  h.numbered.lt_next i (PlanTree.ids_subset_of_mem ht hi)

/-- A child of a node has the node as its parent. -/
theorem get?_child (h : s.Shows p) (ht : t ∈ p.nodes) (hc : c ∈ t.children) :
    s.Keeps (some (s.keyOf t)) c := by
  obtain ⟨q, hq⟩ := h.exists_keeps ht
  exact hq.child hc

theorem nodup_ids (h : s.Shows p) (ht : t ∈ p.nodes) : t.ids.Nodup :=
  PlanTree.nodup_ids_of_mem h.numbered.nodup ht

theorem find?_eq (h : s.Shows p) (ht : t ∈ p.nodes) : p.find? t.id = some t :=
  h.numbered.find?_id ht

/-- Only the root has no parent. -/
theorem eq_root_or_exists_parent (h : s.Shows p) (ht : t ∈ p.nodes) :
    t = p.root ∨ ∃ u ∈ p.nodes, t ∈ u.children ∧ s.Keeps (some (s.keyOf u)) t := by
  rcases PlanTree.eq_or_exists_parent ht with heq | ⟨u, hu, htu⟩
  · exact Or.inl heq
  · exact Or.inr ⟨u, hu, htu, h.get?_child hu htu⟩

/-- A node has one parent. -/
theorem parent_unique {u v : PlanTree} (h : s.Shows p) (hu : u ∈ p.nodes) (hv : v ∈ p.nodes)
    (htu : t ∈ u.children) (htv : t ∈ v.children) : u = v := by
  have hparent : some (s.keyOf u) = some (s.keyOf v) := by
    rw [← (h.get?_child hu htu).parent_eq, (h.get?_child hv htv).parent_eq]
  exact h.keyOf_inj hu hv (Option.some.inj hparent)

/-- A child has another key than its parent. -/
theorem keyOf_child_ne (h : s.Shows p) (ht : t ∈ p.nodes) (hc : c ∈ t.children) :
    s.keyOf c ≠ s.keyOf t :=
  key_ne fun heq =>
    PlanTree.id_notMem_ids_child (h.nodup_ids ht) hc (heq ▸ PlanTree.id_mem_ids c)

/-- So has a child of a child. -/
theorem keyOf_grandchild_ne {d : PlanTree} (h : s.Shows p) (ht : t ∈ p.nodes) (hc : c ∈ t.children)
    (hd : d ∈ c.children) : s.keyOf d ≠ s.keyOf t :=
  key_ne fun heq => PlanTree.id_notMem_ids_child (h.nodup_ids ht) hc
    (heq ▸ PlanTree.ids_subset_of_mem (PlanTree.mem_nodes_of_mem_children hd)
      (PlanTree.id_mem_ids d))

theorem keyOf_notMem_grandchildren (h : s.Shows p) (ht : t ∈ p.nodes) (hc : c ∈ t.children) :
    s.keyOf t ∉ c.children.map s.keyOf := by
  intro hmem
  obtain ⟨d, hd, heq⟩ := List.mem_map.mp hmem
  exact h.keyOf_grandchild_ne ht hc hd heq

/-- The root is not a child of a node. -/
theorem root_notMem_children (h : s.Shows p) (ht : t ∈ p.nodes) : p.root ∉ t.children := by
  intro hroot
  have hparent := (h.get?_child ht hroot).parent_eq
  rw [h.keeps.parent_eq] at hparent
  exact nomatch hparent

/-- A child is not the root. -/
theorem keyOf_ne_root {u : PlanTree} (h : s.Shows p) (hu : u ∈ p.nodes) (htu : t ∈ u.children) :
    s.keyOf t ≠ s.root := by
  rw [h.root_eq]
  intro heq
  have ht := PlanTree.child_mem_nodes hu htu
  exact h.root_notMem_children hu
    (h.keyOf_inj ht (PlanTree.self_mem_nodes p.root) heq ▸ htu)

/-- The parent of a node is found by the number of the node. -/
theorem parent?_eq {u : PlanTree} (h : s.Shows p) (hu : u ∈ p.nodes) (htu : t ∈ u.children) :
    p.parent? t.id = some u := by
  unfold Plan.parent?
  cases hfind : p.nodes.find? fun v => v.children.any fun c => c.id = t.id with
  | none => exact absurd (List.any_eq_true.mpr ⟨t, htu, by simp⟩) (List.find?_eq_none.mp hfind u hu)
  | some v =>
    have hv : v ∈ p.nodes := List.mem_of_find?_eq_some hfind
    have hchild : ∃ c ∈ v.children, c.id = t.id := by simpa using List.find?_some hfind
    obtain ⟨c, hc, hid⟩ := hchild
    obtain rfl : c = t := PlanTree.eq_of_id_eq h.numbered.nodup (PlanTree.child_mem_nodes hv hc)
      (PlanTree.child_mem_nodes hu htu) hid
    rw [h.parent_unique hv hu hc htu]

/-! ## Going through the arena -/

theorem walk_eq (h : s.Shows p) (ts : List PlanTree) (hts : ∀ t ∈ ts, t ∈ p.nodes) :
    s.walk (ts.map s.keyOf) = some ((PlanTree.walk ts).map s.keyOf) := by
  fun_induction PlanTree.walk ts with
  | case1 => exact walk.eq_1 s
  | case2 t ts ih =>
    obtain ⟨ht, hts⟩ := List.forall_mem_cons.mp hts
    obtain ⟨q, hq⟩ := h.exists_keeps ht
    have hchildren : ∀ u ∈ t.children ++ ts, u ∈ p.nodes := by
      intro u hu
      rcases List.mem_append.mp hu with hu | hu
      · exact PlanTree.child_mem_nodes ht hu
      · exact hts u hu
    rw [List.map_cons, walk, hq.children_eq, ← List.map_append, ih hchildren]
    rfl

theorem preOrder_eq (h : s.Shows p) : s.preOrder = some (p.nodes.map s.keyOf) := by
  rw [preOrder, h.root_eq]
  exact h.walk_eq [p.root] (List.forall_mem_singleton.mpr (PlanTree.self_mem_nodes _))

theorem preOrder_eq_map_ids (h : s.Shows p) : s.preOrder = some (p.root.ids.map s.key) := by
  rw [h.preOrder_eq, map_key_ids]
  rfl

/-! ## Replacing a node -/

/-- A plan in an arena shows another tree after the nodes of a subtree have been exchanged for those
of a new one, and the nodes around have changed in no more than the key of its topmost node. -/
theorem graft (h : s.Shows p) (ht : t ∈ p.nodes) (hq : s.Keeps q t) {new : PlanTree} {next : NodeId}
    (hnumbered : (⟨PlanTree.graft t.id new p.root, next⟩ : Plan).Numbered)
    (htag : s'.arena.tag = s.arena.tag) (hlength : s'.arena.slots.length = next)
    (hroot : s'.root = redirect (s.keyOf t) (s.keyOf new) s.root) (hnew : s'.Keeps q new)
    (hold : ∀ u ∈ p.nodes, u.id ∉ t.ids → ∀ n, s.get? (s.keyOf u) = some n →
      s'.get? (s.keyOf u) =
        some { n with children := n.children.map (redirect (s.keyOf t) (s.keyOf new)) })
    (hstored : ∀ k n, s'.get? k = some n → (∃ i ∈ new.ids, k = s.key i) ∨ ∃ m, s.get? k = some m)
    (hgone : ∀ i ∈ t.ids, i ∉ new.ids → s'.get? (s.key i) = none) :
    s'.Shows ⟨PlanTree.graft t.id new p.root, next⟩ := by
  have hkey : s'.key = s.key := by
    funext i
    rw [key, key, htag]
  refine ⟨hnumbered, hlength, ?_, h.keeps.graft h.numbered.nodup ht hq htag hnew hold, ?_⟩
  · rw [hroot, h.root_eq, redirect_keyOf, keyOf, keyOf, hkey]
  · intro k n hk
    have hmem : ∃ i, (i ∈ new.ids ∨ i ∈ p.root.ids ∧ i ∉ t.ids) ∧ k = s.key i := by
      rcases hstored k n hk with ⟨i, hi, rfl⟩ | ⟨m, hm⟩
      · exact ⟨i, Or.inl hi, rfl⟩
      · obtain ⟨i, hi, rfl⟩ := h.stored k m hm
        by_cases hit : i ∈ t.ids
        · by_cases hin : i ∈ new.ids
          · exact ⟨i, Or.inl hin, rfl⟩
          · rw [hgone i hit hin] at hk
            exact absurd hk (by simp)
        · exact ⟨i, Or.inr ⟨hi, hit⟩, rfl⟩
    obtain ⟨i, hi, rfl⟩ := hmem
    exact ⟨i, (PlanTree.mem_ids_graft h.numbered.nodup ht).mpr hi, congrFun hkey.symm i⟩

/-- The same if the topmost node of the subtree stays where it is. -/
theorem graft_node (h : s.Shows p) (ht : t ∈ p.nodes) (hq : s.Keeps q t) {op : Operator}
    {children : List PlanTree} {next : NodeId}
    (hnumbered : (⟨PlanTree.graft t.id (.node t.id op children) p.root, next⟩ : Plan).Numbered)
    (htag : s'.arena.tag = s.arena.tag) (hlength : s'.arena.slots.length = next)
    (hroot : s'.root = s.root) (hget : s'.get? (s.keyOf t) = some ⟨op, children.map s.keyOf, q⟩)
    (hchildren : ∀ c ∈ children, s'.Keeps (some (s.keyOf t)) c)
    (hold : ∀ u ∈ p.nodes, u.id ∉ t.ids → s'.get? (s.keyOf u) = s.get? (s.keyOf u))
    (hstored : ∀ k n, s'.get? k = some n →
      (∃ i ∈ (PlanTree.node t.id op children).ids, k = s.key i) ∨ ∃ m, s.get? k = some m)
    (hgone : ∀ i ∈ t.ids, i ∉ (PlanTree.node t.id op children).ids → s'.get? (s.key i) = none) :
    s'.Shows ⟨PlanTree.graft t.id (.node t.id op children) p.root, next⟩ := by
  have hid : redirect (s.keyOf t) (s.keyOf (.node t.id op children)) = id := redirect_self _
  refine h.graft ht hq hnumbered htag hlength ?_ ?_ (fun u hu hut n hn => ?_) hstored hgone
  · rw [hid, hroot, id]
  · exact Keeps.of_children (t := .node t.id op children) htag hget hchildren
  · rw [hid, List.map_id, hold u hu hut, hn]

end Shows

/-! ## Storing a plan -/

theorem get?_ofPlan (tag : Nat) (p : Plan) (i : NodeId) :
    (ofPlan tag p).get? ⟨tag, i⟩ =
      if i < p.next then (p.root.entries tag none).lookup i else none := by
  rw [get?, ofPlan, Arena.get?_eq, if_pos rfl]
  by_cases hi : i < p.next
  · rw [if_pos hi, List.getElem?_map, List.getElem?_range hi]
    rfl
  · rw [if_neg hi, List.getElem?_eq_none (by simpa using hi)]
    rfl

/-- The nodes of a plan under their numbers show the plan. -/
theorem shows_ofPlan (tag : Nat) {p : Plan} (hp : p.Numbered) : (ofPlan tag p).Shows p := by
  refine ⟨hp, ?_, rfl, fun e he => ?_, fun k n hk => ?_⟩
  · rw [ofPlan, List.length_map, List.length_range]
  · have hlt := hp.lt_next e.1 (PlanTree.mem_ids_of_mem_entries he)
    exact (get?_ofPlan tag p e.1).trans
      ((if_pos hlt).trans (PlanTree.lookup_entries hp.nodup he))
  · obtain ⟨tag', i⟩ := k
    obtain rfl : tag' = tag := (Arena.get?_eq_some_iff.mp hk).1
    rw [get?_ofPlan] at hk
    split at hk
    · obtain ⟨before, after, heq, -⟩ := List.lookup_eq_some_iff.mp hk
      have he : (i, n) ∈ p.root.entries tag' none :=
        heq ▸ List.mem_append_right _ List.mem_cons_self
      exact ⟨i, PlanTree.mem_ids_of_mem_entries he, rfl⟩
    · exact absurd hk (by simp)

theorem shows_single (tag : Nat) (op : Operator) : (single tag op).Shows (.single op) := by
  have hids : (Plan.single op).root.ids = [0] := PlanTree.ids_leaf 0 op
  refine shows_ofPlan (p := .single op) tag ⟨hids ▸ List.nodup_singleton 0, fun i hi => ?_⟩
  rw [hids, List.mem_singleton] at hi
  exact hi ▸ Nat.zero_lt_one

/-- Whatever one plan in an arena stores is stored by another one that shows the same. -/
theorem Shows.get?_eq_some {p : Plan} (h : s.Shows p) (h' : s'.Shows p)
    (htag : s.arena.tag = s'.arena.tag) {k : Arena.Key} {n : PlanNode} (hk : s.get? k = some n) :
    s'.get? k = some n := by
  obtain ⟨i, hi, rfl⟩ := h.stored k n hk
  rw [← PlanTree.map_fst_entries s.arena.tag none] at hi
  obtain ⟨e, he, rfl⟩ := List.mem_map.mp hi
  rw [← hk, h.keeps e he, key, htag]
  exact h'.keeps e (htag ▸ he)

/-- A plan is shown in one way only, up to the tag of the arena. -/
theorem Shows.eq_ofPlan {p : Plan} (h : s.Shows p) : s = ofPlan s.arena.tag p := by
  have h' := shows_ofPlan s.arena.tag h.numbered
  have harena : s.arena = (ofPlan s.arena.tag p).arena := by
    refine Arena.ext_get? rfl (h.length_slots.trans h'.length_slots.symm) fun k => ?_
    refine Option.ext fun n => ⟨h.get?_eq_some h' rfl, h'.get?_eq_some h rfl⟩
  exact congrArg₂ PlanStore.mk harena h.root_eq

end PlanStore

end OntoQuery
