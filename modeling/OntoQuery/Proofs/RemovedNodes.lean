import OntoQuery.Proofs.PlanNormalForm

/-!
# Nodes that are taken out

Three of the four proposals take one node out of a plan and put its children in its place, whether
or not an optimizer would propose it there.  Removing a subtree takes out a node with everything
below it.  Either way the list of the nodes in pre-order loses the segment of the nodes that go, and
nothing else happens to it, wherever in the plan they were.

* `Shows.preOrder_graft`: what is cut out of the list when a node is replaced.
* `TakesOut`: one node goes, and its children are handed over to its parent.
* `Reachable.apply_takesOut`: this is what the three proposals do.
* `CutsOut`: a node goes with its descendants.
* `Reachable.removeSubtree_cutsOut`: this is what the removal of a subtree does, wherever it is
  possible.
-/

namespace OntoQuery

/-- A child that hands its children over takes its own number away. -/
theorem PlanTree.exists_ids_spliced {t c : PlanTree} (ht : t.ids.Nodup) (hct : c ∈ t.children)
    (op : Operator) : ∃ a b, t.ids = a ++ [c.id] ++ b ∧
      (PlanTree.node t.id op (Proposal.spliced t c)).ids = a ++ b := by
  obtain ⟨i, op', children⟩ := t
  obtain ⟨left, right, rfl⟩ := List.append_of_mem hct
  refine ⟨i :: left.flatMap ids, c.children.flatMap ids ++ right.flatMap ids, ?_, ?_⟩
  · obtain ⟨j, op'', grandchildren⟩ := c
    rw [ids_node, List.flatMap_append, List.flatMap_cons, ids_node]
    simp [PlanTree.id, PlanTree.children]
  · rw [spliced_eq ht, ids_node]
    simp [PlanTree.id]

/-- A child that goes takes the numbers below it away. -/
theorem PlanTree.exists_ids_filter {t u : PlanTree} (hu : u.ids.Nodup) (htu : t ∈ u.children) :
    ∃ a b, u.ids = a ++ t.ids ++ b ∧
      (PlanTree.node u.id u.op (u.children.filter fun c => c.id ≠ t.id)).ids = a ++ b := by
  obtain ⟨i, op, children⟩ := u
  obtain ⟨left, right, rfl⟩ := List.append_of_mem htu
  have hkeep : ∀ ds ⊆ left ++ right, ds.filter (fun c => c.id ≠ t.id) = ds := fun ds hds =>
    List.filter_eq_self.mpr fun d hd => decide_eq_true fun heq =>
      notMem_ids_sibling hu (hds hd) (id_mem_ids t) (heq ▸ id_mem_ids d)
  have hfilter : (left ++ t :: right).filter (fun c => c.id ≠ t.id) = left ++ right := by
    rw [List.filter_append, List.filter_cons_of_neg (by simp),
      hkeep left (List.subset_append_left _ _), hkeep right (List.subset_append_right _ _)]
  refine ⟨i :: left.flatMap ids, right.flatMap ids, ?_, ?_⟩
  · rw [ids_node, List.flatMap_append, List.flatMap_cons]
    simp
  · show (PlanTree.node i op ((left ++ t :: right).filter fun c => c.id ≠ t.id)).ids = _
    rw [hfilter, ids_node, List.flatMap_append]
    rfl

namespace PlanStore

variable {s s' : PlanStore} {p : Plan} {t c new : PlanTree} {q : Option Arena.Key}

/-! ## Pre-order -/

/-- If a node is replaced by a tree with the same numbers but for a segment, then this segment is
cut out of the list of all nodes. -/
theorem Shows.preOrder_graft (h : s.Shows p) (hs' : s'.Shows (p.graft t.id new))
    (htag : s'.arena.tag = s.arena.tag) (ht : t ∈ p.nodes) {a segment b : List NodeId}
    (hids : t.ids = a ++ segment ++ b) (hnew : new.ids = a ++ b) :
    ∃ before after, s.preOrder = some (before ++ segment.map s.key ++ after) ∧
      s'.preOrder = some (before ++ after) := by
  obtain ⟨l, l', hl, hgraft⟩ := PlanTree.exists_ids_graft h.numbered.nodup ht
  have hkey : s'.key = s.key := by
    funext i
    rw [key, key, htag]
  refine ⟨(l ++ a).map s.key, (b ++ l').map s.key, ?_, ?_⟩
  · rw [h.preOrder_eq_map_ids, hl, hids]
    simp
  · rw [hs'.preOrder_eq_map_ids, hkey]
    show some ((PlanTree.graft t.id new p.root).ids.map s.key) = _
    rw [hgraft, hnew]
    simp

theorem dataAtom?_eq (s : PlanStore) (k : Arena.Key) :
    s.dataAtom? k = ((s.get? k).map PlanNode.op).bind Operator.atom? := by
  rw [dataAtom?]
  cases s.get? k with
  | none => rfl
  | some n =>
    obtain ⟨op, children, parent⟩ := n
    cases op <;> rfl

/-! ## One node -/

/-- Whether a plan is left when a single node has been taken out of another one.  It was stored as
`n` under the key `k`; `change` says what becomes of the operators of the other nodes. -/
structure TakesOut (s s' : PlanStore) (k : Arena.Key) (n : PlanNode)
    (change : Arena.Key → Operator → Operator) : Prop where
  /-- The node was there. -/
  stored : s.get? k = some n
  /-- It is gone. -/
  gone : s'.get? k = none
  /-- All other nodes stay, and there are no more.  In their lists the children of the node have
  taken its place; and the children of the node, and no others, have another parent, which is the
  former parent of the node. -/
  get?_eq : ∀ l, l ≠ k → s'.get? l = (s.get? l).map fun m =>
    ⟨change l m.op, splice k n.children m.children, if l ∈ n.children then n.parent else m.parent⟩
  /-- If the node was the root, its only child is. -/
  root_eq : [s'.root] = splice k n.children [s.root]
  /-- In pre-order just the node is missing. -/
  preOrder_eq : ∃ before after, s.preOrder = some (before ++ k :: after) ∧
    s'.preOrder = some (before ++ after)
  /-- The data atoms are the same. -/
  leafAtoms_eq : ∃ atoms, s.leafAtoms = some atoms ∧ s'.leafAtoms = some atoms

/-- The data atoms are the same if neither the node nor those whose operators change have any. -/
theorem Shows.takesOut (h : s.Shows p) {k : Arena.Key} {n : PlanNode}
    {change : Arena.Key → Operator → Operator} (hstored : s.get? k = some n)
    (hgone : s'.get? k = none)
    (hget : ∀ l, l ≠ k → s'.get? l = (s.get? l).map fun m =>
      ⟨change l m.op, splice k n.children m.children,
        if l ∈ n.children then n.parent else m.parent⟩)
    (hroot : [s'.root] = splice k n.children [s.root])
    (hpre : ∃ before after, s.preOrder = some (before ++ k :: after) ∧
      s'.preOrder = some (before ++ after))
    (hn : n.op.atom? = none)
    (hchange : ∀ l m, s.get? l = some m → (change l m.op).atom? = m.op.atom?) :
    s.TakesOut s' k n change := by
  have hk : s.dataAtom? k = none := by rw [dataAtom?_eq, hstored]; exact hn
  have hdata : s'.dataAtom? = s.dataAtom? := by
    funext l
    by_cases hl : l = k
    · rw [hl, hk, dataAtom?_eq, hgone]
      rfl
    · rw [dataAtom?_eq, dataAtom?_eq, hget l hl]
      cases hm : s.get? l with
      | none => rfl
      | some m => exact hchange l m hm
  obtain ⟨before, after, hbefore, hafter⟩ := hpre
  refine ⟨hstored, hgone, hget, hroot, ⟨before, after, hbefore, hafter⟩, p.leafAtoms,
    h.leafAtoms_eq, ?_⟩
  rw [← h.leafAtoms_eq, leafAtoms_of_preOrder hafter, leafAtoms_of_preOrder hbefore, hdata,
    List.filterMap_append, List.filterMap_append, List.filterMap_cons_none hk]

/-- A node that is replaced by its only child is taken out. -/
theorem Shows.takesOut_replaceByChild (h : s.Shows p) (hroomy : p.root.Roomy) (ht : t ∈ p.nodes)
    (hq : s.Keeps q t) (hchildren : t.children = [c]) (hs' : s.ReplacedByChild q t c s') :
    s.TakesOut s' (s.keyOf t) (s.nodeOf q t) fun _ op => op := by
  have hct : c ∈ t.children := hchildren ▸ List.mem_singleton_self c
  have hkeys : (s.nodeOf q t).children = [s.keyOf c] := by
    rw [nodeOf, hchildren, List.map_singleton]
  refine h.takesOut hq.get?_eq hs'.gone (fun l hl => ?_) ?_ ?_ ?_ fun l m _ => rfl
  · by_cases hlc : l = s.keyOf c
    · rw [hlc, hs'.child, (h.get?_child ht hct).get?_eq, Option.map_some, hkeys,
        if_pos (List.mem_singleton_self _)]
      show _ = some (PlanNode.mk c.op (splice (s.keyOf t) [s.keyOf c] (c.children.map s.keyOf)) q)
      rw [splice_of_notMem (h.keyOf_notMem_grandchildren ht hct)]
      rfl
    · rw [hs'.get?_eq l hl hlc, hkeys]
      refine congrArg (Option.map · (s.get? l)) (funext fun m => ?_)
      rw [splice_singleton, if_neg (by simpa using hlc)]
  · rw [hs'.root_eq, hkeys, splice_singleton]
    rfl
  · have hids : t.ids = [] ++ [t.id] ++ c.ids := by
      obtain ⟨i, op, children⟩ := t
      obtain rfl : children = [c] := hchildren
      rw [PlanTree.ids_node, List.flatMap_singleton]
      rfl
    obtain ⟨before, after, hbefore, hafter⟩ :=
      h.preOrder_graft (h.replaceByChild ht hq hchildren hs') hs'.tag_eq ht hids rfl
    exact ⟨before, after, by simpa using hbefore, hafter⟩
  · -- a data node has no room for a child
    have hroom := hroomy t ht
    rw [hchildren] at hroom
    show t.op.atom? = none
    cases hop : t.op with
    | data a =>
      rw [hop] at hroom
      exact absurd hroom Bool.false_ne_true
    | _ => rfl

/-- So is a child that hands its children over. -/
theorem Shows.takesOut_dissolve (h : s.Shows p) (ht : t ∈ p.nodes) (hq : s.Keeps q t)
    (hct : c ∈ t.children) {op : Operator} (hs' : s.Dissolved q t c op s')
    (hc : c.op.atom? = none) (hop : op.atom? = t.op.atom?) :
    s.TakesOut s' (s.keyOf c) (s.nodeOf (some (s.keyOf t)) c) fun l old =>
      if l = s.keyOf t then op else old := by
  have hcp : c ∈ p.nodes := PlanTree.child_mem_nodes ht hct
  refine h.takesOut (h.get?_child ht hct).get?_eq hs'.gone (fun l hl => ?_) ?_ ?_ hc
    fun l m hm => ?_
  · show s'.get? l = (s.get? l).map fun m => ⟨if l = s.keyOf t then op else m.op,
      splice (s.keyOf c) (c.children.map s.keyOf) m.children,
      if l ∈ c.children.map s.keyOf then some (s.keyOf t) else m.parent⟩
    by_cases hlt : l = s.keyOf t
    · -- the node that takes the children over
      rw [hlt, hs'.parent, hq.get?_eq, Option.map_some, if_pos rfl,
        if_neg (h.keyOf_notMem_grandchildren ht hct), ← splice_keyOf]
      rfl
    · by_cases hlc : l ∈ c.children.map s.keyOf
      · -- one of the children that are taken over
        obtain ⟨d, hd, rfl⟩ := List.mem_map.mp hlc
        rw [hs'.adopted d hd, (h.get?_child hcp hd).get?_eq, Option.map_some, if_neg hlt,
          if_pos hlc, nodeOf, nodeOf, splice_of_notMem (h.keyOf_notMem_grandchildren hcp hd)]
      · rw [hs'.get?_eq l hlt hl hlc]
        cases hm : s.get? l with
        | none => rfl
        | some m =>
          have hnotMem : s.keyOf c ∉ m.children := fun hmem => by
            obtain ⟨v, hv, rfl, hcv⟩ := h.mem_children hcp hm hmem
            exact hlt (congrArg s.keyOf (h.parent_unique hv ht hcv hct))
          rw [Option.map_some, if_neg hlt, if_neg hlc, splice_of_notMem hnotMem]
  · rw [hs'.root_eq, splice_of_notMem]
    simpa using h.keyOf_ne_root ht hct
  · obtain ⟨a, b, hids, hnew⟩ := PlanTree.exists_ids_spliced (h.nodup_ids ht) hct op
    obtain ⟨before, after, hbefore, hafter⟩ :=
      h.preOrder_graft (h.dissolve ht hq hct hs') hs'.tag_eq ht hids hnew
    exact ⟨before, after, by simpa using hbefore, hafter⟩
  · split
    · rename_i hlt
      obtain rfl : s.nodeOf q t = m := Option.some.inj ((hlt ▸ hq.get?_eq).symm.trans hm)
      exact hop
    · rfl

/-! ## Proposals that take out a node -/

/-- A node of a join or union can be flattened only into one of the same kind, and the two share
their conditions. -/
theorem conditions_of_flatten {outer inner op : Operator}
    (h : Proposal.flatten outer inner = .ok op) :
    op.kind = outer.kind ∧ (∀ a, a ∈ op.conditions ↔ a ∈ outer.conditions ∨ a ∈ inner.conditions) ∧
      inner.atom? = none ∧ op.atom? = outer.atom? := by
  rcases Proposal.flatten_eq_ok h with ⟨as, bs, rfl, rfl, rfl⟩ | ⟨n, rfl, rfl, rfl⟩
  · exact ⟨rfl, fun a => List.mem_append, rfl, rfl⟩
  · exact ⟨rfl, fun a => by simp [Operator.conditions], rfl, rfl⟩

/-- **Each of three proposals takes out one node.**  If a plan can be reached and a proposal can be
applied to it, then a node replaced by its child is taken out, and so is a child that is flattened
or merged into its parent.  No operator changes but that of this parent, which stays of its kind and
has the conditions of both nodes. -/
theorem Reachable.apply_takesOut (h : s.Reachable) (s' : PlanStore) :
    (∀ target, (StoreEdit.apply (.replaceByChild target)).run s = .ok () s' →
      ∃ n, s.TakesOut s' target n fun _ op => op) ∧
    ∀ parent child, (StoreEdit.apply (.flattenChild parent child)).run s = .ok () s' ∨
        (StoreEdit.apply (.mergeFilters parent child)).run s = .ok () s' →
      ∃ n m op, s.get? parent = some n ∧ m.parent = some parent ∧ op.kind = n.op.kind ∧
        (∀ a, a ∈ op.conditions ↔ a ∈ n.op.conditions ∨ a ∈ m.op.conditions) ∧
        s.TakesOut s' child m fun l old => if l = parent then op else old := by
  obtain ⟨p, hp, hroomy⟩ := h.wellFormed
  refine ⟨fun target hrun => ?_, fun parent child hrun => ?_⟩
  · cases (StoreEdit.apply_atomic hp _).of_ok hrun with
    | replaceByChild ht hq hc hs' => exact ⟨_, hp.takesOut_replaceByChild hroomy ht hq hc hs'⟩
  · rcases hrun with hrun | hrun
    · cases (StoreEdit.apply_atomic hp _).of_ok hrun with
      | @flattenChild t c q op _ ht hq hct hop _ hs' =>
        obtain ⟨hkind, hconditions, hinner, hatom⟩ := conditions_of_flatten hop
        exact ⟨s.nodeOf q t, s.nodeOf _ c, op, hq.get?_eq, rfl, hkind, hconditions,
          hp.takesOut_dissolve ht hq hct hs' hinner hatom⟩
    · cases (StoreEdit.apply_atomic hp _).of_ok hrun with
      | @mergeFilters t c q outer inner _ ht hq hct hout hin hs' =>
        have hconditions : ∀ a, a ∈ Operator.mergeConditions outer inner ↔
            a ∈ t.op.conditions ∨ a ∈ c.op.conditions := fun a => by
          rw [hout, hin]
          exact Operator.mem_mergeConditions
        exact ⟨s.nodeOf q t, s.nodeOf _ c, .filter (Operator.mergeConditions outer inner),
          hq.get?_eq, rfl, (congrArg Operator.kind hout).symm, hconditions,
          hp.takesOut_dissolve ht hq hct hs' (by rw [hin]; rfl) (by rw [hout]; rfl)⟩

/-- A projection behind a join comes to stand in its place, and so does a data node behind two. -/
theorem apply_takesOut_joins :
    (∃ s' n, (StoreEdit.apply (.replaceByChild ⟨0, 2⟩)).run
        (hiddenProjection (.plain "h" [.var ⟨"x"⟩])) = .ok () s' ∧
      (hiddenProjection (.plain "h" [.var ⟨"x"⟩])).TakesOut s' ⟨0, 2⟩ n fun _ op => op) ∧
    ∃ s' m op, (StoreEdit.apply (.flattenChild ⟨0, 0⟩ ⟨0, 1⟩)).run nestedJoins = .ok () s' ∧
      nestedJoins.TakesOut s' ⟨0, 1⟩ m fun l old => if l = ⟨0, 0⟩ then op else old := by
  constructor
  · obtain ⟨s', hrun⟩ : ∃ s', (StoreEdit.apply (.replaceByChild ⟨0, 2⟩)).run
        (hiddenProjection (.plain "h" [.var ⟨"x"⟩])) = .ok () s' := ⟨_, rfl⟩
    obtain ⟨n, hn⟩ := ((reachable_hiddenProjection _).apply_takesOut s').1 _ hrun
    exact ⟨s', n, hrun, hn⟩
  · obtain ⟨s', hrun⟩ : ∃ s', (StoreEdit.apply (.flattenChild ⟨0, 0⟩ ⟨0, 1⟩)).run nestedJoins =
        .ok () s' := ⟨_, rfl⟩
    obtain ⟨-, m, op, -, -, -, -, hm⟩ :=
      (reachable_nestedJoins.apply_takesOut s').2 _ _ (Or.inl hrun)
    exact ⟨s', m, op, hrun, hm⟩

/-! ## A subtree -/

/-- What can be reached from a node is what is below it. -/
theorem Shows.reached_iff (h : s.Shows p) (ht : t ∈ p.nodes) {l : Arena.Key} :
    Relation.ReflTransGen (fun l c => c ∈ s.children l) (s.keyOf t) l ↔
      l ∈ t.ids.map s.key := by
  rw [map_key_ids, List.mem_map]
  constructor
  · intro hreached
    induction hreached with
    | refl => exact ⟨t, PlanTree.self_mem_nodes t, rfl⟩
    | tail _ hedge ih =>
      obtain ⟨v, hv, rfl⟩ := ih
      obtain ⟨q, hq⟩ := h.exists_keeps (PlanTree.mem_nodes_trans ht hv)
      rw [hq.children_eq] at hedge
      obtain ⟨d, hd, rfl⟩ := List.mem_map.mp hedge
      exact ⟨d, PlanTree.child_mem_nodes hv hd, rfl⟩
  · rintro ⟨v, hv, rfl⟩
    exact h.reached ht hv

/-- Whether a plan is left when a node has been taken out of another one with all that is below it.
In pre-order these nodes are the `segment` between those that come `before` and `after`. -/
structure CutsOut (s s' : PlanStore) (k : Arena.Key) (before segment after : List Arena.Key) :
    Prop where
  /-- The segment is what is listed from the node on. -/
  walk_eq : s.walk [k] = some segment
  /-- It consists of the node and its descendants. -/
  mem_segment : ∀ l, l ∈ segment ↔ Relation.ReflTransGen (fun l c => c ∈ s.children l) k l
  /-- In pre-order the segment is cut out. -/
  preOrder_eq : s.preOrder = some (before ++ segment ++ after) ∧
    s'.preOrder = some (before ++ after)
  /-- So are its data atoms. -/
  leafAtoms_eq : s.leafAtoms = some (before.filterMap s.dataAtom? ++
      segment.filterMap s.dataAtom? ++ after.filterMap s.dataAtom?) ∧
    s'.leafAtoms = some (before.filterMap s.dataAtom? ++ after.filterMap s.dataAtom?)
  /-- The root stays. -/
  root_eq : s'.root = s.root
  /-- The keys of the nodes that go are not given out again. -/
  nextKey_eq : s'.arena.nextKey = s.arena.nextKey
  /-- The nodes of the segment are gone. -/
  gone : ∀ l ∈ segment, s'.get? l = none
  /-- All others stay as they are, but for the list of the parent. -/
  get?_eq : ∀ l ∉ segment, s'.get? l = (s.get? l).map fun m =>
    { m with children := if s.parent? k = some l then m.children.erase k else m.children }

/-- What is stored after a child of a node has been cut off. -/
theorem Shows.get?_cutChild (h : s.Shows p) {u : PlanTree} (hu : u ∈ p.nodes)
    (htu : t ∈ u.children) {l : Arena.Key} (hl : l ∉ t.ids.map s.key) :
    (StoreEdit.cutChild s (s.keyOf u) (s.keyOf t)).get? l = (s.get? l).map fun m =>
      { m with children :=
          if s.parent? (s.keyOf t) = some l then m.children.erase (s.keyOf t)
          else m.children } := by
  obtain ⟨q, hq⟩ := h.exists_keeps hu
  have hnodup := h.nodup_ids hu
  have hbelow : ¬ ∃ i ∈ t.ids, l = s.key i := fun ⟨i, hi, heq⟩ =>
    hl (heq ▸ List.mem_map_of_mem hi)
  rw [StoreEdit.get?_cutChild hq hnodup htu, if_neg hbelow, (h.get?_child hu htu).parent_eq]
  by_cases hlu : l = s.keyOf u
  · subst hlu
    have herase : (u.children.map s.keyOf).erase (s.keyOf t) =
        (u.children.filter fun c => c.id ≠ t.id).map s.keyOf := by
      rw [(nodup_map_keyOf hnodup).erase_eq_filter, List.filter_map]
      refine congrArg (List.map s.keyOf) (List.filter_congr fun d _ => ?_)
      rw [Bool.eq_iff_iff]
      simp
    rw [if_pos rfl, hq.get?_eq, Option.map_some, if_pos rfl, nodeOf, herase]
  · have hne : some (s.keyOf u) ≠ some l := fun heq => hlu (Option.some.inj heq).symm
    rw [if_neg hlu]
    simp only [if_neg hne, Option.map_id']

theorem Shows.cutsOut (h : s.Shows p) {u : PlanTree} (hu : u ∈ p.nodes) (htu : t ∈ u.children) :
    ∃ before after, s.CutsOut (StoreEdit.cutChild s (s.keyOf u) (s.keyOf t)) (s.keyOf t)
      before (t.ids.map s.key) after := by
  have ht : t ∈ p.nodes := PlanTree.child_mem_nodes hu htu
  obtain ⟨q, hq⟩ := h.exists_keeps hu
  obtain ⟨a, b, hids, hnew⟩ := PlanTree.exists_ids_filter (h.nodup_ids hu) htu
  obtain ⟨before, after, hs, hs'⟩ :=
    h.preOrder_graft (StoreEdit.shows_cutChild h hu htu) (StoreEdit.tag_cutChild ..) hu hids hnew
  have hnodup : (before ++ t.ids.map s.key ++ after).Nodup := by
    rw [h.preOrder_eq_map_ids] at hs
    exact Option.some.inj hs ▸ h.numbered.nodup.map s.key_injective
  have hdata : ∀ l ∈ before ++ after,
      (StoreEdit.cutChild s (s.keyOf u) (s.keyOf t)).dataAtom? l = s.dataAtom? l := by
    intro l hl
    have hnotMem : l ∉ t.ids.map s.key := fun hmem => by
      have hpre := List.nodup_append.mp hnodup
      rcases List.mem_append.mp hl with hl | hl
      · exact (List.nodup_append.mp hpre.1).2.2 l hl l hmem rfl
      · exact hpre.2.2 l (List.mem_append_right _ hmem) l hl rfl
    rw [dataAtom?_eq, dataAtom?_eq, h.get?_cutChild hu htu hnotMem, Option.map_map]
    rfl
  refine ⟨before, after, ?_, fun l => (h.reached_iff ht).symm, ⟨hs, hs'⟩, ⟨?_, ?_⟩, rfl, ?_,
    fun l hl => ?_, fun l hl => h.get?_cutChild hu htu hl⟩
  · have hwalk := h.walk_eq [t] (List.forall_mem_singleton.mpr ht)
    rw [List.map_singleton] at hwalk
    rw [hwalk, map_key_ids]
    rfl
  · rw [leafAtoms_of_preOrder hs, List.filterMap_append, List.filterMap_append]
  · rw [leafAtoms_of_preOrder hs', List.filterMap_congr hdata, List.filterMap_append]
  · exact congrArg₂ Arena.Key.mk (StoreEdit.tag_cutChild ..) (StoreEdit.length_slots_cutChild ..)
  · obtain ⟨i, hi, rfl⟩ := List.mem_map.mp hl
    rw [StoreEdit.get?_cutChild hq (h.nodup_ids hu) htu, if_pos ⟨i, hi, rfl⟩]

/-- **A subtree is taken out, and nothing else.**  In a plan that can be reached every stored node
but the root can be removed.  Then the node and its descendants are gone, and their segment is cut
out of the list of all nodes, and of that of the data atoms. -/
theorem Reachable.removeSubtree_cutsOut (h : s.Reachable) (k : Arena.Key) :
    ((∃ s', (StoreEdit.removeSubtree k).run s = .ok () s') ↔
      k ≠ s.root ∧ ∃ n, s.get? k = some n) ∧
    ∀ s', (StoreEdit.removeSubtree k).run s = .ok () s' →
      ∃ before segment after, s.CutsOut s' k before segment after := by
  obtain ⟨p, hp, -⟩ := h.wellFormed
  refine ⟨⟨?_, ?_⟩, fun s' hrun => ?_⟩
  · rintro ⟨s', hrun⟩
    obtain ⟨u, hu, t, htu, rfl, -⟩ := (StoreEdit.removeSubtree_atomic hp k).of_ok hrun
    exact ⟨hp.keyOf_ne_root hu htu, _, (hp.get?_child hu htu).get?_eq⟩
  · rintro ⟨hroot, n, hn⟩
    obtain ⟨t, ht, q, rfl, -, -⟩ := hp.exists_node hn
    rcases hp.eq_root_or_exists_parent ht with rfl | ⟨u, hu, htu, -⟩
    · exact absurd hp.root_eq.symm hroot
    · exact ⟨_, StoreEdit.run_removeSubtree hp hu htu⟩
  · obtain ⟨u, hu, t, htu, rfl, rfl⟩ := (StoreEdit.removeSubtree_atomic hp k).of_ok hrun
    obtain ⟨before, after, hcuts⟩ := hp.cutsOut hu htu
    exact ⟨before, _, after, hcuts⟩

/-- With a join goes the data node two levels below. -/
theorem removeSubtree_cutsOut_hiddenProjection :
    let s := hiddenProjection (.plain "h" [.var ⟨"x"⟩])
    ∃ s' before segment after, (StoreEdit.removeSubtree ⟨0, 2⟩).run s = .ok () s' ∧
      s.CutsOut s' ⟨0, 2⟩ before segment after ∧ s'.get? ⟨0, 4⟩ = none := by
  intro s
  obtain ⟨hsuccess, hcuts⟩ :=
    (reachable_hiddenProjection (.plain "h" [.var ⟨"x"⟩])).removeSubtree_cutsOut ⟨0, 2⟩
  obtain ⟨s', hrun⟩ := hsuccess.mpr ⟨by decide, _, rfl⟩
  obtain ⟨before, segment, after, hs'⟩ := hcuts s' hrun
  have hprojection : (⟨0, 3⟩ : Arena.Key) ∈ s.children ⟨0, 2⟩ := by decide
  have hdata : (⟨0, 4⟩ : Arena.Key) ∈ s.children ⟨0, 3⟩ := by decide
  have hreached : Relation.ReflTransGen (fun l c => c ∈ s.children l) ⟨0, 2⟩ ⟨0, 4⟩ :=
    (Relation.ReflTransGen.single hprojection).tail hdata
  exact ⟨s', before, segment, after, hrun, hs', hs'.gone _ ((hs'.mem_segment _).mpr hreached)⟩

end PlanStore

end OntoQuery
