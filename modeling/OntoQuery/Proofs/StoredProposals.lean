import OntoQuery.Proofs.StoredEdits

/-!
# Proposals in arenas and proposals for plans

A proposal for a plan in an arena is applied in several updates: a node is replaced in the list of
its parent by its own children, these get another parent, the parent may get another operator, and
the node is removed.

* `splice`: what becomes of a list of children.
* `run_replaceInParent`, `run_replaceRoot`: none of the updates fails, if the tree is kept.
* `ReplacedByChild`, `Dissolved`: what is stored afterwards, and what is shown
  (`Shows.replaceByChild`, `Shows.dissolve`).
* `Applied`: all that a proposal can have done (`apply_atomic`).
* `apply_follows`: so it does what it does to the plan that is shown.
* `exists_run_apply`: it succeeds in the arena if it does so on the plan that is shown.
* `apply_failsAs`: it fails there with the same error, since both look for the same nodes and check
  the same in the same order; so its result is the same (`Shows.run_apply_eq`).
-/

namespace OntoQuery

namespace PlanStore

/-! ## Children that are handed over -/

/-- Puts keys in the place of a key. -/
def splice (k : Arena.Key) (new ks : List Arena.Key) : List Arena.Key :=
  ks.flatMap fun j => if j = k then new else [j]

theorem splice_of_notMem {k : Arena.Key} {new ks : List Arena.Key} (h : k ∉ ks) :
    splice k new ks = ks := by
  have hself : ∀ j ∈ ks, (if j = k then new else [j]) = [j] := fun j hj =>
    if_neg fun heq : j = k => h (heq ▸ hj)
  rw [splice, List.flatMap_congr hself, List.flatMap_singleton']

/-- What is put in the place of the first occurrence of a key takes the place of all of them if
there are no others. -/
theorem take_append_drop_eq_splice {k : Arena.Key} {new ks : List Arena.Key} {i : Nat}
    (hi : ks.idxOf? k = some i) (hks : ks.Nodup) :
    ks.take i ++ new ++ ks.drop (i + 1) = splice k new ks := by
  obtain ⟨hlt, hget, -⟩ := List.idxOf?_eq_some_iff.mp hi
  have hsplit : ks = ks.take i ++ k :: ks.drop (i + 1) := by
    rw [← hget, ← List.drop_eq_getElem_cons hlt, List.take_append_drop]
  have hnodup := hks
  rw [hsplit, List.nodup_append, List.nodup_cons] at hnodup
  have htake : k ∉ ks.take i := fun hk => hnodup.2.2 k hk k (List.mem_cons_self ..) rfl
  have happend : splice k new ks =
      splice k new (ks.take i) ++ (new ++ splice k new (ks.drop (i + 1))) := by
    conv_lhs => rw [hsplit]
    rw [splice, List.flatMap_append, List.flatMap_cons, if_pos rfl]
    rfl
  rw [happend, splice_of_notMem htake, splice_of_notMem hnodup.2.1.1, List.append_assoc]

theorem splice_singleton (k l : Arena.Key) (ks : List Arena.Key) :
    splice k [l] ks = ks.map (redirect k l) := by
  induction ks with
  | nil => rfl
  | cons j ks ih =>
    rw [splice, List.flatMap_cons, ← splice, ih, List.map_cons, redirect]
    split <;> rfl

variable {s : PlanStore}

theorem splice_keyOf (t c : PlanTree) :
    splice (s.keyOf c) (c.children.map s.keyOf) (t.children.map s.keyOf) =
      (Proposal.spliced t c).map s.keyOf := by
  rw [splice, Proposal.spliced, List.flatMap_map, List.map_flatMap]
  refine List.flatMap_congr fun d _ => ?_
  by_cases hd : d.id = c.id
  · rw [if_pos (congrArg s.key hd), if_pos hd]
  · rw [if_neg (key_ne hd), if_neg hd, List.map_singleton]

/-- The keys of children are distinct. -/
theorem nodup_map_keyOf {t : PlanTree} (ht : t.ids.Nodup) : (t.children.map s.keyOf).Nodup := by
  obtain ⟨i, op, children⟩ := t
  rw [PlanTree.ids_node, List.nodup_cons] at ht
  have hsub : (children.map PlanTree.id).Sublist (children.flatMap PlanTree.ids) := by
    rw [List.map_eq_flatMap]
    exact List.Sublist.flatMap_right children fun c _ =>
      List.singleton_sublist.mpr (PlanTree.id_mem_ids c)
  have hids : (children.map PlanTree.id).Nodup := ht.2.sublist hsub
  show (children.map (s.key ∘ PlanTree.id)).Nodup
  rw [← List.map_map]
  exact hids.map s.key_injective

end PlanStore

namespace StoreEdit

open PlanStore

variable {s : PlanStore}

/-! ## Replacing a node by others -/

/-- Putting nodes in the place of a child. -/
theorem run_replaceInParent {k p : Arena.Key} {n : PlanNode} {new : List Arena.Key}
    (hp : s.get? p = some n) (hk : k ∈ n.children) (hnodup : n.children.Nodup)
    (hnew : ∀ c ∈ new, ∃ m, s.get? c = some m) :
    (replaceInParent k (some p) new).run s =
      .ok ()
        ((s.mapNodes (updateAt p fun n => { n with children := splice k new n.children })).mapNodes
          (reparent (some p) new)) := by
  obtain ⟨i, hi⟩ := Option.isSome_iff_exists.mp (List.isSome_idxOf?.mpr hk)
  have hsplice : s.mapNodes (updateAt p fun n =>
      { n with children := n.children.take i ++ new ++ n.children.drop (i + 1) }) =
      s.mapNodes (updateAt p fun n => { n with children := splice k new n.children }) := by
    refine mapNodes_congr fun l m hm => ?_
    unfold updateAt
    by_cases hl : l = p
    · obtain rfl : n = m := Option.some.inj (hp.symm.trans (hl ▸ hm))
      rw [if_pos hl, if_pos hl]
      exact congrArg (fun children => { n with children := children })
        (take_append_drop_eq_splice hi hnodup)
    · rw [if_neg hl, if_neg hl]
  have hnew' : ∀ c ∈ new, ∃ m, (s.mapNodes (updateAt p fun n =>
      { n with children := splice k new n.children })).get? c = some m := by
    intro c hc
    obtain ⟨m, hm⟩ := hnew c hc
    exact ⟨_, by rw [get?_mapNodes, hm, Option.map_some]⟩
  unfold replaceInParent
  dsimp only
  rw [run_bind_of_ok (run_find hp)]
  simp only [hi]
  rw [run_bind_of_ok (run_update hp _), hsplice]
  exact run_reparent _ hnew'

/-- Putting a node in the place of the root. -/
theorem run_replaceRoot (k : Arena.Key) {c : Arena.Key} {m : PlanNode} (hc : s.get? c = some m) :
    (replaceInParent k none [c]).run s =
      .ok () (({ s with root := c } : PlanStore).mapNodes (reparent none [c])) := by
  have hnew : ∀ d ∈ [c], ∃ m, ({ s with root := c } : PlanStore).get? d = some m := fun d hd =>
    ⟨m, List.mem_singleton.mp hd ▸ hc⟩
  unfold replaceInParent
  exact run_reparent none hnew

end StoreEdit

namespace PlanStore

variable {s s' : PlanStore} {p : Plan} {t c : PlanTree} {q : Option Arena.Key}

/-! ## A child in the place of its parent -/

/-- A key that is redirected is met only where its node is a child. -/
theorem Shows.map_redirect_eq (h : s.Shows p) (ht : t ∈ p.nodes) {u : PlanTree} (hu : u ∈ p.nodes)
    (htu : t ∉ u.children) (l : Arena.Key) :
    (u.children.map s.keyOf).map (redirect (s.keyOf t) l) = u.children.map s.keyOf := by
  have hself : ∀ j ∈ u.children.map s.keyOf, redirect (s.keyOf t) l j = j := by
    intro j hj
    obtain ⟨d, hd, rfl⟩ := List.mem_map.mp hj
    have hd' : d ∈ p.nodes := PlanTree.child_mem_nodes hu hd
    exact if_neg fun heq => htu (h.keyOf_inj hd' ht heq ▸ hd)
  rw [List.map_congr_left hself, List.map_id']

/-- Elsewhere nothing is redirected. -/
theorem Shows.map_redirect_get? (h : s.Shows p) (ht : t ∈ p.nodes) {k l : Arena.Key}
    (hl : ∀ v ∈ p.nodes, l = s.keyOf v → t ∉ v.children) :
    ((s.get? l).map fun n => { n with children := n.children.map (redirect (s.keyOf t) k) }) =
      s.get? l := by
  cases hn : s.get? l with
  | none => rfl
  | some n =>
    obtain ⟨v, hv, r, rfl, rfl, -⟩ := h.exists_node hn
    rw [Option.map_some, nodeOf, h.map_redirect_eq ht hv (hl v hv rfl)]

/-- What is stored after a node has been replaced by its only child: the child has got the parent
of the node, and in all lists of children the key of the child stands for that of the node. -/
structure ReplacedByChild (s : PlanStore) (q : Option Arena.Key) (t c : PlanTree)
    (s' : PlanStore) : Prop where
  /-- It is the same arena. -/
  tag_eq : s'.arena.tag = s.arena.tag
  /-- No slot comes or goes. -/
  length_slots_eq : s'.arena.slots.length = s.arena.slots.length
  /-- If the node was the root, the child is. -/
  root_eq : s'.root = redirect (s.keyOf t) (s.keyOf c) s.root
  /-- The node is gone. -/
  gone : s'.get? (s.keyOf t) = none
  /-- The child has got the parent of the node. -/
  child : s'.get? (s.keyOf c) = some (s.nodeOf q c)
  /-- In all other nodes there is no more to change than the list of children. -/
  get?_eq : ∀ l, l ≠ s.keyOf t → l ≠ s.keyOf c → s'.get? l =
    (s.get? l).map fun n =>
      { n with children := n.children.map (redirect (s.keyOf t) (s.keyOf c)) }

/-- A plan in an arena after a node has been replaced by its only child. -/
theorem Shows.replaceByChild (h : s.Shows p) (ht : t ∈ p.nodes) (hq : s.Keeps q t)
    (hchildren : t.children = [c]) (hs' : s.ReplacedByChild q t c s') :
    s'.Shows (p.graft t.id c) := by
  obtain ⟨htag, hlength, hroot, hgone, hchild, hget⟩ := hs'
  have hct : c ∈ t.children := hchildren ▸ List.mem_singleton_self c
  have hc : c ∈ p.nodes := PlanTree.child_mem_nodes ht hct
  have hnodup := h.nodup_ids ht
  have htc : t.id ∉ c.ids := PlanTree.id_notMem_ids_child hnodup hct
  have hids : ∀ i, i ∈ t.ids ↔ i = t.id ∨ i ∈ c.ids := fun i => by
    rw [PlanTree.mem_ids, hchildren]
    simp
  have hsub : c.ids.Sublist t.ids :=
    PlanTree.ids_sublist_of_mem (PlanTree.mem_nodes_of_mem_children hct)
  have hbelow : ∀ i ∈ c.ids, i ≠ c.id → s'.get? (s.key i) = s.get? (s.key i) := by
    intro i hi hic
    obtain ⟨v, hv, rfl⟩ := PlanTree.mem_ids_iff.mp hi
    have hvp : v ∈ p.nodes := PlanTree.mem_nodes_trans hc hv
    obtain ⟨r, hr⟩ := h.exists_keeps hvp
    have htv : t ∉ v.children := fun htv => htc (PlanTree.ids_subset_of_mem
      (PlanTree.child_mem_nodes hv htv) (PlanTree.id_mem_ids t))
    rw [hget _ (key_ne fun heq => htc (heq ▸ hi)) (key_ne hic), hr.get?_eq, Option.map_some, nodeOf,
      h.map_redirect_eq ht hvp htv]
  refine h.graft ht hq (h.numbered.graft ht hsub) htag (hlength.trans h.length_slots) hroot
    ((h.get?_child ht hct).adopt (h.nodup_ids hc) htag hchild hbelow) (fun u hu hut n hn => ?_)
    (fun l n hl => ?_) fun i hi hnot => ?_
  · have hne : ∀ i ∈ t.ids, s.keyOf u ≠ s.key i := fun i hi => key_ne fun heq => hut (heq ▸ hi)
    rw [hget _ (hne _ ((hids _).mpr (Or.inl rfl)))
      (hne _ ((hids _).mpr (Or.inr (PlanTree.id_mem_ids c)))), hn, Option.map_some]
  · by_cases hlt : l = s.keyOf t
    · rw [hlt, hgone] at hl
      exact absurd hl (by simp)
    · by_cases hlc : l = s.keyOf c
      · exact Or.inl ⟨c.id, PlanTree.id_mem_ids c, hlc⟩
      · rw [hget l hlt hlc] at hl
        obtain ⟨m, hm, -⟩ := Option.map_eq_some_iff.mp hl
        exact Or.inr ⟨m, hm⟩
  · rcases (hids i).mp hi with rfl | hi
    · exact hgone
    · exact absurd hi hnot

end PlanStore

namespace StoreEdit

open PlanStore

variable {s : PlanStore} {p : Plan} {t c : PlanTree} {q : Option Arena.Key}

/-- The only child of the root becomes the root. -/
theorem exists_run_replaceRootByChild (h : s.Shows p) (hchildren : p.root.children = [c]) :
    ∃ s', (do replaceInParent (s.keyOf p.root) none [s.keyOf c]; remove (s.keyOf p.root) :
      StoreEdit Unit).run s = .ok () s' ∧ s.ReplacedByChild none p.root c s' := by
  have hroot := PlanTree.self_mem_nodes p.root
  have hct : c ∈ p.root.children := hchildren ▸ List.mem_singleton_self c
  have hc := h.get?_child hroot hct
  let s₁ : PlanStore := { s with root := s.keyOf c }
  refine ⟨(s₁.mapNodes (reparent none [s.keyOf c])).erase (s.keyOf p.root), ?_,
    tag_erase _ _, ?_, ?_, ?_, ?_, fun l hlt hlc => ?_⟩
  · rw [run_bind_of_ok (run_replaceRoot _ hc.get?_eq)]
    rfl
  · rw [length_slots_erase, length_slots_mapNodes]
  · rw [h.root_eq, redirect, if_pos rfl]
    rfl
  · rw [get?_erase, if_pos rfl]
  · rw [get?_erase, if_neg (h.keyOf_child_ne hroot hct),
      get?_reparent_of_mem (s := s₁) (List.mem_singleton_self _) hc.get?_eq]
    rfl
  · rw [get?_erase, if_neg hlt, get?_reparent_of_notMem (by simpa using hlc),
      h.map_redirect_get? hroot fun v hv _ => h.root_notMem_children hv]
    rfl

/-- The only child of another node takes its place in the list of the parent. -/
theorem exists_run_replaceInnerByChild {u : PlanTree} (h : s.Shows p) (hu : u ∈ p.nodes)
    (htu : t ∈ u.children) (hchildren : t.children = [c]) :
    ∃ s', (do replaceInParent (s.keyOf t) (some (s.keyOf u)) [s.keyOf c]; remove (s.keyOf t) :
      StoreEdit Unit).run s = .ok () s' ∧ s.ReplacedByChild (some (s.keyOf u)) t c s' := by
  have ht : t ∈ p.nodes := PlanTree.child_mem_nodes hu htu
  have hct : c ∈ t.children := hchildren ▸ List.mem_singleton_self c
  have hq := h.get?_child hu htu
  have hc := h.get?_child ht hct
  obtain ⟨r, hr⟩ := h.exists_keeps hu
  have hcu : s.keyOf c ≠ s.keyOf u := h.keyOf_grandchild_ne hu htu hct
  let s₁ := s.mapNodes (updateAt (s.keyOf u) fun n =>
    { n with children := splice (s.keyOf t) [s.keyOf c] n.children })
  have hc₁ : s₁.get? (s.keyOf c) = some (s.nodeOf (some (s.keyOf t)) c) := by
    rw [get?_updateAt_of_ne hcu, hc.get?_eq]
  refine ⟨(s₁.mapNodes (reparent (some (s.keyOf u)) [s.keyOf c])).erase (s.keyOf t), ?_,
    tag_erase _ _, ?_, ?_, ?_, ?_, fun l hlt hlc => ?_⟩
  · rw [run_bind_of_ok (run_replaceInParent hr.get?_eq (List.mem_map_of_mem htu)
      (nodup_map_keyOf (h.nodup_ids hu)) fun d hd => ⟨_, List.mem_singleton.mp hd ▸ hc.get?_eq⟩)]
    rfl
  · rw [length_slots_erase, length_slots_mapNodes, length_slots_mapNodes]
  · rw [redirect, if_neg (h.keyOf_ne_root hu htu).symm]
    rfl
  · rw [get?_erase, if_pos rfl]
  · rw [get?_erase, if_neg (h.keyOf_child_ne ht hct),
      get?_reparent_of_mem (List.mem_singleton_self _) hc₁]
    rfl
  · rw [get?_erase, if_neg hlt, get?_reparent_of_notMem (by simpa using hlc)]
    by_cases hlu : l = s.keyOf u
    · rw [hlu, get?_updateAt_self hr.get?_eq, hr.get?_eq, Option.map_some, splice_singleton]
    · rw [get?_updateAt_of_ne hlu, h.map_redirect_get? ht]
      rintro v hv rfl htv
      exact hlu (congrArg s.keyOf (h.parent_unique hv hu htv htu))

/-- Replacing a node by its only child does not fail. -/
theorem exists_run_replaceByChild (h : s.Shows p) (ht : t ∈ p.nodes) (hq : s.Keeps q t)
    (hchildren : t.children = [c]) :
    ∃ s', (do replaceInParent (s.keyOf t) q [s.keyOf c]; remove (s.keyOf t) : StoreEdit Unit).run
      s = .ok () s' ∧ s.ReplacedByChild q t c s' := by
  rcases h.eq_root_or_exists_parent ht with rfl | ⟨u, hu, htu, hqu⟩
  · obtain rfl : q = none := by rw [← hq.parent_eq, h.keeps.parent_eq]
    exact exists_run_replaceRootByChild h hchildren
  · obtain rfl : q = some (s.keyOf u) := by rw [← hq.parent_eq, hqu.parent_eq]
    exact exists_run_replaceInnerByChild h hu htu hchildren

end StoreEdit

namespace PlanStore

variable {s s' : PlanStore} {p : Plan} {t c : PlanTree} {q : Option Arena.Key}

/-! ## The children of a child -/

/-- What is stored after a child of a node has handed its own children over to the node. -/
structure Dissolved (s : PlanStore) (q : Option Arena.Key) (t c : PlanTree) (op : Operator)
    (s' : PlanStore) : Prop where
  /-- It is the same arena. -/
  tag_eq : s'.arena.tag = s.arena.tag
  /-- No slot comes or goes. -/
  length_slots_eq : s'.arena.slots.length = s.arena.slots.length
  /-- The root stays. -/
  root_eq : s'.root = s.root
  /-- The node has got the operator that is given and the children of the child. -/
  parent : s'.get? (s.keyOf t) = some ⟨op, (Proposal.spliced t c).map s.keyOf, q⟩
  /-- The child is gone. -/
  gone : s'.get? (s.keyOf c) = none
  /-- The children of the child have got the node as their parent. -/
  adopted : ∀ d ∈ c.children, s'.get? (s.keyOf d) = some (s.nodeOf (some (s.keyOf t)) d)
  /-- All other nodes are the same. -/
  get?_eq : ∀ l, l ≠ s.keyOf t → l ≠ s.keyOf c → l ∉ c.children.map s.keyOf → s'.get? l = s.get? l

/-- A plan in an arena after a child of a node has handed its own children over to the node. -/
theorem Shows.dissolve (h : s.Shows p) (ht : t ∈ p.nodes) (hq : s.Keeps q t) (hct : c ∈ t.children)
    {op : Operator} (hs' : s.Dissolved q t c op s') :
    s'.Shows (p.graft t.id (.node t.id op (Proposal.spliced t c))) := by
  obtain ⟨htag, hlength, hroot, hparent, hgone, hadopted, hsame⟩ := hs'
  have hnodup := h.nodup_ids ht
  have hct' : c ∈ t.nodes := PlanTree.mem_nodes_of_mem_children hct
  have hcp : c ∈ p.nodes := PlanTree.mem_nodes_trans ht hct'
  have hdist : ∀ d ∈ t.children, d.id = c.id → d = c := fun d hd hid =>
    PlanTree.eq_of_id_eq_of_children hnodup hct hd hid
  have hbelow : ∀ d ∈ c.children, ∀ i ∈ d.ids, i ∈ c.ids := fun d hd i hi =>
    PlanTree.ids_subset_of_mem (PlanTree.mem_nodes_of_mem_children hd) hi
  have hother : ∀ i, i ≠ t.id → i ≠ c.id → (∀ d ∈ c.children, i ≠ d.id) →
      s'.get? (s.key i) = s.get? (s.key i) := by
    intro i hit hic hid
    refine hsame _ (key_ne hit) (key_ne hic) fun hmem => ?_
    obtain ⟨d, hd, heq⟩ := List.mem_map.mp hmem
    exact hid d hd (s.key_injective heq.symm)
  refine h.graft_node ht hq (h.numbered.graft ht (Proposal.ids_spliced_sublist hdist)) htag
    (hlength.trans h.length_slots) hroot hparent (fun d hd => ?_) (fun u hu hut => ?_)
    (fun l n hl => ?_) fun i hi hnot => ?_
  · rcases (Proposal.mem_spliced hct).mp hd with ⟨hd, hdc⟩ | hd
    · -- another child of the node
      have hdc' : ∀ i ∈ d.ids, i ∉ c.ids := fun i hi =>
        PlanTree.notMem_ids_of_children hnodup hd hct (Ne.symm hdc) hi
      refine (hq.child hd).congr htag fun i hi => hother i (fun heq => ?_) (fun heq => ?_) ?_
      · exact PlanTree.id_notMem_ids_child hnodup hd (heq ▸ hi)
      · exact hdc' i hi (heq ▸ PlanTree.id_mem_ids c)
      · rintro e he rfl
        exact hdc' _ hi (hbelow e he _ (PlanTree.id_mem_ids e))
    · -- a child of the child
      have hnodup' := h.nodup_ids hcp
      have hdp : d ∈ p.nodes := PlanTree.child_mem_nodes hcp hd
      refine ((h.get?_child hcp hd).adopt (h.nodup_ids hdp) htag (hadopted d hd)
        fun i hi hid => hother i (fun heq => ?_) (fun heq => ?_) ?_)
      · exact PlanTree.id_notMem_ids_child hnodup hct (heq ▸ hbelow d hd i hi)
      · exact PlanTree.id_notMem_ids_child hnodup' hd (heq ▸ hi)
      · rintro e he rfl
        refine PlanTree.notMem_ids_of_children hnodup' he hd (Ne.symm hid) ?_ hi
        exact PlanTree.id_mem_ids e
  · refine hother u.id (fun heq => hut (heq ▸ PlanTree.id_mem_ids t))
      (fun heq => hut (heq ▸ PlanTree.ids_subset_of_mem hct' (PlanTree.id_mem_ids c))) ?_
    intro d hd heq
    exact hut (heq ▸ PlanTree.ids_subset_of_mem hct' (hbelow d hd _ (PlanTree.id_mem_ids d)))
  · by_cases hlt : l = s.keyOf t
    · exact Or.inr ⟨_, hlt ▸ hq.get?_eq⟩
    · by_cases hlc : l = s.keyOf c
      · exact Or.inr ⟨_, hlc ▸ (hq.child hct).get?_eq⟩
      · by_cases hld : l ∈ c.children.map s.keyOf
        · obtain ⟨d, hd, rfl⟩ := List.mem_map.mp hld
          exact Or.inr ⟨_, (h.get?_child hcp hd).get?_eq⟩
        · exact Or.inr ⟨n, hsame l hlt hlc hld ▸ hl⟩
  · obtain rfl := (Proposal.mem_ids_spliced hct hdist hi).resolve_right hnot
    exact hgone

end PlanStore

namespace StoreEdit

open PlanStore

variable {s : PlanStore} {p : Plan} {t c : PlanTree} {q : Option Arena.Key}

/-- Handing children over does not fail. -/
theorem exists_run_dissolve (h : s.Shows p) (ht : t ∈ p.nodes) (hq : s.Keeps q t)
    (hct : c ∈ t.children) (op : Operator) :
    ∃ s', (dissolve (s.keyOf t) (s.keyOf c) (c.children.map s.keyOf) op).run s = .ok () s' ∧
      s.Dissolved q t c op s' := by
  have hcp : c ∈ p.nodes := PlanTree.child_mem_nodes ht hct
  have hnodup := h.nodup_ids ht
  have hct' : s.keyOf c ≠ s.keyOf t := h.keyOf_child_ne ht hct
  have hgrand : ∀ d ∈ c.children, s.keyOf d ≠ s.keyOf t ∧ s.keyOf d ≠ s.keyOf c := fun d hd =>
    ⟨h.keyOf_grandchild_ne ht hct hd, h.keyOf_child_ne hcp hd⟩
  have htnew : s.keyOf t ∉ c.children.map s.keyOf := h.keyOf_notMem_grandchildren ht hct
  have hstored : ∀ k ∈ c.children.map s.keyOf, ∃ m, s.get? k = some m := by
    rintro k hk
    obtain ⟨d, hd, rfl⟩ := List.mem_map.mp hk
    exact ⟨_, (h.get?_child hcp hd).get?_eq⟩
  -- the list of the parent, the parents of the new children, the operator of the parent
  let s₁ := s.mapNodes (updateAt (s.keyOf t) fun n =>
    { n with children := splice (s.keyOf c) (c.children.map s.keyOf) n.children })
  let s₂ := s₁.mapNodes (reparent (some (s.keyOf t)) (c.children.map s.keyOf))
  let s₃ := s₂.mapNodes (updateAt (s.keyOf t) fun n => { n with op := op })
  have ht₂ : s₂.get? (s.keyOf t) = some ⟨t.op, (Proposal.spliced t c).map s.keyOf, q⟩ := by
    rw [get?_reparent_of_notMem htnew, get?_updateAt_self hq.get?_eq, nodeOf, splice_keyOf]
  have hrun : (dissolve (s.keyOf t) (s.keyOf c) (c.children.map s.keyOf) op).run s =
      .ok () (s₃.erase (s.keyOf c)) := by
    rw [dissolve, run_bind_of_ok (run_replaceInParent hq.get?_eq (List.mem_map_of_mem hct)
      (nodup_map_keyOf hnodup) hstored), run_bind_of_ok (run_update ht₂ _)]
    rfl
  refine ⟨s₃.erase (s.keyOf c), hrun, tag_erase _ _, ?_, rfl, ?_, ?_, fun d hd => ?_,
    fun l hlt hlc hld => ?_⟩
  · rw [length_slots_erase, length_slots_mapNodes, length_slots_mapNodes, length_slots_mapNodes]
  · rw [get?_erase, if_neg hct'.symm, get?_updateAt_self ht₂]
  · rw [get?_erase, if_pos rfl]
  · obtain ⟨hdt, hdc⟩ := hgrand d hd
    have hd₁ : s₁.get? (s.keyOf d) = some (s.nodeOf (some (s.keyOf c)) d) := by
      rw [get?_updateAt_of_ne hdt, (h.get?_child hcp hd).get?_eq]
    rw [get?_erase, if_neg hdc, get?_updateAt_of_ne hdt,
      get?_reparent_of_mem (List.mem_map_of_mem hd) hd₁]
    rfl
  · rw [get?_erase, if_neg hlc, get?_updateAt_of_ne hlt, get?_reparent_of_notMem hld,
      get?_updateAt_of_ne hlt]

/-! ## Applying a proposal -/

/-- Checking that a node is a child of another one does not change anything. -/
theorem atomic_checkIsChild_bind {α : Type} {parent child : Arena.Key} {f : Unit → StoreEdit α}
    {P : α → PlanStore → Prop}
    (h : ∀ n, s.get? parent = some n → child ∈ n.children → (f ()).Atomic s P) :
    (checkIsChild parent child >>= f).Atomic s P := by
  rw [checkIsChild, bind_assoc]
  refine atomic_find_bind fun n hn => ?_
  by_cases hchild : child ∈ n.children
  · rw [if_pos hchild]
    exact h n hn hchild
  · rw [if_neg hchild]
    exact atomic_throw _

/-- What a proposal has done to a plan, if it has been applied. -/
inductive Applied (s : PlanStore) (p : Plan) : Proposal Arena.Key → PlanStore → Prop where
  /-- A node has got another operator, which accepts its children. -/
  | replaceOperator {t : PlanTree} {q : Option Arena.Key} {op : Operator} (ht : t ∈ p.nodes)
      (hq : s.Keeps q t) (hop : op.kind.accepts t.children.length = true) :
      Applied s p (.replaceOperator (s.keyOf t) op)
        (s.mapNodes (updateAt (s.keyOf t) fun n => { n with op := op }))
  /-- A node with one child has been replaced by it. -/
  | replaceByChild {t c : PlanTree} {q : Option Arena.Key} {s' : PlanStore} (ht : t ∈ p.nodes)
      (hq : s.Keeps q t) (hc : t.children = [c]) (hs' : s.ReplacedByChild q t c s') :
      Applied s p (.replaceByChild (s.keyOf t)) s'
  /-- A node has taken over the children of a child of its kind, which had some. -/
  | flattenChild {t c : PlanTree} {q : Option Arena.Key} {op : Operator} {s' : PlanStore}
      (ht : t ∈ p.nodes) (hq : s.Keeps q t) (hct : c ∈ t.children)
      (hop : Proposal.flatten t.op c.op = .ok op) (hne : c.children ≠ [])
      (hs' : s.Dissolved q t c op s') : Applied s p (.flattenChild (s.keyOf t) (s.keyOf c)) s'
  /-- A filter has taken over the children and the conditions of a filter below it. -/
  | mergeFilters {t c : PlanTree} {q : Option Arena.Key} {outer inner : List Atom} {s' : PlanStore}
      (ht : t ∈ p.nodes) (hq : s.Keeps q t) (hct : c ∈ t.children) (hout : t.op = .filter outer)
      (hin : c.op = .filter inner)
      (hs' : s.Dissolved q t c (.filter (Operator.mergeConditions outer inner)) s') :
      Applied s p (.mergeFilters (s.keyOf t) (s.keyOf c)) s'

/-- Applying a proposal stays in the arena. -/
theorem Applied.tag_eq {proposal : Proposal Arena.Key} {s' : PlanStore}
    (h : Applied s p proposal s') : s'.arena.tag = s.arena.tag := by
  cases h with
  | replaceOperator => rfl
  | replaceByChild ht hq hc hs' => exact hs'.tag_eq
  | flattenChild ht hq hct hop hne hs' => exact hs'.tag_eq
  | mergeFilters ht hq hct hout hin hs' => exact hs'.tag_eq

/-- A proposal is applied as a whole or not at all. -/
theorem apply_atomic (h : s.Shows p) (proposal : Proposal Arena.Key) :
    (apply proposal).Atomic s fun _ s' => Applied s p proposal s' := by
  have hroom : ∀ {k : OperatorKind} {n : Nat}, k.checkChildren n = .ok () →
      k.checkRoom n = .ok () := fun hok => OperatorKind.checkRoom_eq_ok.mpr
    (OperatorKind.hasRoom_of_accepts (OperatorKind.checkChildren_eq_ok.mp hok))
  cases proposal with
  | replaceOperator target op =>
    refine atomic_find_bind fun n hn => atomic_check_bind fun _ hok => ?_
    obtain ⟨t, ht, q, rfl, rfl, hq⟩ := h.exists_node hn
    refine atomic_of_run (a := ()) ?_ (.replaceOperator ht hq ?_)
    · rw [run_bind_of_ok (run_replaceOperator hn (hroom hok))]
      rfl
    · rw [← OperatorKind.checkChildren_eq_ok, ← List.length_map (f := s.keyOf)]
      exact hok
  | replaceByChild target =>
    refine atomic_find_bind fun n hn => ?_
    obtain ⟨t, ht, q, rfl, rfl, hq⟩ := h.exists_node hn
    split
    · rename_i k hk
      obtain ⟨c, hc, rfl⟩ := List.map_eq_singleton_iff.mp hk
      obtain ⟨s', hrun, hs'⟩ := exists_run_replaceByChild h ht hq hc
      exact atomic_of_run hrun (.replaceByChild ht hq hc hs')
    · exact atomic_throw _
  | flattenChild parent child =>
    refine atomic_checkIsChild_bind fun n hn hchild => atomic_find_bind fun n' hn' =>
      atomic_find_bind fun m hm => atomic_check_bind fun op hop => ?_
    obtain rfl : n = n' := Option.some.inj (hn.symm.trans hn')
    obtain ⟨t, ht, q, rfl, rfl, hq⟩ := h.exists_node hn
    obtain ⟨c, hct, rfl⟩ := List.mem_map.mp hchild
    obtain rfl := Option.some.inj (hm.symm.trans (h.get?_child ht hct).get?_eq)
    split
    · exact atomic_throw _
    · rename_i hne
      obtain ⟨s', hrun, hs'⟩ := exists_run_dissolve h ht hq hct op
      exact atomic_of_run hrun (.flattenChild ht hq hct hop (by simpa [nodeOf] using hne) hs')
  | mergeFilters parent child =>
    refine atomic_checkIsChild_bind fun n hn hchild => atomic_find_bind fun n' hn' =>
      atomic_find_bind fun m hm => ?_
    obtain rfl : n = n' := Option.some.inj (hn.symm.trans hn')
    obtain ⟨t, ht, q, rfl, rfl, hq⟩ := h.exists_node hn
    obtain ⟨c, hct, rfl⟩ := List.mem_map.mp hchild
    obtain rfl := Option.some.inj (hm.symm.trans (h.get?_child ht hct).get?_eq)
    split
    · rename_i outer inner hout hin
      obtain ⟨s', hrun, hs'⟩ := exists_run_dissolve h ht hq hct
        (.filter (Operator.mergeConditions outer inner))
      exact atomic_of_run hrun (.mergeFilters ht hq hct hout hin hs')
    · exact atomic_throw _

theorem apply_follows (proposal : Proposal Arena.Key) :
    (apply proposal).Follows (proposal.map Arena.Key.offset).apply id := by
  intro s p h
  have hchild : ∀ {t c : PlanTree}, t ∈ p.nodes → c ∈ t.children →
      Proposal.childOf t c.id = .ok c := fun ht hct =>
    Proposal.childOf_id hct fun d hd hid =>
      PlanTree.eq_of_id_eq_of_children (h.nodup_ids ht) hct hd hid
  refine (apply_atomic h proposal).mono fun _ s' hs' => ?_
  cases hs' with
  | replaceOperator ht hq hop =>
    exact ⟨_, Proposal.apply_replaceOperator_eq_ok.mpr ⟨_, h.find?_eq ht, hop, rfl⟩,
      shows_setOperator h ht hq _⟩
  | replaceByChild ht hq hc hs' =>
    exact ⟨_, Proposal.apply_replaceByChild_eq_ok.mpr ⟨_, _, h.find?_eq ht, hc, rfl⟩,
      h.replaceByChild ht hq hc hs'⟩
  | flattenChild ht hq hct hop hne hs' =>
    exact ⟨_, Proposal.apply_flattenChild_eq_ok.mpr
      ⟨_, _, _, h.find?_eq ht, hchild ht hct, hop, hne, rfl⟩, h.dissolve ht hq hct hs'⟩
  | mergeFilters ht hq hct hout hin hs' =>
    exact ⟨_, Proposal.apply_mergeFilters_eq_ok.mpr
      ⟨_, _, _, _, h.find?_eq ht, hchild ht hct, hout, hin, rfl⟩, h.dissolve ht hq hct hs'⟩

/-- Looking for a node among the children of a stored node. -/
theorem run_checkIsChild {k l : Arena.Key} {n : PlanNode} (hk : s.get? k = some n)
    (hl : l ∈ n.children) : (checkIsChild k l).run s = .ok () s := by
  rw [checkIsChild, run_bind_of_ok (run_find hk), if_pos hl]
  rfl

/-- A proposal that can be applied to the plan that is shown can be applied in the arena. -/
theorem exists_run_apply {p' : Plan} {u : Unit} {proposal : Proposal NodeId} (h : s.Shows p)
    (happly : proposal.apply.run p = .ok u p') :
    ∃ s', (apply (proposal.map s.key)).run s = .ok () s' ∧ s'.Shows p' := by
  have hfound : ∀ {i t}, p.find? i = some t → t ∈ p.nodes ∧ t.id = i ∧ ∃ q, s.Keeps q t :=
    fun hfind => by
      obtain ⟨ht, hid⟩ := Plan.find?_eq_some hfind
      exact ⟨ht, hid, h.exists_keeps ht⟩
  cases proposal with
  | replaceOperator i op =>
    obtain ⟨t, hfind, hok, rfl⟩ := Proposal.apply_replaceOperator_eq_ok.mp happly
    obtain ⟨ht, rfl, q, hq⟩ := hfound hfind
    have hlength : (s.nodeOf q t).children.length = t.children.length := List.length_map _
    refine ⟨_, ?_, shows_setOperator h ht hq op⟩
    rw [Proposal.map, apply, run_bind_of_ok (run_find hq.get?_eq),
      run_bind_of_ok (run_check (OperatorKind.checkChildren_eq_ok.mpr (hlength ▸ hok))),
      run_bind_of_ok (run_replaceOperator hq.get?_eq
        (OperatorKind.checkRoom_eq_ok.mpr (OperatorKind.hasRoom_of_accepts (hlength ▸ hok))))]
    rfl
  | replaceByChild i =>
    obtain ⟨t, c, hfind, hc, rfl⟩ := Proposal.apply_replaceByChild_eq_ok.mp happly
    obtain ⟨ht, rfl, q, hq⟩ := hfound hfind
    obtain ⟨s', hrun, hs'⟩ := exists_run_replaceByChild h ht hq hc
    refine ⟨s', ?_, h.replaceByChild ht hq hc hs'⟩
    rw [Proposal.map, apply, run_bind_of_ok (run_find hq.get?_eq), nodeOf, hc]
    exact hrun
  | flattenChild i j =>
    obtain ⟨t, c, op, hfind, hchild, hflat, hne, rfl⟩ :=
      Proposal.apply_flattenChild_eq_ok.mp happly
    obtain ⟨ht, rfl, q, hq⟩ := hfound hfind
    obtain ⟨hc, rfl⟩ := Proposal.childOf_eq_ok hchild
    obtain ⟨s', hrun, hs'⟩ := exists_run_dissolve h ht hq hc op
    have hop : Proposal.flatten (s.nodeOf q t).op (s.nodeOf (some (s.keyOf t)) c).op = .ok op :=
      hflat
    refine ⟨s', ?_, h.dissolve ht hq hc hs'⟩
    rw [Proposal.map, apply, run_bind_of_ok (run_checkIsChild hq.get?_eq (List.mem_map_of_mem hc)),
      run_bind_of_ok (run_find hq.get?_eq), run_bind_of_ok (run_find (hq.child hc).get?_eq),
      run_bind_of_ok (run_check hop), if_neg (by simpa [nodeOf] using hne)]
    exact hrun
  | mergeFilters i j =>
    obtain ⟨t, c, outer, inner, hfind, hchild, hout, hin, rfl⟩ :=
      Proposal.apply_mergeFilters_eq_ok.mp happly
    obtain ⟨ht, rfl, q, hq⟩ := hfound hfind
    obtain ⟨hc, rfl⟩ := Proposal.childOf_eq_ok hchild
    obtain ⟨s', hrun, hs'⟩ :=
      exists_run_dissolve h ht hq hc (.filter (Operator.mergeConditions outer inner))
    refine ⟨s', ?_, h.dissolve ht hq hc hs'⟩
    rw [Proposal.map, apply, run_bind_of_ok (run_checkIsChild hq.get?_eq (List.mem_map_of_mem hc)),
      run_bind_of_ok (run_find hq.get?_eq), run_bind_of_ok (run_find (hq.child hc).get?_eq),
      nodeOf, nodeOf, hout, hin]
    exact hrun

/-! ## Failing alike -/

section

variable {α β γ : Type}

/-- Whether an edit in an arena fails where an edit of plans does, with the same error, and neither
changes anything then. -/
def FailsAs (edit : StoreEdit α) (s : PlanStore) (spec : Edit β) (p : Plan) : Prop :=
  ∀ e p', spec.run p = .error e p' → p' = p ∧ edit.run s = .error e s

theorem failsAs_throw (e : PlanError) : (throw e : StoreEdit α).FailsAs s (throw e : Edit β) p := by
  intro e' p' h
  obtain ⟨rfl, rfl⟩ := EStateM.Result.error.inj h
  exact ⟨rfl, rfl⟩

/-- Putting a tree in the place of another one does not fail. -/
theorem failsAs_graft {edit : StoreEdit α} (i : NodeId) (new : PlanTree) :
    edit.FailsAs s (Edit.graft i new) p := fun _ _ h => absurd h (by simp [Edit.graft])

/-- A check fails in the same way. -/
theorem failsAs_check_bind {e : Except PlanError γ} {f : γ → StoreEdit α} {g : γ → Edit β}
    (h : ∀ c, e = .ok c → (f c).FailsAs s (g c) p) :
    ((ofExcept e : StoreEdit γ) >>= f).FailsAs s ((ofExcept e : Edit γ) >>= g) p := by
  cases e with
  | ok c => exact h c rfl
  | error err => exact failsAs_throw err

/-- Looking for a node fails in the same way. -/
theorem failsAs_find_bind (hp : s.Shows p) {i : NodeId} {f : PlanNode → StoreEdit α}
    {g : PlanTree → Edit β}
    (h : ∀ t ∈ p.nodes, t.id = i → ∀ q, s.Keeps q t → (f (s.nodeOf q t)).FailsAs s (g t) p) :
    (find (s.key i) >>= f).FailsAs s (Edit.find i >>= g) p := by
  cases hi : p.find? i with
  | none =>
    have hnone : s.get? (s.key i) = none := by
      rw [Option.eq_none_iff_forall_ne_some]
      intro n hn
      obtain ⟨t, ht, -, hk, -⟩ := hp.exists_node hn
      obtain rfl := s.key_injective hk
      exact absurd (hi.symm.trans (hp.find?_eq ht)) (by simp)
    have hspec : p.find i = .error (.unknownNode i) := by rw [Plan.find, hi]
    have hedit : s.find (s.key i) = .error (.unknownNode i) := by rw [PlanStore.find, hnone]; rfl
    intro e p' hrun
    change ((ofExcept (p.find i) : Edit PlanTree) >>= g).run p = _ at hrun
    show p' = p ∧ ((ofExcept (s.find (s.key i)) : StoreEdit PlanNode) >>= f).run s = _
    rw [hspec] at hrun
    rw [hedit]
    exact failsAs_throw _ e p' hrun
  | some t =>
    obtain ⟨ht, hid⟩ := Plan.find?_eq_some hi
    obtain ⟨q, hq⟩ := hp.exists_keeps ht
    intro e p' hrun
    subst hid
    have hfind : (Edit.find t.id).run p = .ok t p := Edit.run_find_eq_ok.mpr ⟨hi, rfl⟩
    rw [EStateM.run_bind, hfind] at hrun
    rw [run_bind_of_ok (run_find hq.get?_eq)]
    exact h t ht rfl q hq e p' hrun

/-- Looking for a node that is stored does not fail. -/
theorem failsAs_of_find {k : Arena.Key} {n : PlanNode} {f : PlanNode → StoreEdit α} {spec : Edit β}
    (hk : s.get? k = some n) (h : (f n).FailsAs s spec p) :
    (find k >>= f).FailsAs s spec p := by
  intro e p' hrun
  rw [run_bind_of_ok (run_find hk)]
  exact h e p' hrun

/-- Looking for a child of a node fails in the same way. -/
theorem failsAs_childOf_bind (hp : s.Shows p) {i j : NodeId} {f : Unit → StoreEdit α}
    {g : PlanTree → PlanTree → Edit β}
    (h : ∀ t ∈ p.nodes, t.id = i → ∀ q, s.Keeps q t → ∀ c ∈ t.children, c.id = j →
      (f ()).FailsAs s (g t c) p) :
    (checkIsChild (s.key i) (s.key j) >>= f).FailsAs s
      (Edit.find i >>= fun t => (ofExcept (Proposal.childOf t j) : Edit PlanTree) >>= g t) p := by
  rw [checkIsChild, bind_assoc]
  refine failsAs_find_bind hp fun t ht hid q hq => ?_
  subst hid
  cases hj : t.children.find? fun c => c.id = j with
  | none =>
    have hchild : Proposal.childOf t j = .error (.invalidProposal (.notChild t.id j)) := by
      rw [Proposal.childOf, hj]
    have hnot : s.key j ∉ (s.nodeOf q t).children := by
      rintro hmem
      obtain ⟨c, hc, hkey⟩ := List.mem_map.mp hmem
      exact absurd (List.find?_eq_none.mp hj c hc) (by simpa using s.key_injective hkey)
    rw [hchild, if_neg hnot]
    exact failsAs_throw _
  | some c =>
    have hchild : Proposal.childOf t j = .ok c := by rw [Proposal.childOf, hj]
    obtain ⟨hc, rfl⟩ := Proposal.childOf_eq_ok hchild
    have hmem : s.key c.id ∈ (s.nodeOf q t).children := List.mem_map_of_mem hc
    rw [hchild, if_pos hmem]
    exact h t ht rfl q hq c hc rfl

/-- A proposal fails for a plan in an arena as it fails for the plan that is shown. -/
theorem apply_failsAs (hp : s.Shows p) (proposal : Proposal NodeId) :
    (apply (proposal.map s.key)).FailsAs s proposal.apply p := by
  cases proposal with
  | replaceOperator i op =>
    refine failsAs_find_bind hp fun t ht hid q hq => ?_
    rw [nodeOf, List.length_map]
    exact failsAs_check_bind fun _ _ => failsAs_graft _ _
  | replaceByChild i =>
    refine failsAs_find_bind hp fun t ht hid q hq => ?_
    rcases t with ⟨k, op, _ | ⟨c, _ | ⟨d, l⟩⟩⟩
    · exact failsAs_throw _
    · exact failsAs_graft _ _
    · exact failsAs_throw _
  | flattenChild i j =>
    refine failsAs_childOf_bind hp fun t ht hid q hq c hc hcid => ?_
    subst hid hcid
    refine failsAs_of_find hq.get?_eq (failsAs_of_find (hq.child hc).get?_eq ?_)
    refine failsAs_check_bind fun op hop => ?_
    rw [nodeOf, List.isEmpty_map]
    split
    · exact failsAs_throw _
    · exact failsAs_graft _ _
  | mergeFilters i j =>
    refine failsAs_childOf_bind hp fun t ht hid q hq c hc hcid => ?_
    subst hid hcid
    refine failsAs_of_find hq.get?_eq (failsAs_of_find (hq.child hc).get?_eq ?_)
    split
    · rename_i outer inner hout hin
      rw [show t.op = .filter outer from hout, show c.op = .filter inner from hin]
      exact failsAs_graft _ _
    · rename_i hne
      split
      · rename_i hout hin
        exact absurd hin (hne _ _ hout)
      · exact failsAs_throw _

end

end StoreEdit

namespace PlanStore

variable {s : PlanStore} {p : Plan} {α : Type}

/-- The result of an edit of plans, with the plan stored in an arena. -/
def ofResult (tag : Nat) : EStateM.Result PlanError Plan α → EStateM.Result PlanError PlanStore α
  | .ok a p => .ok a (ofPlan tag p)
  | .error e p => .error e (ofPlan tag p)

/-- A proposal has the same result for a plan in an arena as for the plan that is shown. -/
theorem Shows.run_apply_eq (h : s.Shows p) (proposal : Proposal NodeId) :
    (StoreEdit.apply (proposal.map s.key)).run s =
      ofResult s.arena.tag (proposal.apply.run p) := by
  cases hrun : proposal.apply.run p with
  | ok u p' =>
    obtain ⟨s', hrun', hshows⟩ := StoreEdit.exists_run_apply h hrun
    have htag := ((StoreEdit.apply_atomic h _).of_ok hrun').tag_eq
    rw [hrun', hshows.eq_ofPlan, htag]
    rfl
  | error e p' =>
    obtain ⟨rfl, hrun'⟩ := StoreEdit.apply_failsAs h proposal e p' hrun
    rw [hrun']
    exact congrArg _ h.eq_ofPlan

end PlanStore

end OntoQuery
