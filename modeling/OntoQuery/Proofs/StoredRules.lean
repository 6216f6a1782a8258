import OntoQuery.Proofs.PlanMeaning
import OntoQuery.Proofs.StoredEdits

/-!
# Plans of rules in arenas

The plan of a list of rules comes about in two ways.  `Plan.ofRules` puts the tree together and
numbers its nodes as it goes, and `PlanStore.ofRules` adds one node after the other to an arena,
which hands out the numbers.

* `StoreEdit.Grows`: an edit appends trees to the list of a node, and gives them the next numbers.
  Such edits can be done one after the other, or below a node that has been added.
* `ofRules_eq`: both ways end with the same plan or with the same error.
-/

namespace OntoQuery

namespace StoreEdit

open PlanStore

variable {s : PlanStore} {p : Plan} {t : PlanTree}

/-- Whether an edit at a node appends trees to the list of the node.  The trees depend on the next
number, and the edit does not fail if there is room for them. -/
def Grows (edit : Arena.Key → StoreEdit Unit) (trees : NodeId → List PlanTree) : Prop :=
  ∀ s p t, s.Shows p → t ∈ p.nodes →
    t.op.kind.hasRoom (t.children.length + (trees p.next).length) = true →
    ∃ s', (edit (s.keyOf t)).run s = .ok () s' ∧ s'.arena.tag = s.arena.tag ∧
      s'.Shows (p.extend t (trees p.next))

variable {edit edit' : Arena.Key → StoreEdit Unit} {trees trees' : NodeId → List PlanTree}

theorem grows_pure : Grows (fun _ => pure ()) fun _ => [] := by
  intro s p t h ht _
  refine ⟨s, rfl, rfl, ?_⟩
  rwa [Plan.extend_nil h.numbered ht]

/-- What two edits append, one of them after the other. -/
theorem Grows.seq (h : Grows edit trees) (h' : Grows edit' trees') :
    Grows (fun k => do edit k; edit' k) fun i =>
      trees i ++ trees' (i + PlanTree.sizes (trees i)) := by
  intro s p t hp ht hroom
  simp only [List.length_append, ← Nat.add_assoc] at hroom
  obtain ⟨s₁, hrun, htag, hshows⟩ :=
    h s p t hp ht (OperatorKind.hasRoom_of_le hroom (Nat.le_add_right _ _))
  have hkey : s₁.keyOf (t.extend (trees p.next)) = s.keyOf t := congrArg (Arena.Key.mk · t.id) htag
  have hroom' : (t.extend (trees p.next)).op.kind.hasRoom ((t.extend (trees p.next)).children.length +
      (trees' (p.extend t (trees p.next)).next).length) = true := by
    rw [PlanTree.children_extend, List.length_append]
    exact hroom
  obtain ⟨s₂, hrun', htag', hshows'⟩ := h' s₁ _ _ hshows (Plan.mem_nodes_extend ht _) hroom'
  refine ⟨s₂, ?_, htag'.trans htag, Plan.extend_extend p t _ _ ▸ hshows'⟩
  rw [run_bind_of_ok hrun, ← hkey]
  exact hrun'

/-- A node is added, and trees are appended to its list. -/
theorem Grows.below (h : Grows edit trees) (op : Operator)
    (hop : ∀ i, op.kind.hasRoom (trees i).length = true) :
    Grows (fun k => do let k ← addChild k op; edit k) fun i => [.node i op (trees (i + 1))] := by
  intro s p t hp ht hroom
  obtain ⟨q, hq⟩ := hp.exists_keeps ht
  have hshows := shows_addChild hp ht hq op
  have hleaf : PlanTree.leaf p.next op ∈ (p.extend t [.leaf p.next op]).nodes := by
    refine PlanTree.mem_nodes_trans (Plan.mem_nodes_extend ht _)
      (PlanTree.mem_nodes_of_mem_children ?_)
    exact List.mem_append_right _ (List.mem_singleton_self _)
  have hroom' : op.kind.hasRoom ((PlanTree.leaf p.next op).children.length +
      (trees (p.next + 1)).length) = true := by
    rw [show (PlanTree.leaf p.next op).children = [] from rfl, List.length_nil, Nat.zero_add]
    exact hop _
  obtain ⟨s', hrun, htag, hshows'⟩ := h _ _ _ hshows hleaf hroom'
  refine ⟨s', ?_, htag, ?_⟩
  · rw [run_bind_of_ok (run_addChild hp ht op hroom)]
    exact hrun
  · rw [← Plan.extend_leaf hp.numbered ht]
    exact hshows'

/-! ## Rules -/

theorem grows_dataLeaves (atoms : List Atom) :
    Grows (fun k => atoms.forM fun a => do let _ ← addChild k (.data a)) fun i =>
      Plan.dataLeaves i atoms := by
  induction atoms with
  | nil => exact grows_pure
  | cons a atoms ih => exact (grows_pure.below (.data a) fun _ => rfl).seq ih

theorem grows_dataTree {atoms : List Atom} (h : atoms ≠ []) :
    Grows (fun k => do
      let k ← if atoms.length > 1 then addChild k (.join []) else pure k
      atoms.forM fun a => do let _ ← addChild k (.data a)) fun i => Plan.dataTree i atoms := by
  match atoms with
  | [a] => exact grows_dataLeaves [a]
  | a :: b :: rest => exact (grows_dataLeaves (a :: b :: rest)).below (.join []) fun _ => rfl

theorem length_dataTree {atoms : List Atom} (h : atoms ≠ []) (i : NodeId) :
    (Plan.dataTree i atoms).length = 1 := by
  match atoms with
  | [a] => rfl
  | a :: b :: rest => rfl

theorem length_bodyTree (conditions : List Atom) {atoms : List Atom} (h : atoms ≠ []) (i : NodeId) :
    (Plan.bodyTree i conditions atoms).length = 1 := by
  match conditions with
  | [] => exact length_dataTree h i
  | c :: conditions => rfl

theorem grows_bodyTree (conditions : List Atom) {atoms : List Atom} (h : atoms ≠ []) :
    Grows (fun k => do
      let k ← if conditions.isEmpty then pure k else addChild k (.filter conditions)
      let k ← if atoms.length > 1 then addChild k (.join []) else pure k
      atoms.forM fun a => do let _ ← addChild k (.data a)) fun i =>
        Plan.bodyTree i conditions atoms := by
  match conditions with
  | [] => exact grows_dataTree h
  | c :: conditions =>
    refine (grows_dataTree h).below (.filter (c :: conditions)) fun i => ?_
    rw [length_dataTree h]
    rfl

/-- A rule is planned by an edit that grows its tree, or refused for the same reason. -/
theorem addRule_cases (arity : Nat) (r : Rule) :
    (∃ tree : NodeId → PlanTree, (∀ i, Plan.ruleTree arity i r = .ok (tree i)) ∧
      Grows (fun k => addRule k arity r) fun i => [tree i]) ∨
    ∃ e, (∀ i, Plan.ruleTree arity i r = .error e) ∧ ∀ k, addRule k arity r = throw e := by
  unfold addRule Plan.ruleTree
  cases r.head with
  | none => exact Or.inr ⟨_, fun _ => rfl, fun _ => rfl⟩
  | some head =>
    cases head with
    | wildcard name => exact Or.inr ⟨_, fun _ => rfl, fun _ => rfl⟩
    | plain name args =>
      by_cases harity : (Atom.plain name args).arity ≠ arity
      · exact Or.inr ⟨_, fun _ => if_pos harity, fun _ => if_pos harity⟩
      · simp only [if_neg harity]
        obtain ⟨conditions, atoms⟩ := r.bodyAtoms.partition Atom.isBuiltin
        cases atoms with
        | nil => exact Or.inr ⟨_, fun _ => rfl, fun _ => rfl⟩
        | cons a atoms =>
          have hatoms := List.cons_ne_nil a atoms
          refine Or.inl ⟨_, fun _ => rfl, (grows_bodyTree conditions hatoms).below
            (.projection (.plain name args)) fun i => ?_⟩
          rw [length_bodyTree conditions hatoms]
          rfl

/-- One rule after the other is planned, or refused for the same reason. -/
theorem run_addRules (arity : Nat) (rs : List Rule) (hp : s.Shows p) (ht : t ∈ p.nodes)
    (hroom : ∀ n, t.op.kind.hasRoom n = true) :
    (∃ ts s', Plan.ruleTrees arity p.next rs = .ok (ts, p.next + PlanTree.sizes ts) ∧
      (rs.forM (addRule (s.keyOf t) arity)).run s = .ok () s' ∧ s'.arena.tag = s.arena.tag ∧
      s'.Shows (p.extend t ts)) ∨
    ∃ e s', Plan.ruleTrees arity p.next rs = .error e ∧
      (rs.forM (addRule (s.keyOf t) arity)).run s = .error e s' := by
  induction rs generalizing s p t with
  | nil => exact Or.inl ⟨[], s, rfl, rfl, rfl, (Plan.extend_nil hp.numbered ht).symm ▸ hp⟩
  | cons r rs ih =>
    rw [List.forM_eq_forM, List.forM_cons]
    rcases addRule_cases arity r with ⟨tree, htree, hgrows⟩ | ⟨e, htree, hthrow⟩
    · obtain ⟨s₁, hrun, htag, hshows⟩ := hgrows s p t hp ht (hroom _)
      have hkey : s₁.keyOf (t.extend [tree p.next]) = s.keyOf t :=
        congrArg (Arena.Key.mk · t.id) htag
      have hnext : (p.extend t [tree p.next]).next = p.next + (tree p.next).size :=
        congrArg (p.next + ·) (Nat.add_zero _)
      have hrest := ih hshows (Plan.mem_nodes_extend ht _) hroom
      rw [hkey, hnext] at hrest
      have hbind : Plan.ruleTrees arity p.next (r :: rs) =
          (Plan.ruleTrees arity (p.next + (tree p.next).size) rs).map
            (Prod.map (tree p.next :: ·) id) := by
        rw [Plan.ruleTrees, htree]
        rfl
      rw [run_bind_of_ok hrun, hbind]
      rcases hrest with ⟨ts, s₂, htrees, hrun', htag', hshows'⟩ | ⟨e, s₂, htrees, hrun'⟩
      · refine Or.inl ⟨tree p.next :: ts, s₂, ?_, hrun', htag'.trans htag, ?_⟩
        · rw [htrees, PlanTree.sizes, ← Nat.add_assoc]
          rfl
        · exact Plan.extend_extend p t [tree p.next] ts ▸ hshows'
      · refine Or.inr ⟨e, s₂, ?_, hrun'⟩
        rw [htrees]
        rfl
    · refine Or.inr ⟨e, s, ?_, ?_⟩
      · rw [Plan.ruleTrees, htree]
        rfl
      · rw [hthrow]
        rfl

end StoreEdit

namespace PlanStore

open StoreEdit

/-- Adding the nodes of a plan of rules one after the other, and storing the tree that has been put
together, comes to the same. -/
theorem ofRules_eq (tag : Nat) (rs : List Rule) :
    ofRules tag rs = (Plan.ofRules rs).map (ofPlan tag) := by
  match rs with
  | [] => rfl
  | first :: rest =>
    cases hfirst : first.head with
    | none => simp [ofRules, Plan.ofRules, hfirst, Except.map]
    | some head =>
      have hshows := shows_single tag (.union head.arity)
      have hroot : (single tag (.union head.arity)).root = keyOf _ _ := hshows.root_eq
      have hplan : ∀ r, Plan.ruleTrees head.arity 1 (first :: rest) = r →
          Plan.ofRules (first :: rest) =
            r.map fun trees => ⟨.node 0 (.union head.arity) trees.1, trees.2⟩ := by
        rintro r rfl
        rw [Plan.ofRules, hfirst]
        rfl
      rcases run_addRules head.arity (first :: rest) hshows (PlanTree.self_mem_nodes _)
        (fun _ => rfl) with ⟨ts, s', htrees, hrun, htag, hshows'⟩ | ⟨e, s', htrees, hrun⟩
      · have hstore : ofRules tag (first :: rest) = .ok s' := by
          simp only [ofRules, hfirst]
          rw [hroot, hrun]
        have htree : (Plan.single (.union head.arity)).extend (Plan.single (.union head.arity)).root
            ts = ⟨.node 0 (.union head.arity) ts, 1 + PlanTree.sizes ts⟩ := rfl
        rw [hstore, hplan _ htrees, hshows'.eq_ofPlan, htag, htree]
        rfl
      · have hstore : ofRules tag (first :: rest) = .error e := by
          simp only [ofRules, hfirst]
          rw [hroot, hrun]
        rw [hstore, hplan _ htrees]
        rfl

end PlanStore

end OntoQuery
