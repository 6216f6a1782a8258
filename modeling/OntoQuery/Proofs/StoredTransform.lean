import OntoQuery.Plan.Store.Transform
import OntoQuery.Proofs.AtomicEdit
import OntoQuery.Proofs.PlanEdits
import OntoQuery.Proofs.StoredPlan
import OntoQuery.Proofs.Success

/-!
# Transformed plans

A transformer changes the operators of stored nodes one by one.  Whatever it is, all that has
changed in the end are operators, and none of them is of another kind.

* `PlanTree.relabel`: a tree with other operators.
* `Shows.withOperators`: it is what is shown after a change of operators.
* `transform_eq_ok`: a transformed plan is the plan with other operators of the same kinds.
-/

namespace OntoQuery

/-! ## Other operators in a tree -/

namespace PlanTree

mutual

/-- Gives every node an operator by its number. -/
def relabel (f : NodeId → Operator) : PlanTree → PlanTree
  | .node i _ children => .node i (f i) (relabelList f children)

/-- Gives every node of a list of trees an operator by its number. -/
def relabelList (f : NodeId → Operator) : List PlanTree → List PlanTree
  | [] => []
  | t :: ts => relabel f t :: relabelList f ts

end

variable (f : NodeId → Operator) (t : PlanTree)

theorem relabelList_eq_map (ts : List PlanTree) : relabelList f ts = ts.map (relabel f) := by
  induction ts with
  | nil => rfl
  | cons t ts ih => rw [relabelList, ih, List.map_cons]

theorem relabel_node (i : NodeId) (op : Operator) (children : List PlanTree) :
    relabel f (node i op children) = node i (f i) (children.map (relabel f)) := by
  rw [relabel, relabelList_eq_map]

@[simp] theorem id_relabel : (relabel f t).id = t.id := by
  obtain ⟨i, op, children⟩ := t
  rw [relabel]
  rfl

@[simp] theorem op_relabel : (relabel f t).op = f t.id := by
  obtain ⟨i, op, children⟩ := t
  rw [relabel]
  rfl

@[simp] theorem children_relabel : (relabel f t).children = t.children.map (relabel f) := by
  obtain ⟨i, op, children⟩ := t
  rw [relabel_node]
  rfl

theorem nodes_relabel : (relabel f t).nodes = t.nodes.map (relabel f) := by
  induction t using ind with
  | node i op children ih =>
    rw [relabel_node, nodes_node, nodes_node, List.map_cons, relabel_node, List.flatMap_map,
      List.map_flatMap]
    congr 1
    exact List.flatMap_congr ih

theorem ids_relabel : (relabel f t).ids = t.ids := by
  rw [ids, nodes_relabel, List.map_map]
  exact List.map_congr_left fun s _ => id_relabel f s

variable {f t}

/-- The same numbers of children are right for operators of the same kinds. -/
theorem Counted.relabel {P : OperatorKind → Nat → Bool} (h : t.Counted P)
    (hf : ∀ s ∈ t.nodes, (f s.id).kind = s.op.kind) : (relabel f t).Counted P := by
  induction t using ind with
  | node i op children ih =>
    obtain ⟨hcount, hchildren⟩ := counted_node.mp h
    have hkind : (f i).kind = op.kind := hf _ (self_mem_nodes _)
    rw [relabel_node, counted_node, hkind, List.length_map, List.forall_mem_map]
    refine ⟨hcount, fun c hc => ih c hc (hchildren c hc) fun s hs => hf s ?_⟩
    exact mem_nodes_node.mpr (Or.inr ⟨c, hc, hs⟩)

end PlanTree

/-! ## Other operators in an arena -/

namespace PlanStore

/-- Gives every stored node an operator by its key. -/
def withOperators (f : Arena.Key → Operator) (s : PlanStore) : PlanStore :=
  s.mapNodes fun k n => { n with op := f k }

variable {f : Arena.Key → Operator} {s : PlanStore} {p : Plan} {t : PlanTree}

theorem Keeps.withOperators {q : Option Arena.Key} (h : s.Keeps q t) :
    (s.withOperators f).Keeps q (t.relabel (f ∘ s.key)) := by
  induction t using PlanTree.ind generalizing q with
  | node i op children ih =>
    rw [PlanTree.relabel_node]
    refine Keeps.of_children (s := s) rfl ?_ fun c' hc' => ?_
    · show (s.mapNodes _).get? (s.key i) = _
      have hnode : s.get? (s.key i) = some ⟨op, children.map s.keyOf, q⟩ := h.get?_eq
      rw [get?_mapNodes, hnode, Option.map_some, nodeOf, PlanTree.children, List.map_map]
      congr 2
      exact List.map_congr_left fun c _ => by simp
    · obtain ⟨c, hc, rfl⟩ := List.mem_map.mp hc'
      exact ih c hc (h.child hc)

/-- A plan in an arena shows the same tree with other operators after they have changed. -/
theorem Shows.withOperators (h : s.Shows p) (f : Arena.Key → Operator) :
    (s.withOperators f).Shows ⟨p.root.relabel (f ∘ s.key), p.next⟩ := by
  have hids := PlanTree.ids_relabel (f ∘ s.key) p.root
  refine ⟨⟨?_, ?_⟩, ?_, ?_, h.keeps.withOperators, fun k n hk => ?_⟩
  · show (PlanTree.relabel _ _).ids.Nodup
    rw [hids]
    exact h.numbered.nodup
  · show ∀ i ∈ (PlanTree.relabel _ _).ids, i < p.next
    rw [hids]
    exact h.numbered.lt_next
  · exact (length_slots_mapNodes _ _).trans h.length_slots
  · show s.root = s.key (PlanTree.relabel _ _).id
    rw [PlanTree.id_relabel]
    exact h.root_eq
  · obtain ⟨m, hm⟩ := exists_of_get?_mapNodes hk
    show ∃ i ∈ (PlanTree.relabel _ _).ids, k = s.key i
    rw [hids]
    exact h.stored k m hm

/-- Whether an operator of the kind of the stored one is given for every stored node. -/
def SameKinds (f : Arena.Key → Operator) (s : PlanStore) : Prop :=
  ∀ k n, s.get? k = some n → (f k).kind = n.op.kind

/-- Changing operators without regard to keys is a special case. -/
theorem exists_withOperators (g : Operator → Operator) (s : PlanStore) :
    ∃ f, (∀ k n, s.get? k = some n → f k = g n.op) ∧
      s.mapNodes (fun _ n => { n with op := g n.op }) = s.withOperators f := by
  have hop : ∀ k n, s.get? k = some n → (s.get? k).elim (.join []) (fun n => g n.op) = g n.op := by
    intro k n hk
    rw [hk]
    rfl
  refine ⟨fun k => (s.get? k).elim (.join []) fun n => g n.op, hop, mapNodes_congr fun k n hk => ?_⟩
  show _ = { n with op := (s.get? k).elim (.join []) fun n => g n.op }
  rw [hop k n hk]

/-- The operators of a plan are of their own kinds. -/
theorem exists_withOperators_self (s : PlanStore) : ∃ f, s.SameKinds f ∧ s = s.withOperators f := by
  obtain ⟨f, hf, heq⟩ := s.exists_withOperators id
  exact ⟨f, fun k n hk => congrArg Operator.kind (hf k n hk), s.mapNodes_id.symm.trans heq⟩

end PlanStore

/-! ## Transformers -/

namespace Transformer

variable {σ ε : Type}

/-- A transformer has no say in the kind of an operator. -/
theorem kind_apply {t : Transformer σ ε} {op op' : Operator} {st st' : σ}
    (h : (t.apply op).run st = .ok (op', st')) : op'.kind = op.kind := by
  cases op <;>
  · rw [apply, StateT.run_bind] at h
    obtain ⟨⟨x, st₁⟩, -, hpure⟩ := bind_eq_ok.mp h
    obtain ⟨rfl, -⟩ := Prod.mk.inj (Except.ok.inj hpure)
    rfl

end Transformer

namespace PlanStore

variable {σ ε : Type} {t : Transformer σ ε} {s s' : PlanStore} {st st' : σ}

/-- Transforming a stored node changes its operator once more. -/
theorem run_transformNode {k : Arena.Key} {n : PlanNode} (hk : s.get? k = some n)
    (f : Arena.Key → Operator) :
    (transformNode t (s.withOperators f) (k, n)).run st = ((t.apply n.op).run st).map fun r =>
      (s.withOperators (Function.update f k r.1), r.2) := by
  have hget : (s.withOperators f).get? k = some { n with op := f k } := by
    rw [withOperators, get?_mapNodes, hk, Option.map_some]
  rw [transformNode, StateT.run_bind]
  cases (t.apply n.op).run st with
  | error e => rfl
  | ok r =>
    obtain ⟨op, st'⟩ := r
    simp only [hget]
    refine congrArg (fun s => Except.ok (s, st')) ?_
    refine (set_eq_mapNodes hget fun n => { n with op := op }).trans ?_
    rw [withOperators, mapNodes_mapNodes]
    refine mapNodes_congr fun l m _ => ?_
    by_cases hl : l = k
    · rw [updateAt, if_pos hl, hl, Function.update_self]
    · rw [updateAt, if_neg hl, Function.update_of_ne hl]

/-- Transforming stored nodes changes operators only. -/
theorem foldlM_transformNode {entries : List (Arena.Key × PlanNode)}
    (hentries : ∀ e ∈ entries, s.get? e.1 = some e.2) {f : Arena.Key → Operator}
    (hf : s.SameKinds f)
    (h : (entries.foldlM (transformNode t) (s.withOperators f)).run st = .ok (s', st')) :
    ∃ f', s.SameKinds f' ∧ s' = s.withOperators f' := by
  induction entries generalizing f st with
  | nil =>
    obtain ⟨rfl, -⟩ := Prod.mk.inj (Except.ok.inj h)
    exact ⟨f, hf, rfl⟩
  | cons e entries ih =>
    obtain ⟨he, hentries⟩ := List.forall_mem_cons.mp hentries
    rw [List.foldlM_cons, StateT.run_bind, run_transformNode he] at h
    obtain ⟨_, hnode, hrest⟩ := bind_eq_ok.mp h
    obtain ⟨⟨op, st₁⟩, happly, rfl⟩ := map_eq_ok.mp hnode
    refine ih hentries (fun k n hk => ?_) hrest
    by_cases hke : k = e.1
    · subst hke
      obtain rfl := Option.some.inj (hk.symm.trans he)
      rw [Function.update_self, Transformer.kind_apply happly]
    · rw [Function.update_of_ne hke]
      exact hf k n hk

/-- A transformed plan is the plan with other operators of the same kinds. -/
theorem transform_eq_ok {invalid : PlanError → ε}
    (h : s.transform t invalid st = some (.ok s')) :
    ∃ f, s.SameKinds f ∧ s' = s.withOperators f ∧ s'.validate = some (.ok ()) := by
  unfold transform at h
  cases hrun : (s.arena.toList.foldlM (transformNode t) s).run st with
  | error e => simp [hrun] at h
  | ok result =>
    obtain ⟨s₁, st₁⟩ := result
    simp only [hrun] at h
    obtain ⟨verdict, hverdict, hresult⟩ := Option.bind_eq_some_iff.mp h
    cases verdict with
    | error e => exact absurd hresult (by simp [pure])
    | ok u =>
      obtain rfl : s₁ = s' := Except.ok.inj (Option.some.inj hresult)
      obtain ⟨f, hf, hself⟩ := s.exists_withOperators_self
      have hstored : ∀ e ∈ s.arena.toList, s.get? e.1 = some e.2 := fun e he =>
        Arena.mem_toList.mp he
      have hrun' : (s.arena.toList.foldlM (transformNode t) (s.withOperators f)).run st =
          .ok (s₁, st₁) := by
        rw [← hself]
        exact hrun
      obtain ⟨f', hf', heq⟩ := foldlM_transformNode hstored hf hrun'
      exact ⟨f', hf', heq, hverdict⟩

end PlanStore

end OntoQuery
