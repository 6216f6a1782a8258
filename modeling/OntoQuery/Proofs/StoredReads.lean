import Mathlib
import OntoQuery.Plan.Store.Optimize
import OntoQuery.Proofs.PlanEdits
import OntoQuery.Proofs.StoredPlan
import OntoQuery.Proofs.Success

/-!
# Reading plans in arenas

What is read from a plan in an arena is what is read from the plan that it shows.

* `Shows.size_eq`: there are as many nodes, and as many of each kind (`Shows.countP_eq`), with as
  many children (`Shows.forall_stored_iff`).
* `Shows.leafAtoms_eq`, `Shows.validate_eq`: the same atoms, the same verdict.
* `Shows.fold_eq`: the same results of folds.
* `Shows.nextProposal_eq`: the optimizers propose the same, with keys for numbers.
-/

namespace OntoQuery

/-! ## Counting what is stored -/

namespace Arena

variable {α : Type}

/-- The occupied slots by their numbers. -/
theorem countP_slots_eq (a : Arena α) (P : α → Bool) :
    (a.slots.countP fun slot => slot.any P) =
      (List.range a.slots.length).countP fun i => (a.get? ⟨a.tag, i⟩).any P := by
  have hslots : ∀ slots : List (Option α), (slots.countP fun slot => slot.any P) =
      (List.range slots.length).countP fun i => (slots[i]?.join).any P := by
    intro slots
    induction slots with
    | nil => rfl
    | cons slot slots ih =>
      rw [List.countP_cons, List.length_cons, List.range_succ_eq_map, List.countP_cons,
        List.countP_map, ih]
      rfl
  rw [hslots]
  exact List.countP_congr fun i _ => by rw [get?_eq, if_pos rfl]

end Arena

namespace PlanStore

variable {s : PlanStore} {p : Plan} {t : PlanTree}

/-- As many nodes of a kind are stored as the plan has. -/
theorem Shows.countP_eq (h : s.Shows p) (P : Operator → Bool) :
    (s.arena.slots.countP fun slot => slot.any fun n => P n.op) =
      p.nodes.countP fun t => P t.op := by
  have hperm : ((List.range s.arena.slots.length).filter fun i => (s.get? (s.key i)).isSome).Perm
      p.root.ids := by
    refine (List.perm_ext_iff_of_nodup (List.nodup_range.filter _) h.numbered.nodup).mpr fun i => ?_
    rw [List.mem_filter, List.mem_range, h.length_slots, Option.isSome_iff_exists]
    constructor
    · rintro ⟨-, n, hn⟩
      obtain ⟨j, hj, heq⟩ := h.stored _ n hn
      exact s.key_injective heq ▸ hj
    · exact fun hi => ⟨h.numbered.lt_next i hi, h.keeps.exists_of_mem_ids hi⟩
  have hstored : ∀ i, (s.get? (s.key i)).any (fun n => P n.op) =
      ((s.get? (s.key i)).any (fun n => P n.op) && (s.get? (s.key i)).isSome) := fun i => by
    cases s.get? (s.key i) <;> simp
  calc (s.arena.slots.countP fun slot => slot.any fun n => P n.op)
      = (List.range s.arena.slots.length).countP fun i =>
          (s.get? (s.key i)).any fun n => P n.op := Arena.countP_slots_eq _ _
    _ = p.root.ids.countP fun i => (s.get? (s.key i)).any fun n => P n.op := by
        rw [← hperm.countP_eq, List.countP_filter]
        exact List.countP_congr fun i _ => by rw [← hstored i]
    _ = p.nodes.countP fun t => P t.op := by
        rw [PlanTree.ids, List.countP_map]
        refine List.countP_congr fun t ht => ?_
        obtain ⟨q, hq⟩ := h.exists_keeps ht
        show (s.get? (s.keyOf t)).any _ = true ↔ _
        rw [hq.get?_eq]
        rfl

/-- As many nodes are stored as the plan has. -/
theorem Shows.size_eq (h : s.Shows p) : s.size = p.size := by
  have hany : (Option.isSome : Option PlanNode → Bool) = fun slot => slot.any fun _ => true := by
    funext slot
    cases slot <;> rfl
  have hcount := h.countP_eq fun _ => true
  rw [size, Arena.size, ← List.countP_eq_length_filter, hany, hcount, List.countP_true]
  rfl

/-- A number of children is asked of every stored node if it is asked of every node of the plan. -/
theorem Shows.forall_stored_iff (h : s.Shows p) {P : OperatorKind → Nat → Bool} :
    (∀ k n, s.get? k = some n → P n.op.kind n.children.length = true) ↔ p.root.Counted P := by
  constructor
  · intro hstored t ht
    obtain ⟨q, hq⟩ := h.exists_keeps ht
    have hcount := hstored _ _ hq.get?_eq
    rwa [nodeOf, List.length_map] at hcount
  · intro hcounted k n hk
    obtain ⟨t, ht, q, rfl, rfl, -⟩ := h.exists_node hk
    rw [nodeOf, List.length_map]
    exact hcounted t ht

/-! ## Atoms and errors -/

/-- The atoms are found in the order of the nodes. -/
theorem leafAtoms_of_preOrder {ks : List Arena.Key} (h : s.preOrder = some ks) :
    s.leafAtoms = some (ks.filterMap s.dataAtom?) := by
  rw [leafAtoms, h]
  rfl

theorem Shows.leafAtoms_eq (h : s.Shows p) : s.leafAtoms = some p.leafAtoms := by
  rw [leafAtoms_of_preOrder h.preOrder_eq, List.filterMap_map]
  refine congrArg some (List.filterMap_congr fun t ht => ?_)
  obtain ⟨q, hq⟩ := h.exists_keeps ht
  show s.dataAtom? (s.keyOf t) = _
  rw [dataAtom?, hq.get?_eq, nodeOf]
  cases t.op <;> rfl

theorem Keeps.find_eq {q : Option Arena.Key} (h : s.Keeps q t) :
    s.find (s.keyOf t) = .ok (s.nodeOf q t) := by
  rw [find, h.get?_eq]

/-- The children of a union are checked alike. -/
theorem checkArities_eq {q : Option Arena.Key} {ts : List PlanTree} (h : ∀ t ∈ ts, s.Keeps q t)
    (arity : Nat) : s.checkArities arity (ts.map s.keyOf) = Plan.checkArities arity ts := by
  induction ts with
  | nil => rfl
  | cons t ts ih =>
    obtain ⟨ht, hts⟩ := List.forall_mem_cons.mp h
    rw [List.map_cons, checkArities, ht.find_eq, Plan.checkArities, ← ih hts]
    rfl

theorem checkNode_eq {q : Option Arena.Key} (h : s.Keeps q t) :
    s.checkNode (s.keyOf t) = Plan.checkNode t := by
  obtain ⟨i, op, children⟩ := t
  have hchildren : ∀ arity, s.checkArities arity (children.map s.keyOf) =
      Plan.checkArities arity children := fun arity =>
    checkArities_eq (fun c hc => h.child hc) arity
  rw [checkNode, h.find_eq, Plan.checkNode]
  have hlength : (nodeOf s q (.node i op children)).children.length = children.length :=
    List.length_map _
  cases op with
  | union arity =>
    show (do OperatorKind.checkChildren _ (nodeOf s q (.node i _ children)).children.length
             s.checkArities arity (children.map s.keyOf)) = _
    rw [hlength, hchildren]
    rfl
  | _ =>
    show (do OperatorKind.checkChildren _ (nodeOf s q (.node i _ children)).children.length
             .ok ()) = _
    rw [hlength]
    rfl

theorem forM_checkNode_eq {ts : List PlanTree} (h : ∀ t ∈ ts, ∃ q, s.Keeps q t) :
    (ts.map s.keyOf).forM s.checkNode = ts.forM Plan.checkNode := by
  rw [List.forM_eq_forM, List.forM_map]
  refine forM_congr fun t ht => ?_
  obtain ⟨q, hq⟩ := h t ht
  exact checkNode_eq hq

theorem Shows.validate_eq (h : s.Shows p) : s.validate = some p.validate := by
  unfold validate Plan.validate
  rw [h.preOrder_eq]
  exact congrArg some (forM_checkNode_eq fun t ht => h.exists_keeps ht)

/-! ## Folds -/

section

variable {α : Type} {alg : PlanAlgebra α}

/-- A list of nodes is folded from left to right. -/
theorem mapM_foldAt_eq {ts : List PlanTree}
    (h : ∀ t ∈ ts, s.foldAt alg (s.keyOf t) = ExceptT.mk (some (t.fold alg))) :
    (ts.map s.keyOf).mapM (s.foldAt alg) = ExceptT.mk (some (PlanTree.foldList alg ts)) := by
  induction ts with
  | nil => rfl
  | cons t ts ih =>
    obtain ⟨ht, hts⟩ := List.forall_mem_cons.mp h
    rw [List.map_cons, List.mapM_cons, ht, ih hts, PlanTree.foldList]
    cases t.fold alg with
    | error e => rfl
    | ok r => cases PlanTree.foldList alg ts <;> rfl

/-- A fold ends at a node, with the result of the tree below it. -/
theorem Keeps.foldAt_eq {q : Option Arena.Key} (h : s.Keeps q t) :
    s.foldAt alg (s.keyOf t) = ExceptT.mk (some (t.fold alg)) := by
  induction t using PlanTree.ind generalizing q with
  | node i op children ih =>
    have hchildren := mapM_foldAt_eq fun c hc => ih c hc (h.child hc)
    rw [foldAt, h.find_eq]
    show (children.map s.keyOf).mapM (s.foldAt alg) >>= _ = _
    rw [hchildren, PlanTree.fold]
    cases PlanTree.foldList alg children <;> rfl

theorem Shows.fold_eq (h : s.Shows p) (alg : PlanAlgebra α) : s.fold alg = some (p.fold alg) := by
  rw [fold, h.root_eq, h.keeps.foldAt_eq]
  rfl

end

end PlanStore

/-! ## Proposals -/

namespace Proposal

theorem map_map {ι κ μ : Type} (f : ι → κ) (g : κ → μ) (proposal : Proposal ι) :
    (proposal.map f).map g = proposal.map (g ∘ f) := by
  cases proposal <;> rfl

theorem map_id {ι : Type} (proposal : Proposal ι) : proposal.map id = proposal := by
  cases proposal <;> rfl

/-- Numbers can be read off keys. -/
theorem map_offset_map_key (s : PlanStore) (proposal : Proposal NodeId) :
    (proposal.map s.key).map Arena.Key.offset = proposal := by
  rw [map_map]
  exact map_id proposal

end Proposal

namespace PlanStore

variable {s : PlanStore} {p : Plan} {t : PlanTree} {q : Option Arena.Key}

/-- Searching the keys of nodes. -/
theorem find?_map_keyOf {ts : List PlanTree} {P : Arena.Key → Bool} {Q : PlanTree → Bool}
    (h : ∀ t ∈ ts, P (s.keyOf t) = Q t) : (ts.map s.keyOf).find? P = (ts.find? Q).map s.keyOf := by
  induction ts with
  | nil => rfl
  | cons t ts ih =>
    obtain ⟨ht, hts⟩ := List.forall_mem_cons.mp h
    rw [List.map_cons, List.find?_cons, List.find?_cons, ht, ih hts]
    cases Q t <;> rfl

/-- An optimizer sees the same in an arena. -/
theorem proposeAt_eq (o : Optimizer) (h : s.Keeps q t) :
    o.proposeAt s (s.keyOf t) t.op = (o.propose t).map (Proposal.map s.key) := by
  obtain ⟨i, op, children⟩ := t
  have hchildren : s.children (s.key i) = children.map s.keyOf := h.children_eq
  have hop : ∀ c ∈ children, s.get? (s.keyOf c) = some (s.nodeOf (some (s.key i)) c) :=
    fun c hc => (h.child hc).get?_eq
  show o.proposeAt s (s.key i) op = _
  cases o with
  | trivialNodes =>
    cases op with
    | join conditions =>
      rw [Optimizer.proposeAt, hchildren, List.length_map]
      rcases children with _ | ⟨c, _ | ⟨d, rest⟩⟩ <;> cases conditions <;> rfl
    | union n =>
      rw [Optimizer.proposeAt, hchildren, List.length_map]
      rcases children with _ | ⟨c, _ | ⟨d, rest⟩⟩ <;> rfl
    | _ => rfl
  | nestedOperators =>
    cases op with
    | join conditions =>
      have hfind : ((children.map s.keyOf).find? fun k =>
          ((s.get? k).map fun n => n.op.kind) = some .join) =
            (children.find? fun c => c.op.kind = .join).map s.keyOf :=
        find?_map_keyOf fun c hc => by rw [hop c hc]; simp [nodeOf]
      rw [Optimizer.proposeAt, hchildren, hfind, Optimizer.propose, Option.map_map, Option.map_map]
      rfl
    | union n =>
      have hfind : ((children.map s.keyOf).find? fun k =>
          (s.get? k).map PlanNode.op = some (.union n)) =
            (children.find? fun c => c.op = .union n).map s.keyOf :=
        find?_map_keyOf fun c hc => by rw [hop c hc]; simp [nodeOf]
      rw [Optimizer.proposeAt, hchildren, hfind, Optimizer.propose, Option.map_map, Option.map_map]
      rfl
    | _ => rfl
  | filters =>
    cases op with
    | filter conditions =>
      rw [Optimizer.proposeAt, hchildren]
      rcases children with _ | ⟨c, rest⟩
      · rfl
      · simp only [List.map_cons, List.head?_cons, hop c (List.mem_cons_self ..), Option.map_some,
          Option.some_inj, nodeOf, Optimizer.propose]
        split <;> rfl
    | _ => rfl

theorem Shows.firstProposal_eq (h : s.Shows p) (os : List Optimizer) {ts : List PlanTree}
    (hts : ∀ t ∈ ts, t ∈ p.nodes) :
    s.firstProposal (os.map Optimizer.proposeAt) (ts.map s.keyOf) =
      (ts.findSome? fun t => os.findSome? fun o => o.propose t).map (Proposal.map s.key) := by
  induction ts with
  | nil => rfl
  | cons t ts ih =>
    obtain ⟨ht, hts⟩ := List.forall_mem_cons.mp hts
    obtain ⟨q, hq⟩ := h.exists_keeps ht
    have hpropose : ((os.map Optimizer.proposeAt).findSome? fun o => o s (s.keyOf t) t.op) =
        (os.findSome? fun o => o.propose t).map (Proposal.map s.key) := by
      rw [List.findSome?_map, List.map_findSome?]
      congr 1
      funext o
      exact proposeAt_eq o hq
    have hop : (s.nodeOf q t).op = t.op := rfl
    rw [List.map_cons, firstProposal, hq.get?_eq, List.findSome?_cons]
    simp only [Option.bind_eq_bind, Option.bind_some, hop]
    rw [hpropose, ih hts]
    cases os.findSome? fun o => o.propose t <;> rfl

theorem Shows.nextProposal_eq (h : s.Shows p) (os : List Optimizer) :
    s.nextProposal (os.map Optimizer.proposeAt) =
      some ((p.nextProposal os).map (Proposal.map s.key)) := by
  unfold nextProposal Plan.nextProposal
  rw [h.preOrder_eq]
  exact congrArg some (h.firstProposal_eq os fun t ht => ht)

end PlanStore

end OntoQuery
