import OntoQuery.Proofs.RulePlans

/-!
# When folds end well

A fold goes through a plan by recursion: it computes the results of the children of a node, looks
at how many there are, and combines them.  The pre-order keeps the nodes that are still to be
visited on a stack and never looks at their number.  So a fold may fail where the pre-order does
not, but where it does not fail, both meet the data nodes from left to right.

* `Operator.combine_cases`: a node fails if its kind does not accept the number of its children, and
  only then, whatever is computed.
* `PlanTree.fold_cases`: so a fold fails if some node has a wrong number of children, and only then,
  with the error at such a node.
* `Reachable.dataAtoms_agree`: what this means for collecting data atoms in the plans that can be
  reached.
-/

namespace OntoQuery

/-! ## One node -/

/-- The results of as many children as the kind of a node accepts can be combined.  Otherwise the
error says what the kind is and how many children there are. -/
theorem Operator.combine_cases {α : Type} (alg : PlanAlgebra α) (op : Operator) (rs : List α) :
    op.kind.accepts rs.length = true ∧ (∃ r, op.combine alg rs = .ok r) ∨
      op.kind.accepts rs.length = false ∧
        op.combine alg rs = .error (.childCount op.kind rs.length) := by
  cases op with
  | data a =>
    match rs with
    | [] => exact Or.inl ⟨rfl, _, rfl⟩
    | _ :: _ => exact Or.inr ⟨rfl, rfl⟩
  | join _ | union _ =>
    match rs with
    | [] => exact Or.inr ⟨rfl, rfl⟩
    | _ :: _ => exact Or.inl ⟨rfl, _, rfl⟩
  | filter _ | projection _ =>
    match rs with
    | [] => exact Or.inr ⟨rfl, rfl⟩
    | [_] => exact Or.inl ⟨rfl, _, rfl⟩
    | _ :: _ :: _ => exact Or.inr ⟨rfl, rfl⟩

namespace PlanTree

variable {α : Type} {alg : PlanAlgebra α} {t : PlanTree}

/-! ## A tree -/

/-- Whether a result is the error at a node with a wrong number of children, which is among some
nodes. -/
def FailsAmong {β : Type} (nodes : List PlanTree) (result : Except PlanError β) : Prop :=
  ∃ s ∈ nodes, s.op.kind.accepts s.children.length = false ∧
    result = .error (.childCount s.op.kind s.children.length)

/-- A list of trees is folded into as many results, or one of the trees cannot be folded. -/
theorem foldList_cases {ts : List PlanTree}
    (h : ∀ t ∈ ts, t.Complete ∧ (∃ r, t.fold alg = .ok r) ∨ FailsAmong t.nodes (t.fold alg)) :
    (∀ t ∈ ts, t.Complete) ∧ (∃ rs, foldList alg ts = .ok rs ∧ rs.length = ts.length) ∨
      FailsAmong (ts.flatMap nodes) (foldList alg ts) := by
  induction ts with
  | nil => exact Or.inl ⟨fun t ht => absurd ht (by simp), [], rfl, rfl⟩
  | cons t ts ih =>
    obtain ⟨ht, hts⟩ := List.forall_mem_cons.mp h
    rw [foldList, List.flatMap_cons]
    rcases ht with ⟨hcomplete, r, hr⟩ | ⟨s, hs, hcount, hr⟩
    · rcases ih hts with ⟨hall, rs, hrs, hlength⟩ | ⟨s, hs, hcount, hrs⟩
      · refine Or.inl ⟨List.forall_mem_cons.mpr ⟨hcomplete, hall⟩, r :: rs, ?_, ?_⟩
        · rw [hr, hrs]
          rfl
        · rw [List.length_cons, List.length_cons, hlength]
      · refine Or.inr ⟨s, List.mem_append_right _ hs, hcount, ?_⟩
        rw [hr, hrs]
        rfl
    · refine Or.inr ⟨s, List.mem_append_left _ hs, hcount, ?_⟩
      rw [hr]
      rfl

/-- A fold ends well if all nodes have a right number of children, and otherwise with the error at a
node that has not. -/
theorem fold_cases (alg : PlanAlgebra α) (t : PlanTree) :
    t.Complete ∧ (∃ r, t.fold alg = .ok r) ∨ FailsAmong t.nodes (t.fold alg) := by
  induction t using ind with
  | node i op children ih =>
    rw [fold, nodes_node]
    rcases foldList_cases ih with ⟨hall, rs, hrs, hlength⟩ | ⟨s, hs, hcount, hrs⟩
    · have hcombine := op.combine_cases alg rs
      rw [hlength] at hcombine
      rw [hrs]
      rcases hcombine with ⟨hcount, r, hr⟩ | ⟨hcount, hr⟩
      · exact Or.inl ⟨counted_node.mpr ⟨hcount, hall⟩, r, hr⟩
      · exact Or.inr ⟨_, List.mem_cons_self .., hcount, hr⟩
    · refine Or.inr ⟨s, List.mem_cons_of_mem _ hs, hcount, ?_⟩
      rw [hrs]
      rfl

/-- Whether a fold ends well does not depend on what it computes. -/
theorem exists_fold_eq_ok_iff : (∃ r, t.fold alg = .ok r) ↔ t.Complete := by
  constructor
  · rintro ⟨r, hr⟩
    rcases fold_cases alg t with ⟨hcomplete, -⟩ | ⟨s, -, -, herror⟩
    · exact hcomplete
    · exact absurd (hr.symm.trans herror) (by simp)
  · intro hcomplete
    rcases fold_cases alg t with ⟨-, hr⟩ | ⟨s, hs, hcount, -⟩
    · exact hr
    · exact absurd (hcount.symm.trans (hcomplete s hs)) (by simp)

end PlanTree

/-! ## Plans in arenas -/

namespace PlanStore

variable {s : PlanStore}

/-- Collecting the data atoms of a plan by a fold ends well if and only if every stored node has a
number of children that its kind allows.  Then the atoms are the same as in pre-order, one by one;
otherwise the error names the kind of a stored node and the wrong number of its children. -/
theorem Reachable.dataAtoms_agree (h : s.Reachable) :
    ∃ result atoms, s.dataAtoms = some result ∧ s.leafAtoms = some atoms ∧
      ((∃ found, result = .ok found) ↔
        ∀ k n, s.get? k = some n → n.op.kind.accepts n.children.length = true) ∧
      (∀ found, result = .ok found → found = atoms) ∧
      ∀ e, result = .error e → ∃ k n, s.get? k = some n ∧
        n.op.kind.accepts n.children.length = false ∧
          e = .childCount n.op.kind n.children.length := by
  obtain ⟨p, hp, -⟩ := h.wellFormed
  refine ⟨p.root.fold .dataAtoms, p.leafAtoms, hp.fold_eq _, hp.leafAtoms_eq, ?_,
    fun found hfound => ?_, fun e he => ?_⟩
  · rw [PlanTree.exists_fold_eq_ok_iff, hp.forall_stored_iff]
  · have hcomplete := PlanTree.exists_fold_eq_ok_iff.mp ⟨found, hfound⟩
    exact Except.ok.inj (hfound.symm.trans hcomplete.fold_dataAtoms)
  · rcases PlanTree.fold_cases .dataAtoms p.root with ⟨-, r, hr⟩ | ⟨t, ht, hcount, herror⟩
    · exact absurd (he.symm.trans hr) (by simp)
    · obtain ⟨q, hq⟩ := hp.exists_keeps ht
      refine ⟨s.keyOf t, _, hq.get?_eq, ?_, ?_⟩
      · rw [nodeOf, List.length_map]
        exact hcount
      · rw [nodeOf, List.length_map]
        exact Except.error.inj (he.symm.trans herror)

/-- The atoms below a union and behind a join are collected in order.  When a projection is added
that has no child yet, none are collected. -/
theorem dataAtoms_agree_hiddenProjection :
    let s := hiddenProjection (.plain "h" [.var ⟨"x"⟩])
    let s' := (StoreEdit.addChild ⟨0, 0⟩ (.projection (.plain "h" [.var ⟨"x"⟩]))).after s
    s.Reachable ∧ s.dataAtoms =
        some (.ok [.plain "a" [.var ⟨"x"⟩], .plain "b" [.var ⟨"x"⟩, .var ⟨"y"⟩]]) ∧
      s'.Reachable ∧ ∃ e, s'.dataAtoms = some (.error e) := by
  intro s s'
  have hs : s.Reachable := reachable_hiddenProjection _
  have hs' : s'.Reachable := hs.addChild _ _
  have hshows : s.Shows _ := shows_hiddenProjection (.plain "h" [.var ⟨"x"⟩])
  obtain ⟨result, atoms, hresult, hatoms, hok, heq, -⟩ := hs.dataAtoms_agree
  obtain ⟨result', atoms', hresult', -, hok', -, -⟩ := hs'.dataAtoms_agree
  refine ⟨hs, ?_, hs', ?_⟩
  · have hvalid : (hiddenProjectionPlan (.plain "h" [.var ⟨"x"⟩])).validate = .ok () := by cbv
    have hcomplete := (Plan.validate_eq_ok.mp hvalid).1
    obtain ⟨found, rfl⟩ := hok.mpr (hshows.forall_stored_iff.mpr hcomplete)
    rw [hresult, heq found rfl, ← Option.some.inj (hshows.leafAtoms_eq.symm.trans hatoms)]
    cbv
  · cases result' with
    | error e => exact ⟨e, hresult'⟩
    | ok found =>
      have hstored : s'.get? ⟨0, 5⟩ =
          some ⟨.projection (.plain "h" [.var ⟨"x"⟩]), [], some ⟨0, 0⟩⟩ := rfl
      exact absurd (hok'.mp ⟨found, rfl⟩ _ _ hstored) (by decide)

end PlanStore

end OntoQuery
