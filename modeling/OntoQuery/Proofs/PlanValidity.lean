import OntoQuery.Proofs.StoredOptimization
import OntoQuery.Proofs.Success

/-!
# What optimization does to valid plans

A plan is valid if every node has as many children as its kind needs and no child of a union has
another arity than the union.  Not every operator has an arity of its own, and for those that have
none nothing is asked.  So a join may stand between a union and a projection of any arity, and when
the join goes, as a join of one child does, the projection comes to stand below the union.

* `Complete`: the numbers of children are right.  Optimization keeps them so, and the only error
  that it can bring into a valid plan is that of an arity (`validate_eq_error`).
* `Fits`, `Aligned`: the children of unions have the right arity, also where they are seen through
  joins that may go.  Optimization keeps this as well (`Reduces.keepsArities`), and it holds of
  valid plans of rules (`aligned_of_ofRules`).
* `Reachable.validate_optimize`: what holds of the plans that can be reached.
* `optimize_hiddenProjection_invalid`: a valid plan that is not valid after optimization.
-/

namespace OntoQuery

/-! ## Valid plans -/

namespace Plan

theorem checkArities_eq_ok {arity : Nat} {ts : List PlanTree} :
    checkArities arity ts = .ok () ↔ ∀ t ∈ ts, ∀ m, t.op.outputArity? = some m → m = arity := by
  induction ts with
  | nil => simp [checkArities]
  | cons t ts ih =>
    rw [checkArities, List.forall_mem_cons, ← ih]
    cases h : t.op.outputArity? with
    | none => simp
    | some n =>
      by_cases hn : n = arity
      · simp [hn]
      · simp [hn]

theorem checkArities_eq_error {arity : Nat} {ts : List PlanTree} {e : PlanError}
    (h : checkArities arity ts = .error e) : ∃ n, e = .unionArityMismatch arity n := by
  induction ts with
  | nil => exact absurd h (by simp [checkArities])
  | cons t ts ih =>
    rw [checkArities] at h
    split at h
    · exact ih h
    · split at h
      · exact ih h
      · exact ⟨_, (Except.error.inj h).symm⟩

/-- The check of a node asks for the right number of children, and of a union also for their
arities. -/
theorem checkNode_eq_ok {t : PlanTree} :
    checkNode t = .ok () ↔ t.op.kind.accepts t.children.length = true ∧
      ∀ n, t.op = .union n → ∀ c ∈ t.children, ∀ m, c.op.outputArity? = some m → m = n := by
  rw [checkNode, bind_eq_ok]
  constructor
  · rintro ⟨_, hcount, harity⟩
    refine ⟨OperatorKind.checkChildren_eq_ok.mp hcount, fun n hn => ?_⟩
    rw [hn] at harity
    exact checkArities_eq_ok.mp harity
  · rintro ⟨hcount, harity⟩
    refine ⟨(), OperatorKind.checkChildren_eq_ok.mpr hcount, ?_⟩
    split
    · rename_i n hn
      exact checkArities_eq_ok.mpr (harity n hn)
    · rfl

theorem checkNode_eq_error {t : PlanTree} {e : PlanError}
    (hcount : t.op.kind.accepts t.children.length = true) (h : checkNode t = .error e) :
    ∃ m n, e = .unionArityMismatch m n := by
  have hchildren : t.op.kind.checkChildren t.children.length = .ok () :=
    OperatorKind.checkChildren_eq_ok.mpr hcount
  obtain ⟨i, op, children⟩ := t
  rw [checkNode, hchildren] at h
  cases op with
  | union arity => exact ⟨_, checkArities_eq_error h⟩
  | _ =>
    have h : Except.ok () = Except.error e := h
    exact absurd h (by simp)

theorem validate_eq_ok {p : Plan} :
    p.validate = .ok () ↔ p.root.Complete ∧ ∀ t ∈ p.nodes, ∀ n, t.op = .union n →
      ∀ c ∈ t.children, ∀ m, c.op.outputArity? = some m → m = n := by
  rw [validate, forM_eq_ok]
  simp only [checkNode_eq_ok, forall_and]
  exact Iff.rfl

/-- If the numbers of children are right, only arities can be wrong. -/
theorem validate_eq_error {p : Plan} {e : PlanError} (hp : p.root.Complete)
    (h : p.validate = .error e) : ∃ m n, e = .unionArityMismatch m n := by
  obtain ⟨t, ht, hcheck⟩ := forM_eq_error h
  exact checkNode_eq_error (hp t ht) hcheck

end Plan

namespace PlanTree

open Proposal

variable {t c new : PlanTree} {n : Nat}

/-! ## Numbers of children -/

/-- A node whose list has got the children of a child has no fewer children than before. -/
theorem length_le_spliced (hne : c.children ≠ []) :
    t.children.length ≤ (Proposal.spliced t c).length := by
  rw [Proposal.spliced]
  induction t.children with
  | nil => exact Nat.zero_le _
  | cons s children ih =>
    rw [List.flatMap_cons, List.length_append, List.length_cons, Nat.add_comm]
    refine Nat.add_le_add ?_ ih
    split
    · exact List.length_pos_iff.mpr hne
    · exact Nat.le_refl 1

theorem length_spliced_pos (hc : c ∈ t.children) (hne : c.children ≠ []) :
    0 < (Proposal.spliced t c).length :=
  Nat.lt_of_lt_of_le (List.length_pos_of_mem hc) (length_le_spliced hne)

/-- A node that is reduced has a right number of children if this was so before. -/
theorem Reduces.complete (h : t.Reduces new) (ht : t.Complete) : new.Complete := by
  cases h with
  | joinSingle | unionSingle => exact (counted_node.mp ht).2 _ (List.mem_singleton_self _)
  | joinConditions => exact counted_node.mpr ⟨rfl, (counted_node.mp ht).2⟩
  | flattenJoin hc _ hne | flattenUnion hc _ hne =>
    refine counted_node.mpr ⟨?_, ht.spliced hc⟩
    exact Bool.and_eq_true_iff.mpr ⟨decide_eq_true (length_spliced_pos hc hne), rfl⟩
  | mergeFilters hc hop =>
    have houter := OperatorKind.hasRoom_of_accepts (ht _ (self_mem_nodes _))
    have hinner := ht.child hc _ (self_mem_nodes _)
    rw [hop] at hinner
    refine counted_node.mpr ⟨?_, ht.spliced hc⟩
    rw [(spliced_of_length_le_one (OperatorKind.le_one_of_filter houter) hc).2]
    exact hinner

/-! ## Arities -/

/-- Whether a tree may stand below a union of an arity: its own arity, if it has one, is that of the
union, and if it is a join without conditions, the same holds of its only child. -/
inductive Fits (n : Nat) : PlanTree → Prop where
  /-- The arity is right, and there is nothing else to be seen. -/
  | node {i : NodeId} {op : Operator} {children : List PlanTree}
      (harity : ∀ m, op.outputArity? = some m → m = n)
      (hchild : op = .join [] → ∀ c, children = [c] → Fits n c) : Fits n (.node i op children)

/-- Whether the children of all unions of a tree fit. -/
def Aligned (t : PlanTree) : Prop :=
  ∀ s ∈ t.nodes, ∀ n, s.op = .union n → ∀ c ∈ s.children, c.Fits n

theorem fits_node {i : NodeId} {op : Operator} {children : List PlanTree} :
    (node i op children).Fits n ↔ (∀ m, op.outputArity? = some m → m = n) ∧
      (op = .join [] → ∀ c, children = [c] → c.Fits n) := by
  constructor
  · intro h
    cases h with
    | node harity hchild => exact ⟨harity, hchild⟩
  · exact fun h => .node h.1 h.2

/-- What fits has no other arity. -/
theorem Fits.arity_eq (h : t.Fits n) : ∀ m, t.op.outputArity? = some m → m = n := by
  cases h with
  | node harity _ => exact harity

theorem aligned_node {i : NodeId} {op : Operator} {children : List PlanTree} :
    (node i op children).Aligned ↔
      (∀ n, op = .union n → ∀ c ∈ children, c.Fits n) ∧ ∀ c ∈ children, c.Aligned := by
  unfold Aligned
  rw [nodes_node, List.forall_mem_cons]
  refine and_congr Iff.rfl ?_
  simp only [List.mem_flatMap, forall_exists_index, and_imp]
  exact ⟨fun h c hc s hs => h s c hc hs, fun h s c hc hs => h c hc s hs⟩

theorem Aligned.child (h : t.Aligned) (hc : c ∈ t.children) : c.Aligned := fun s hs =>
  h s (mem_nodes_trans (mem_nodes_of_mem_children hc) hs)

theorem Aligned.spliced (h : t.Aligned) (hc : c ∈ t.children) :
    ∀ s ∈ Proposal.spliced t c, s.Aligned :=
  forall_spliced hc (fun _ hs => h.child hs) fun _ hs => (h.child hc).child hs

/-- Whether a tree may replace another one as far as arities are concerned. -/
def KeepsArities (t t' : PlanTree) : Prop :=
  t.Aligned → t'.Aligned ∧ ∀ n, t.Fits n → t'.Fits n

theorem keepsArities_congr (i : NodeId) (op : Operator) (cs cs' : List PlanTree)
    (h : List.Forall₂ KeepsArities cs cs') :
    (node i op cs).KeepsArities (.node i op cs') := by
  intro haligned
  obtain ⟨hfits, hchildren⟩ := aligned_node.mp haligned
  obtain ⟨-, hleft⟩ := exists_of_forall₂ h
  refine ⟨aligned_node.mpr ⟨fun n hn c' hc' => ?_, fun c' hc' => ?_⟩, fun n hn => ?_⟩
  · obtain ⟨c, hc, hcc'⟩ := hleft c' hc'
    exact (hcc' (hchildren c hc)).2 n (hfits n hn c hc)
  · obtain ⟨c, hc, hcc'⟩ := hleft c' hc'
    exact (hcc' (hchildren c hc)).1
  · obtain ⟨harity, hchild⟩ := fits_node.mp hn
    refine fits_node.mpr ⟨harity, fun hop c' hc' => ?_⟩
    subst hc'
    cases h with
    | cons hcc' hnil =>
      cases hnil with
      | nil => exact (hcc' (hchildren _ (List.mem_singleton_self _))).2 n (hchild hop _ rfl)

/-- Reducing a node keeps arities. -/
theorem Reduces.keepsArities (h : t.Reduces new) : t.KeepsArities new := by
  intro haligned
  cases h with
  | joinSingle =>
    exact ⟨haligned.child (List.mem_singleton_self _), fun n hn => (fits_node.mp hn).2 rfl _ rfl⟩
  | joinConditions hne =>
    refine ⟨aligned_node.mpr ⟨fun n hn => (nomatch hn), (aligned_node.mp haligned).2⟩, fun n _ => ?_⟩
    exact fits_node.mpr ⟨fun m hm => (nomatch hm), fun hop => (nomatch hop)⟩
  | unionSingle =>
    refine ⟨haligned.child (List.mem_singleton_self _), fun n hn => ?_⟩
    rw [← hn.arity_eq _ rfl]
    exact (aligned_node.mp haligned).1 _ rfl _ (List.mem_singleton_self _)
  | @flattenJoin i outer inner children c hc hop hne =>
    refine ⟨aligned_node.mpr ⟨fun n hn => (nomatch hn), haligned.spliced hc⟩, fun n hn => ?_⟩
    refine fits_node.mpr ⟨fun m hm => (nomatch hm), fun hjoin d hd => ?_⟩
    -- a join of one child that is left has been two joins of one child
    obtain ⟨rfl, rfl⟩ := List.append_eq_nil_iff.mp (Operator.join.inj hjoin)
    have hle : children.length ≤ 1 := by
      have hle := length_le_spliced (t := .node i (.join []) children) hne
      rwa [hd] at hle
    obtain ⟨hone, hspliced⟩ := spliced_of_length_le_one (t := .node i (.join []) children) hle hc
    have hcn : c.Fits n := (fits_node.mp hn).2 rfl c hone
    obtain ⟨j, op, grandchildren⟩ := c
    exact (fits_node.mp hcn).2 hop d (hspliced.symm.trans hd)
  | @flattenUnion i m children c hc hop hne =>
    refine ⟨aligned_node.mpr ⟨fun n hn s hs => ?_, haligned.spliced hc⟩, fun n hn => ?_⟩
    · obtain rfl := Operator.union.inj hn
      refine forall_spliced (t := .node i (.union _) children) hc ?_ ?_ s hs
      · exact (aligned_node.mp haligned).1 _ rfl
      · exact haligned.child hc c (self_mem_nodes c) _ hop
    · exact fits_node.mpr ⟨hn.arity_eq, fun hjoin => (nomatch hjoin)⟩
  | mergeFilters hc hop =>
    refine ⟨aligned_node.mpr ⟨fun n hn => (nomatch hn), haligned.spliced hc⟩, fun n _ => ?_⟩
    exact fits_node.mpr ⟨fun m hm => (nomatch hm), fun hop => (nomatch hop)⟩

/-- A node of a tree for a query belongs to a tree for a query or for a body. -/
theorem IsQuery.isQuery_or_isBody {s : PlanTree} (h : t.IsQuery) (hs : s ∈ t.nodes) :
    s.IsQuery ∨ s.IsBody := by
  have hbody : ∀ {u : PlanTree}, u.IsBody → s ∈ u.nodes → s.IsBody := by
    intro u hu hsu
    induction u using ind with
    | node i op children ih =>
      rcases mem_nodes_node.mp hsu with rfl | ⟨c, hc, hsc⟩
      · exact hu
      · cases hu with
        | node _ hchildren => exact ih c hc (hchildren c hc) hsc
  induction t using ind with
  | node i op children ih =>
    rcases mem_nodes_node.mp hs with rfl | ⟨c, hc, hsc⟩
    · exact Or.inl h
    · cases h with
      | union hchildren => exact ih c hc (hchildren c hc) hsc
      | projection hchildren => exact Or.inr (hbody (hchildren c hc) hsc)

/-- In a tree for a query no join stands right below a union, so there is nothing to be seen through
a join. -/
theorem IsQuery.aligned (h : t.IsQuery) (harity : ∀ s ∈ t.nodes, ∀ n, s.op = .union n →
    ∀ c ∈ s.children, ∀ m, c.op.outputArity? = some m → m = n) : t.Aligned := by
  intro s hs n hn c hc
  have hcq : c.IsQuery := by
    rcases h.isQuery_or_isBody hs with hquery | hbody
    · cases hquery with
      | union hchildren => exact hchildren c hc
      | projection => exact nomatch hn
    · cases hbody with
      | @node _ op _ hop =>
        obtain rfl : op = .union n := hn
        exact nomatch hop
  obtain ⟨i, op, children⟩ := c
  refine .node (harity s hs n hn _ hc) fun hop => ?_
  subst hop
  exact nomatch hcq

end PlanTree

namespace Plan

variable {p p' : Plan}

/-- Rewriting keeps the numbers of children right. -/
theorem complete_of_rewrites (h : Relation.ReflTransGen Rewrites p p') (hp : p.root.Complete) :
    p'.root.Complete := by
  induction h with
  | refl => exact hp
  | tail _ hrewrites ih =>
    obtain ⟨t, ht, new, hnew, rfl⟩ := hrewrites
    exact ih.graft (hnew.complete (ih.of_mem ht)) t.id

/-- Rewriting keeps arities. -/
theorem aligned_of_rewrites (h : Relation.ReflTransGen Rewrites p p') (hnumbered : p.Numbered)
    (hp : p.root.Aligned) : p'.root.Aligned := by
  induction h with
  | refl => exact hp
  | tail hsteps hrewrites ih =>
    exact (hrewrites.rel (numbered_of_rewrites hsteps hnumbered) PlanTree.keepsArities_congr
      (fun _ _ _ hnew => hnew.keepsArities) ih).1

end Plan

/-! ## Arities in arenas -/

namespace PlanStore

open StoreEdit

/-- Whether the node under a key may stand below a union of an arity: its own arity, if it has one,
is that of the union, and if it is a join without conditions, the same holds of its only child. -/
inductive Fits (s : PlanStore) (n : Nat) : Arena.Key → Prop where
  /-- The arity is right, and there is nothing else to be seen. -/
  | node {k : Arena.Key} {node : PlanNode} (hk : s.get? k = some node)
      (harity : ∀ m, node.op.outputArity? = some m → m = n)
      (hchild : node.op = .join [] → ∀ c, node.children = [c] → Fits s n c) : Fits s n k

/-- Whether the children of all unions that are stored fit. -/
def Aligned (s : PlanStore) : Prop :=
  ∀ k node n, s.get? k = some node → node.op = .union n → ∀ c ∈ node.children, s.Fits n c

variable {s : PlanStore} {p : Plan} {t : PlanTree}

theorem Keeps.fits_iff {q : Option Arena.Key} (h : s.Keeps q t) {n : Nat} :
    s.Fits n (s.keyOf t) ↔ t.Fits n := by
  induction t using PlanTree.ind generalizing q with
  | node i op children ih =>
    constructor
    · intro hfits
      cases hfits with
      | node hk harity hchild =>
        obtain rfl := Option.some.inj (h.get?_eq.symm.trans hk)
        refine .node harity fun hop c hc => ?_
        have hct : c ∈ children := hc ▸ List.mem_singleton_self c
        refine (ih c hct (h.child hct)).mp (hchild hop _ ?_)
        rw [nodeOf, PlanTree.children, hc, List.map_singleton]
    · intro hfits
      obtain ⟨harity, hchild⟩ := PlanTree.fits_node.mp hfits
      refine .node h.get?_eq harity fun hop k hk => ?_
      obtain ⟨c, hc, rfl⟩ := List.map_eq_singleton_iff.mp hk
      have hct : c ∈ children := by
        rw [show children = [c] from hc]
        exact List.mem_singleton_self c
      exact (ih c hct (h.child hct)).mpr (hchild hop c hc)

theorem Shows.aligned_iff (h : s.Shows p) : s.Aligned ↔ p.root.Aligned := by
  constructor
  · intro haligned t ht n hn c hc
    obtain ⟨q, hq⟩ := h.exists_keeps ht
    exact (hq.child hc).fits_iff.mp
      (haligned _ _ n hq.get?_eq hn _ (List.mem_map_of_mem hc))
  · intro haligned k node n hk hn c hc
    obtain ⟨t, ht, q, rfl, rfl, hq⟩ := h.exists_node hk
    obtain ⟨d, hd, rfl⟩ := List.mem_map.mp hc
    exact (hq.child hd).fits_iff.mpr (haligned t ht n hn d hd)

/-- In plans of rules nothing stands behind a join that could go. -/
theorem aligned_of_ofRules {tag : Nat} {rs : List Rule} (h : ofRules tag rs = .ok s)
    (hvalid : s.validate = some (.ok ())) : s.Aligned := by
  rw [ofRules_eq] at h
  cases hp : Plan.ofRules rs with
  | error e => rw [hp] at h; exact nomatch h
  | ok p =>
    rw [hp] at h
    obtain rfl := Except.ok.inj h
    obtain ⟨hnumbered, hquery, -⟩ := Plan.ofRules_eq_ok hp
    have hshows := shows_ofPlan tag hnumbered
    rw [hshows.validate_eq] at hvalid
    obtain ⟨-, harity⟩ := Plan.validate_eq_ok.mp (Option.some.inj hvalid)
    exact hshows.aligned_iff.mpr (hquery.aligned harity)

/-- A valid plan whose unions have children of the right arity, also where these are seen through
joins that may go, is valid after optimization.  If this is not asked for, optimization can still
do no other harm than to put a child of a wrong arity below a union. -/
theorem Reachable.validate_optimize (h : s.Reachable) (hvalid : s.validate = some (.ok ()))
    (os : List Optimizer) (max : Nat) :
    ∃ r verdict, PlanStore.optimize (os.map Optimizer.proposeAt) max s = some r ∧
      (finalPlan r).validate = some verdict ∧
      (∀ e, verdict = .error e → ∃ m n, e = .unionArityMismatch m n) ∧
      (s.Aligned → verdict = .ok ()) := by
  obtain ⟨r, hr, hsteps⟩ := h.wellFormed.exists_optimize (os.map Optimizer.proposeAt) max
  obtain ⟨p, hp, -⟩ := h.wellFormed
  obtain ⟨p', hrewrites, hp'⟩ := exists_rewrites_of_steps hsteps hp
  rw [hp.validate_eq] at hvalid
  obtain ⟨hcomplete, -⟩ := Plan.validate_eq_ok.mp (Option.some.inj hvalid)
  have hcomplete' := Plan.complete_of_rewrites hrewrites hcomplete
  refine ⟨r, p'.validate, hr, hp'.validate_eq, fun e he => Plan.validate_eq_error hcomplete' he,
    fun haligned => ?_⟩
  have haligned' := Plan.aligned_of_rewrites hrewrites hp.numbered (hp.aligned_iff.mp haligned)
  exact Plan.validate_eq_ok.mpr ⟨hcomplete', fun t ht n hn c hc => (haligned' t ht n hn c hc).arity_eq⟩

/-! ## A projection behind a join -/

/-- A union of arity one of a data node and of a projection below a join. -/
def hiddenProjection (head : Atom) : PlanStore :=
  (StoreEdit.addChild ⟨0, 3⟩ (.data (.plain "b" [.var ⟨"x"⟩, .var ⟨"y"⟩]))).after
    ((StoreEdit.addChild ⟨0, 2⟩ (.projection head)).after
      ((StoreEdit.addChild ⟨0, 0⟩ (.join [])).after
        ((StoreEdit.addChild ⟨0, 0⟩ (.data (.plain "a" [.var ⟨"x"⟩]))).after
          (.single 0 (.union 1)))))

theorem reachable_hiddenProjection (head : Atom) : (hiddenProjection head).Reachable :=
  .addChild (.addChild (.addChild (.addChild (.single 0 (.union 1)) _ _) _ _) _ _) _ _

/-- The same plan as a tree. -/
def hiddenProjectionPlan (head : Atom) : Plan :=
  ⟨.node 0 (.union 1) [.leaf 1 (.data (.plain "a" [.var ⟨"x"⟩])), .node 2 (.join [])
    [.node 3 (.projection head) [.leaf 4 (.data (.plain "b" [.var ⟨"x"⟩, .var ⟨"y"⟩]))]]], 5⟩

theorem shows_hiddenProjection (head : Atom) :
    (hiddenProjection head).Shows (hiddenProjectionPlan head) := by
  have hdata := (addChild_follows ⟨0, 0⟩ (.data (.plain "a" [.var ⟨"x"⟩]))).shows_after
    (shows_single 0 (.union 1)) rfl (b := 1)
    (q := ⟨.node 0 (.union 1) [.leaf 1 (.data (.plain "a" [.var ⟨"x"⟩]))], 2⟩) (by cbv)
  have hjoin := (addChild_follows ⟨0, 0⟩ (.join [])).shows_after hdata rfl (b := 2)
    (q := ⟨.node 0 (.union 1) [.leaf 1 (.data (.plain "a" [.var ⟨"x"⟩])), .leaf 2 (.join [])], 3⟩)
    (by cbv)
  have hprojection := (addChild_follows ⟨0, 2⟩ (.projection head)).shows_after hjoin rfl (b := 3)
    (q := ⟨.node 0 (.union 1) [.leaf 1 (.data (.plain "a" [.var ⟨"x"⟩])),
      .node 2 (.join []) [.leaf 3 (.projection head)]], 4⟩) (by cbv)
  exact (addChild_follows ⟨0, 3⟩ (.data (.plain "b" [.var ⟨"x"⟩, .var ⟨"y"⟩]))).shows_after
    hprojection rfl (b := 4) (by cbv)

/-- If the projection has the arity of the union, the plan stays valid. -/
theorem validate_optimize_hiddenProjection :
    ∃ r, PlanStore.optimize (Optimizer.all.map Optimizer.proposeAt) 10
        (hiddenProjection (.plain "h" [.var ⟨"x"⟩])) = some r ∧
      (finalPlan r).validate = some (.ok ()) := by
  have hshows := shows_hiddenProjection (.plain "h" [.var ⟨"x"⟩])
  have hvalid : (hiddenProjection (.plain "h" [.var ⟨"x"⟩])).validate = some (.ok ()) := by
    rw [hshows.validate_eq]
    exact congrArg some (by cbv)
  have haligned : (hiddenProjection (.plain "h" [.var ⟨"x"⟩])).Aligned := by
    rw [hshows.aligned_iff]
    simp [hiddenProjectionPlan, PlanTree.aligned_node, PlanTree.fits_node, PlanTree.leaf,
      Operator.outputArity?, Atom.arity, Atom.args]
  obtain ⟨r, verdict, hr, hverdict, -, hok⟩ :=
    (reachable_hiddenProjection _).validate_optimize hvalid Optimizer.all 10
  exact ⟨r, hr, hok haligned ▸ hverdict⟩

/-- If it has another arity, the first change of the valid plan takes the join away, and the
projection does not fit below the union. -/
theorem optimize_hiddenProjection_invalid :
    let s := hiddenProjection (.plain "h" [.var ⟨"x"⟩, .var ⟨"y"⟩])
    s.Reachable ∧ s.validate = some (.ok ()) ∧
      ∃ r, PlanStore.optimize (Optimizer.all.map Optimizer.proposeAt) 1 s = some r ∧
        (finalPlan r).validate = some (.error (.unionArityMismatch 1 2)) := by
  intro s
  have hshows : s.Shows _ := shows_hiddenProjection (.plain "h" [.var ⟨"x"⟩, .var ⟨"y"⟩])
  have hnext : s.nextProposal (Optimizer.all.map Optimizer.proposeAt) =
      some (some (.replaceByChild ⟨0, 2⟩)) := by
    have hproposal : (hiddenProjectionPlan (.plain "h" [.var ⟨"x"⟩, .var ⟨"y"⟩])).nextProposal
        Optimizer.all = some (.replaceByChild 2) := by cbv
    rw [hshows.nextProposal_eq, hproposal]
    rfl
  have hrun : ∃ s', (StoreEdit.apply (.replaceByChild ⟨0, 2⟩)).run s = .ok () s' := ⟨_, rfl⟩
  obtain ⟨s', hrun⟩ := hrun
  obtain ⟨r, hr, hfinal⟩ := optimize_succ_of_ok hnext hrun
    (show PlanStore.optimize _ 0 s' = some (.ok 0 s') from rfl)
  have hafter := (apply_follows (.replaceByChild ⟨0, 2⟩)).shows_after hshows hrun (b := ())
    (q := (hiddenProjectionPlan (.plain "h" [.var ⟨"x"⟩, .var ⟨"y"⟩])).graft 2
      (.node 3 (.projection (.plain "h" [.var ⟨"x"⟩, .var ⟨"y"⟩]))
        [.leaf 4 (.data (.plain "b" [.var ⟨"x"⟩, .var ⟨"y"⟩]))])) (by cbv)
  rw [after, hrun] at hafter
  refine ⟨reachable_hiddenProjection _, ?_, r, hr, ?_⟩
  · rw [hshows.validate_eq]
    exact congrArg some (by cbv)
  · rw [hfinal]
    exact hafter.validate_eq.trans (congrArg some (by cbv))

end PlanStore

end OntoQuery
