import OntoQuery.Proofs.Composition
import OntoQuery.Proofs.ReachablePlan
import OntoQuery.Proofs.Resolvent
import OntoQuery.Proofs.RulePlans

/-!
# Substitution in plans in arenas

Applying a substitution to a plan goes through the slots of the arena and not through the tree,
checks the heads of projections one by one, and validates the plan when all is done.  Yet it does
all or nothing, and what it does is an action of the substitutions: the check of a composition comes
down to the checks of its parts, since a term that is not a variable never becomes one.

* `Operator.checkSubstitution_eq_ok`, `Operator.checkSubstitution_compose`: the check of a single
  operator, also for a composition.
* `Plan.validate_relabel`: substitution makes no difference to whether a plan is valid.
* `exists_run_transformNodes`: what the loop through the slots does, whatever the operators were
  before.
* `Shows.substitute_eq_ok`: when a substitution can be applied, and what comes out.
* `Reachable.substitute_exact`: the same for the plans that can be reached.
-/

namespace OntoQuery

/-- A variable stands for a variable exactly if it is bound to nothing else. -/
theorem Substitution.exists_lookup_eq_var {s : Substitution} {x : Var} :
    (∃ y, s.lookup x = .var y) ↔ ∀ t, s.get? x = some t → ∃ y, t = .var y := by
  rw [lookup]
  cases s.get? x <;> simp

/-! ## Operators -/

namespace Operator

variable (a b : Substitution) (op : Operator)

@[simp] theorem kind_substitute : (op.substitute a).kind = op.kind := by
  cases op <;> rfl

@[simp] theorem outputArity?_substitute : (op.substitute a).outputArity? = op.outputArity? := by
  cases op with
  | projection head =>
    show some (head.bind a.lookup).args.length = some head.args.length
    rw [Atom.args_bind, List.length_map]
  | _ => rfl

/-- A composition does one thing after the other. -/
theorem substitute_compose : op.substitute (b.compose a) = (op.substitute a).substitute b := by
  have hatom : (b.compose a).applyAtom = b.applyAtom ∘ a.applyAtom :=
    funext fun x => Substitution.acts_applyAtom.apply_compose b a x
  cases op <;> simp [substitute, hatom]

variable {a b op}

/-- The variables of a projection head may only stand for variables. -/
theorem checkSubstitution_eq_ok :
    op.checkSubstitution a = .ok () ↔
      ∀ head, op = .projection head → ∀ x ∈ head.vars, ∃ y, a.lookup x = .var y := by
  cases op with
  | projection head =>
    simp only [projection.injEq, forall_eq']
    rw [checkSubstitution, forM_eq_ok]
    refine forall₂_congr fun x _ => ?_
    rw [Substitution.lookup]
    cases a.get? x with
    | none => simp
    | some t => cases t <;> simp
  | _ => exact iff_of_true rfl fun _ h => absurd h (by simp)

/-- The check of a composition is the check of the inner substitution, and that of the outer one on
what this has left. -/
theorem checkSubstitution_compose :
    op.checkSubstitution (b.compose a) = .ok () ↔
      op.checkSubstitution a = .ok () ∧ (op.substitute a).checkSubstitution b = .ok () := by
  have hvar : ∀ t : Term, (∃ z, b.applyTerm t = .var z) ↔
      (∃ y, t = .var y) ∧ ∀ y ∈ t.vars, ∃ z, b.lookup y = .var z := by
    intro t
    cases t <;> simp [Substitution.applyTerm]
  cases op with
  | projection head =>
    simp only [checkSubstitution_eq_ok, substitute, projection.injEq, forall_eq',
      Substitution.lookup_compose, hvar, forall_and, Substitution.applyAtom, Atom.mem_vars_bind]
    refine and_congr_right fun _ => ?_
    constructor
    · rintro h y ⟨x, hx, hy⟩
      exact h x hx y hy
    · intro h x hx y hy
      exact h y ⟨x, hx, hy⟩
  | _ => exact iff_of_true rfl ⟨rfl, rfl⟩

end Operator

/-! ## Trees -/

variable {sub : Substitution} {f : NodeId → Operator}

namespace Plan

/-- Substitution in the operators below a union changes no arities. -/
theorem checkArities_relabel {arity : Nat} {ts : List PlanTree}
    (hf : ∀ t ∈ ts, f t.id = t.op.substitute sub) :
    checkArities arity (ts.map (PlanTree.relabel f)) = checkArities arity ts := by
  induction ts with
  | nil => rfl
  | cons t ts ih =>
    obtain ⟨ht, hts⟩ := List.forall_mem_cons.mp hf
    rw [List.map_cons, checkArities, checkArities, PlanTree.op_relabel, ht,
      Operator.outputArity?_substitute, ih hts]

theorem checkNode_relabel {t : PlanTree} (hf : ∀ s ∈ t.nodes, f s.id = s.op.substitute sub) :
    checkNode (t.relabel f) = checkNode t := by
  have harities : ∀ arity, checkArities arity (t.children.map (PlanTree.relabel f)) =
      checkArities arity t.children := fun arity =>
    checkArities_relabel fun c hc => hf c (PlanTree.mem_nodes_of_mem_children hc)
  rw [checkNode, checkNode, PlanTree.op_relabel, PlanTree.children_relabel,
    hf t (PlanTree.self_mem_nodes t), Operator.kind_substitute, List.length_map]
  cases t.op with
  | union arity => exact congrArg _ (funext fun _ => harities arity)
  | _ => rfl

/-- Substitution makes no difference to what is wrong with a plan. -/
theorem validate_relabel {p : Plan} (hf : ∀ s ∈ p.nodes, f s.id = s.op.substitute sub) :
    validate ⟨p.root.relabel f, p.next⟩ = p.validate := by
  have hnodes : nodes ⟨p.root.relabel f, p.next⟩ = p.nodes.map (PlanTree.relabel f) :=
    PlanTree.nodes_relabel f p.root
  rw [validate, validate, hnodes, List.forM_eq_forM, List.forM_map]
  refine forM_congr fun t ht => ?_
  exact checkNode_relabel fun s hs => hf s (PlanTree.mem_nodes_trans ht hs)

theorem leafAtoms_relabel {p : Plan} (hf : ∀ s ∈ p.nodes, f s.id = s.op.substitute sub) :
    (p.root.relabel f).leafAtoms = p.root.leafAtoms.map sub.applyAtom := by
  rw [PlanTree.leafAtoms, PlanTree.leafAtoms, PlanTree.nodes_relabel, List.filterMap_map,
    List.map_filterMap]
  refine List.filterMap_congr fun t ht => ?_
  rw [Function.comp_apply, PlanTree.op_relabel, hf t ht]
  cases t.op <;> rfl

end Plan

/-! ## The loop through the slots -/

namespace Transformer

/-- The transformer of a substitution has no state. -/
theorem run_apply_ofSubstitution (op : Operator) :
    ((ofSubstitution sub).apply op).run () = (op.transform sub).map fun op' => (op', ()) := by
  cases op with
  | projection head =>
    dsimp only [apply, ofSubstitution]
    rw [Operator.transform]
    cases Operator.checkSubstitution sub (.projection head) <;> rfl
  | _ => rfl

end Transformer

namespace PlanStore

open Transformer

/-- Applies a substitution to all operators, checked or not. -/
def substituted (sub : Substitution) (s : PlanStore) : PlanStore :=
  s.mapNodes fun _ n => { n with op := n.op.substitute sub }

variable {s s' : PlanStore} {p : Plan}

/-- **What the loop through the slots does.**  It fails with the first check that fails.  Otherwise
the operators of the nodes that it has come to are substituted in the end. -/
theorem exists_run_transformNodes {entries : List (Arena.Key × PlanNode)}
    (hentries : ∀ e ∈ entries, s.get? e.1 = some e.2) (sub : Substitution)
    (f : Arena.Key → Operator) :
    ∃ f', (entries.foldlM (transformNode (ofSubstitution sub)) (s.withOperators f)).run () =
        (entries.forM fun e => e.2.op.checkSubstitution sub).map (fun _ =>
          (s.withOperators f', ())) ∧
      ∀ k n, s.get? k = some n →
        f' k = if (k, n) ∈ entries then n.op.substitute sub else f k := by
  induction entries generalizing f with
  | nil => exact ⟨f, rfl, fun k n _ => (if_neg List.not_mem_nil).symm⟩
  | cons e entries ih =>
    obtain ⟨he, hentries⟩ := List.forall_mem_cons.mp hentries
    obtain ⟨f', hrun, hf'⟩ := ih hentries (Function.update f e.1 (e.2.op.substitute sub))
    refine ⟨f', ?_, fun k n hk => ?_⟩
    · rw [List.forM_eq_forM] at hrun ⊢
      rw [List.foldlM_cons, StateT.run_bind, run_transformNode he, run_apply_ofSubstitution,
        Operator.transform, List.forM_cons]
      cases e.2.op.checkSubstitution sub with
      | error err => rfl
      | ok u => exact hrun
    · rw [hf' k n hk]
      by_cases hke : k = e.1
      · subst hke
        obtain rfl := Option.some.inj (hk.symm.trans he)
        simp
      · have hne : (k, n) ≠ e := fun heq => hke (congrArg Prod.fst heq)
        rw [Function.update_of_ne hke]
        simp [hne]

/-- In the end all stored nodes are substituted. -/
theorem run_transformNodes_toList (s : PlanStore) (sub : Substitution) :
    (s.arena.toList.foldlM (transformNode (ofSubstitution sub)) s).run () =
      (s.arena.toList.forM fun e => e.2.op.checkSubstitution sub).map fun _ =>
        (s.substituted sub, ()) := by
  have hstored : ∀ e ∈ s.arena.toList, s.get? e.1 = some e.2 := fun e he => Arena.mem_toList.mp he
  obtain ⟨f, -, hf⟩ := s.exists_withOperators_self
  obtain ⟨f', hrun, hf'⟩ := exists_run_transformNodes hstored sub f
  have hall : s.withOperators f' = s.substituted sub := mapNodes_congr fun k n hk => by
    rw [hf' k n hk, if_pos (Arena.mem_toList.mpr hk)]
  rwa [← hf, hall] at hrun

/-! ## When a substitution can be applied -/

/-- What is shown after a substitution: a plan with the same verdict, and with the same atoms after
the substitution. -/
theorem Shows.substituted (h : s.Shows p) (sub : Substitution) :
    ∃ p', (s.substituted sub).Shows p' ∧ p'.validate = p.validate ∧
      p'.root.leafAtoms = p.root.leafAtoms.map sub.applyAtom := by
  obtain ⟨f, hf, heq⟩ := s.exists_withOperators (Operator.substitute sub)
  have hop : ∀ t ∈ p.nodes, (f ∘ s.key) t.id = t.op.substitute sub := fun t ht => by
    obtain ⟨q, hq⟩ := h.exists_keeps ht
    exact hf _ _ hq.get?_eq
  refine ⟨_, ?_, Plan.validate_relabel hop, Plan.leafAtoms_relabel hop⟩
  rw [PlanStore.substituted, heq]
  exact h.withOperators f

/-- Applying a substitution to a plan is checking all stored nodes, validating the plan, and only
then changing it. -/
theorem Shows.substitute_eq (h : s.Shows p) (sub : Substitution) :
    s.substitute sub = some (do
      s.arena.toList.forM fun e => e.2.op.checkSubstitution sub
      p.validate.mapError .invalidPlan
      return s.substituted sub) := by
  obtain ⟨p', hp', hvalidate, -⟩ := h.substituted sub
  unfold substitute transform
  rw [run_transformNodes_toList]
  cases s.arena.toList.forM fun e => e.2.op.checkSubstitution sub with
  | error e => rfl
  | ok u =>
    dsimp only [Except.map]
    rw [hp'.validate_eq, hvalidate]
    cases p.validate <;> rfl

/-- Whether no variable of a projection head is bound to anything but a variable. -/
def RenamesHeads (sub : Substitution) (s : PlanStore) : Prop :=
  ∀ k n head, s.get? k = some n → n.op = .projection head →
    ∀ x ∈ head.vars, ∀ t, sub.get? x = some t → ∃ y, t = .var y

/-- It asks for the check of every node. -/
theorem renamesHeads_iff : s.RenamesHeads sub ↔
    ∀ k n, s.get? k = some n → n.op.checkSubstitution sub = .ok () := by
  simp only [Operator.checkSubstitution_eq_ok, Substitution.exists_lookup_eq_var]
  exact ⟨fun h k n hk head hop => h k n head hk hop, fun h k n head hk hop => h k n hk head hop⟩

/-- The loop through the slots makes these checks. -/
theorem forM_checkSubstitution_eq_ok :
    (s.arena.toList.forM fun e => e.2.op.checkSubstitution sub) = .ok () ↔ s.RenamesHeads sub := by
  rw [forM_eq_ok, renamesHeads_iff]
  exact ⟨fun h k n hk => h (k, n) (Arena.mem_toList.mpr hk),
    fun h e he => h _ _ (Arena.mem_toList.mp he)⟩

/-- A composition renames heads exactly if one part after the other does. -/
theorem renamesHeads_compose {a b : Substitution} : s.RenamesHeads (b.compose a) ↔
    s.RenamesHeads a ∧ (s.substituted a).RenamesHeads b := by
  have hsubstituted : (s.substituted a).RenamesHeads b ↔
      ∀ k n, s.get? k = some n → (n.op.substitute a).checkSubstitution b = .ok () := by
    simp [renamesHeads_iff, PlanStore.substituted, get?_mapNodes]
  rw [hsubstituted]
  simp only [renamesHeads_iff, Operator.checkSubstitution_compose, imp_and, forall_and]

theorem Shows.substitute_eq_ok (h : s.Shows p) :
    s.substitute sub = some (.ok s') ↔
      s.validate = some (.ok ()) ∧ s.RenamesHeads sub ∧ s' = s.substituted sub := by
  rw [h.substitute_eq, h.validate_eq, Option.some_inj, Option.some_inj, bind_eq_ok]
  constructor
  · rintro ⟨_, hcheck, hrest⟩
    obtain ⟨_, hvalid, hs'⟩ := bind_eq_ok.mp hrest
    obtain rfl := Except.ok.inj hs'
    exact ⟨mapError_eq_ok.mp hvalid, forM_checkSubstitution_eq_ok.mp hcheck, rfl⟩
  · rintro ⟨hvalid, hcheck, rfl⟩
    exact ⟨(), forM_checkSubstitution_eq_ok.mpr hcheck,
      bind_eq_ok.mpr ⟨(), mapError_eq_ok.mpr hvalid, rfl⟩⟩

/-! ## What comes out -/

/-- What is the same in a plan after a substitution, and what is not. -/
structure Substituted (sub : Substitution) (s s' : PlanStore) : Prop where
  /-- The root is the same. -/
  root_eq : s'.root = s.root
  /-- So is the next key. -/
  nextKey_eq : s'.arena.nextKey = s.arena.nextKey
  /-- The same keys are in use, for nodes with the same children. -/
  children_eq : ∀ k, (s'.get? k).map PlanNode.children = (s.get? k).map PlanNode.children
  /-- The nodes have the same parents. -/
  parent_eq : ∀ k, (s'.get? k).map PlanNode.parent = (s.get? k).map PlanNode.parent
  /-- They are of the same kinds. -/
  kind_eq : ∀ k, (s'.get? k).map (fun n => n.op.kind) = (s.get? k).map fun n => n.op.kind
  /-- Their operators are substituted. -/
  op_eq : ∀ k, (s'.get? k).map PlanNode.op = (s.get? k).map fun n => n.op.substitute sub
  /-- The plan is valid. -/
  validate_eq : s'.validate = some (.ok ())
  /-- The data atoms are found as before, and they are substituted. -/
  dataAtoms_eq : ∃ as, s.dataAtoms = some (.ok as) ∧
    s'.dataAtoms = some (.ok (as.map sub.applyAtom))

theorem Shows.substituted_of_valid (h : s.Shows p) (hvalid : p.validate = .ok ())
    (sub : Substitution) : s.Substituted sub (s.substituted sub) := by
  obtain ⟨p', hp', hvalidate, hatoms⟩ := h.substituted sub
  have hvalid' : p'.validate = .ok () := hvalidate.trans hvalid
  have hdata : s.dataAtoms = some (.ok p.root.leafAtoms) := by
    rw [dataAtoms, h.fold_eq, Plan.fold, (Plan.validate_eq_ok.mp hvalid).1.fold_dataAtoms]
  have hdata' : (s.substituted sub).dataAtoms = some (.ok p'.root.leafAtoms) := by
    rw [dataAtoms, hp'.fold_eq, Plan.fold, (Plan.validate_eq_ok.mp hvalid').1.fold_dataAtoms]
  have hget : ∀ k, (s.substituted sub).get? k =
      (s.get? k).map fun n => { n with op := n.op.substitute sub } := fun k =>
    get?_mapNodes _ _ _
  refine ⟨rfl, ?_, fun k => ?_, fun k => ?_, fun k => ?_, fun k => ?_, ?_,
    _, hdata, hatoms ▸ hdata'⟩
  · exact congrArg (Arena.Key.mk _) (length_slots_mapNodes _ _)
  · rw [hget, Option.map_map]
    rfl
  · rw [hget, Option.map_map]
    rfl
  · rw [hget, Option.map_map]
    exact congrArg (Option.map · (s.get? k)) (funext fun n => Operator.kind_substitute sub n.op)
  · rw [hget, Option.map_map]
    rfl
  · rw [hp'.validate_eq, hvalid']

/-- What a composition does is what its parts do one after the other. -/
theorem substituted_compose (a b : Substitution) (s : PlanStore) :
    s.substituted (b.compose a) = (s.substituted a).substituted b := by
  rw [PlanStore.substituted, PlanStore.substituted, PlanStore.substituted, mapNodes_mapNodes]
  simp only [Operator.substitute_compose]

theorem Shows.substitute_compose (h : s.Shows p) (a b : Substitution) :
    s.substitute (b.compose a) = some (.ok s') ↔
      ∃ mid, s.substitute a = some (.ok mid) ∧ mid.substitute b = some (.ok s') := by
  obtain ⟨p', hp', hvalidate, -⟩ := h.substituted a
  have hvalid : (s.substituted a).validate = s.validate := by
    rw [hp'.validate_eq, h.validate_eq, hvalidate]
  constructor
  · intro hcompose
    obtain ⟨hs, hheads, rfl⟩ := h.substitute_eq_ok.mp hcompose
    obtain ⟨ha, hb⟩ := renamesHeads_compose.mp hheads
    exact ⟨_, h.substitute_eq_ok.mpr ⟨hs, ha, rfl⟩,
      hp'.substitute_eq_ok.mpr ⟨hvalid.trans hs, hb, substituted_compose a b s⟩⟩
  · rintro ⟨mid, hmid, hs'⟩
    obtain ⟨hs, ha, rfl⟩ := h.substitute_eq_ok.mp hmid
    obtain ⟨-, hb, rfl⟩ := hp'.substitute_eq_ok.mp hs'
    exact h.substitute_eq_ok.mpr
      ⟨hs, renamesHeads_compose.mpr ⟨ha, hb⟩, (substituted_compose a b s).symm⟩

/-- **Substitution in a plan that can be reached is all or nothing.**  It comes to an end.  It
succeeds exactly if the plan is valid and no variable of a projection head is bound to anything but
a variable.  Then it has changed the atoms and nothing else.  And a composition succeeds exactly if
its parts do one after the other, with the same plan in the end. -/
theorem Reachable.substitute_exact (h : s.Reachable) :
    (∀ sub, ∃ r, s.substitute sub = some r ∧
      ((∃ s', r = .ok s') ↔ s.validate = some (.ok ()) ∧ s.RenamesHeads sub) ∧
      ∀ s', r = .ok s' → s.Substituted sub s') ∧
    ∀ a b s', s.substitute (b.compose a) = some (.ok s') ↔
      ∃ mid, s.substitute a = some (.ok mid) ∧ mid.substitute b = some (.ok s') := by
  obtain ⟨p, hp, -⟩ := h.wellFormed
  refine ⟨fun sub => ?_, fun a b s' => hp.substitute_compose a b⟩
  obtain ⟨r, hr⟩ : ∃ r, s.substitute sub = some r := ⟨_, hp.substitute_eq sub⟩
  have hok : ∀ s', r = .ok s' ↔
      s.validate = some (.ok ()) ∧ s.RenamesHeads sub ∧ s' = s.substituted sub := fun s' => by
    rw [← hp.substitute_eq_ok, hr, Option.some_inj]
  refine ⟨r, hr, ⟨?_, ?_⟩, fun s' hs' => ?_⟩
  · rintro ⟨s', hs'⟩
    obtain ⟨hvalid, hheads, -⟩ := (hok s').mp hs'
    exact ⟨hvalid, hheads⟩
  · rintro ⟨hvalid, hheads⟩
    exact ⟨_, (hok _).mpr ⟨hvalid, hheads, rfl⟩⟩
  · obtain ⟨hvalid, -, rfl⟩ := (hok s').mp hs'
    rw [hp.validate_eq] at hvalid
    exact hp.substituted_of_valid (Option.some.inj hvalid) sub

/-- The variables of the hidden projection can be merged, but then they cannot be bound to a
constant. -/
theorem substitute_exact_hiddenProjection :
    let s := hiddenProjection (.plain "h" [.var ⟨"x"⟩, .var ⟨"y"⟩])
    let merge := Substitution.singleton ⟨"x"⟩ (.var ⟨"y"⟩)
    let bind := Substitution.singleton ⟨"y"⟩ (.iri "c")
    s.Reachable ∧
      (∃ s', s.substitute merge = some (.ok s') ∧ s'.dataAtoms =
        some (.ok [.plain "a" [.var ⟨"y"⟩], .plain "b" [.var ⟨"y"⟩, .var ⟨"y"⟩]])) ∧
      ∀ mid s', s.substitute merge = some (.ok mid) → mid.substitute bind ≠ some (.ok s') := by
  intro s merge bind
  have hreachable : s.Reachable := reachable_hiddenProjection _
  obtain ⟨hexact, hcompose⟩ := hreachable.substitute_exact
  have hshows := shows_hiddenProjection (.plain "h" [.var ⟨"x"⟩, .var ⟨"y"⟩])
  have hvalid : s.validate = some (.ok ()) := by
    rw [hshows.validate_eq]
    exact congrArg some (by cbv)
  refine ⟨hreachable, ?_, fun mid s' hmid hs' => ?_⟩
  · obtain ⟨r, hr, hok, hsubstituted⟩ := hexact merge
    obtain ⟨s', rfl⟩ := hok.mpr ⟨hvalid, forM_checkSubstitution_eq_ok.mp (by decide)⟩
    obtain ⟨as, has, has'⟩ := (hsubstituted s' rfl).dataAtoms_eq
    have hatoms : s.dataAtoms = some (.ok [.plain "a" [.var ⟨"x"⟩],
        .plain "b" [.var ⟨"x"⟩, .var ⟨"y"⟩]]) := by
      rw [dataAtoms, hshows.fold_eq]
      exact congrArg some (by cbv)
    obtain rfl := Except.ok.inj (Option.some.inj (has.symm.trans hatoms))
    exact ⟨s', hr, has'⟩
  · obtain ⟨r, hr, hok, -⟩ := hexact (bind.compose merge)
    have hsuccess := (hcompose merge bind s').mpr ⟨mid, hmid, hs'⟩
    have hheads := (hok.mp ⟨s', Option.some.inj (hr.symm.trans hsuccess)⟩).2
    have hx : (bind.compose merge).get? ⟨"x"⟩ = some (.iri "c") := by decide
    obtain ⟨y, hy⟩ := hheads ⟨0, 3⟩ _ _ rfl rfl ⟨"x"⟩ (by decide) _ hx
    exact absurd hy (by simp)

end PlanStore

end OntoQuery
