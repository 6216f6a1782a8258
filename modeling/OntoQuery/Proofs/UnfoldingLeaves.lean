import OntoQuery.Proofs.UnfoldingTree
import OntoQuery.Proofs.VariantLists

/-!
# Unfolding enumerates the leaves of a tree

The rules of the target are the roots of trees of rules.  The children of a rule are its resolvents
at the first defined atom, with one definition after another, and a rule without a defined atom is
a leaf.  `Definitions.leaves` lists the leaves with source atoms only, from left to right and down
to a depth, by recursion on the depth; `Definitions.isDeeper` says whether a branch goes on below
it.  Both are about rules up to variants, so the definitions may be renamed apart in any way.

The walk goes through these trees with one supply of variables, one set of leaves that it has seen,
and one list of leaves that it keeps.

* `Walk.Collects`: what a walk does that has some leaves to keep.  It appends those that are new, as
  long as there is room, and it notes whether it has been cut off.
* `Walk.explore_collects`: walking through the tree below a rule collects its leaves.
* `unfold_leaves`: the program that unfolding hands out is, rule by rule and up to variants, the
  list of the leaves of all trees without later variants, cut at the greatest number of rules.
-/

namespace OntoQuery

/-- The resolvent of a rule at position `i` with a definition that is renamed apart from it. -/
def Rule.resolvent (r : Rule) (i : Nat) (s : Rule) : Option Rule :=
  (r.resolve i s (FreshVars.reserve { stem := "v" } r.vars)).1

/-- However the definitions are renamed apart, the resolvents of variants with them are variants. -/
theorem Rule.IsVariant.resolveAll {r s : Rule} (h : r.IsVariant s) (i : Nat) (ds : List Rule)
    {g : FreshVars} (hg : g.Avoids s.vars) :
    List.Forall₂ Rule.IsVariant (ds.filterMap (r.resolvent i)) (s.resolveAll i ds g).1 := by
  induction ds generalizing g with
  | nil => exact .nil
  | cons d ds ih =>
    have hrest := ih (hg.mono (Rule.resolve_before s i d g) (List.Subset.refl _))
    have hrel := h.resolve i (.refl d) (FreshVars.avoids_reserve { stem := "v" } r.vars) hg
    have hall : (s.resolveAll i (d :: ds) g).1 =
        (s.resolve i d g).1.toList ++ (s.resolveAll i ds (s.resolve i d g).2).1 := rfl
    rw [hall, List.filterMap_cons, Rule.resolvent]
    generalize (r.resolve i d _).1 = o, (s.resolve i d g).1 = o' at hrel
    cases hrel with
    | none => exact hrest
    | some hv => exact .cons hv hrest

/-! ## The tree below a rule -/

namespace Definitions

variable {d : Definitions}

/-- The leaves with source atoms only in the tree below a rule, from left to right, down to a
depth. -/
def leaves (d : Definitions) : Nat → Rule → List Rule
  | depth, r =>
    match d.position? r with
    | none => if r.bodyAtoms.all d.isFinal then [r] else []
    | some i =>
      match depth with
      | 0 => []
      | depth + 1 => ((d.ofAtom r i).filterMap (r.resolvent i)).flatMap (leaves d depth)

/-- Whether a branch of the tree below a rule goes on below a depth. -/
def isDeeper (d : Definitions) : Nat → Rule → Bool
  | depth, r =>
    match d.position? r with
    | none => false
    | some i =>
      match depth with
      | 0 => true
      | depth + 1 => ((d.ofAtom r i).filterMap (r.resolvent i)).any (isDeeper d depth)

section

variable {r s : Rule} {i depth : Nat}

theorem leaves_of_leaf (h : d.position? r = none) :
    d.leaves depth r = if r.bodyAtoms.all d.isFinal then [r] else [] := by
  unfold leaves
  rw [h]

theorem leaves_zero (h : d.position? r = some i) : d.leaves 0 r = [] := by
  unfold leaves
  rw [h]

theorem leaves_succ (h : d.position? r = some i) :
    d.leaves (depth + 1) r =
      ((d.ofAtom r i).filterMap (r.resolvent i)).flatMap (d.leaves depth) := by
  rw [leaves, h]

theorem isDeeper_of_leaf (h : d.position? r = none) : d.isDeeper depth r = false := by
  unfold isDeeper
  rw [h]

theorem isDeeper_zero (h : d.position? r = some i) : d.isDeeper 0 r = true := by
  unfold isDeeper
  rw [h]

theorem isDeeper_succ (h : d.position? r = some i) :
    d.isDeeper (depth + 1) r =
      ((d.ofAtom r i).filterMap (r.resolvent i)).any (d.isDeeper depth) := by
  rw [isDeeper, h]

/-! What unfolding looks at in a rule are predicates, which variants share. -/

theorem isDefined_bind (d : Definitions) (f : Var → Term) (a : Atom) :
    d.isDefined (a.bind f) = d.isDefined a := by
  rw [isDefined, isDefined, Atom.isBuiltin_bind, Atom.predicate_bind]

theorem isFinal_bind (d : Definitions) (f : Var → Term) (a : Atom) :
    d.isFinal (a.bind f) = d.isFinal a := by
  rw [isFinal, isFinal, Atom.isBuiltin_bind, Atom.predicate_bind]

theorem position?_eq_of_isVariant (d : Definitions) (h : r.IsVariant s) :
    d.position? s = d.position? r := by
  obtain ⟨name, -, rfl⟩ := h
  rw [position?, position?, Rule.bodyAtoms_bind, List.findIdx?_map]
  congr 1
  funext a
  exact d.isDefined_bind _ a

theorem ofAtom_eq_of_isVariant (d : Definitions) (h : r.IsVariant s) (i : Nat) :
    d.ofAtom s i = d.ofAtom r i := by
  obtain ⟨name, -, rfl⟩ := h
  rw [ofAtom, ofAtom, Rule.bodyAtoms_bind, List.getElem?_map]
  cases r.bodyAtoms[i]? with
  | none => rfl
  | some a => simp only [Option.map_some, Atom.predicate_bind]

theorem all_isFinal_eq_of_isVariant (d : Definitions) (h : r.IsVariant s) :
    s.bodyAtoms.all d.isFinal = r.bodyAtoms.all d.isFinal := by
  obtain ⟨name, -, rfl⟩ := h
  rw [Rule.bodyAtoms_bind, List.all_map]
  congr 1
  funext a
  exact d.isFinal_bind _ a

end

end Definitions

/-! ## What a walk collects -/

namespace Walk

variable {d : Definitions} {cfg : Settings} {w w' : Walk} {deep deep' : Bool}
  {rules rules' : List Rule}

/-- The canonical forms of the leaves that have been kept. -/
def forms (w : Walk) : List Rule := w.found.toList.map Rule.canonical

/-- The canonical forms of the leaves that have been kept once all new ones among some rules have
been added. -/
def formsWith (w : Walk) (rules : List Rule) : List Rule :=
  (w.forms ++ rules.map Rule.canonical).eraseDups

/-- The invariant of the walk. -/
structure Tidy (cfg : Settings) (w : Walk) : Prop where
  /-- What has been seen are the variants of the leaves that have been kept. -/
  records : w.seen.Records w.found.toList
  /-- No two of them are variants. -/
  nodup : w.forms.Nodup
  /-- There are not too many. -/
  bounded : w.forms.length ≤ cfg.maxRules

/-- The state of a walk that has kept all new ones among some leaves. -/
structure Collected (cfg : Settings) (w : Walk) (rules : List Rule) (deep : Bool) (w' : Walk) :
    Prop where
  /-- The invariant holds. -/
  tidy : w'.Tidy cfg
  /-- The supply goes on. -/
  before : w.fresh.Before w'.fresh
  /-- All that is new has been kept. -/
  forms : w'.forms = w.formsWith rules
  /-- If the walk has been cut off, then it was allowed to go on. -/
  policy : deep = true → cfg.cyclePolicy = .keepPartial
  /-- It has been noted whether it was. -/
  hit : w'.hit = if deep then some .depth else w.hit

/-- The state of a walk that was stopped: it was cut off, or some leaf was one too many. -/
def Stopped (cfg : Settings) (w : Walk) (rules : List Rule) (deep : Bool) (w' : Walk) : Prop :=
  deep = true ∧ cfg.cyclePolicy = .abort ∧ w'.hit = some .depth ∨
    w'.hit = some .rules ∧ cfg.maxRules < (w.formsWith rules).length ∧
      w'.forms = (w.formsWith rules).take cfg.maxRules

/-- What a walk does that has some leaves to keep. -/
def Collects (cfg : Settings) (w : Walk) (rules : List Rule) (deep : Bool) :
    Except Walk Walk → Prop
  | .ok w' => Collected cfg w rules deep w'
  | .error w' => Stopped cfg w rules deep w'

theorem Tidy.formsWith_nil (hw : w.Tidy cfg) : w.formsWith [] = w.forms := by
  rw [formsWith, List.map_nil, List.append_nil, eraseDups_of_nodup hw.nodup]

theorem formsWith_append (w : Walk) (rules rules' : List Rule) :
    (w.formsWith rules ++ rules'.map Rule.canonical).eraseDups = w.formsWith (rules ++ rules') := by
  rw [formsWith, formsWith, eraseDups_eraseDups_append, List.map_append, List.append_assoc]

theorem formsWith_prefix (w : Walk) (rules rules' : List Rule) :
    w.formsWith rules <+: w.formsWith (rules ++ rules') := by
  rw [formsWith, formsWith, List.map_append, ← List.append_assoc]
  exact eraseDups_prefix _ _

/-! ### Two walks in a row -/

theorem Collected.formsWith_eq (h : Collected cfg w rules deep w') (rules' : List Rule) :
    w'.formsWith rules' = w.formsWith (rules ++ rules') := by
  rw [formsWith, h.forms, formsWith_append]

/-- A walk that was stopped has kept what it would have kept with more leaves to come. -/
theorem Stopped.append (h : Stopped cfg w rules deep w') (rules' : List Rule) (deep' : Bool) :
    Stopped cfg w (rules ++ rules') (deep || deep') w' := by
  rcases h with ⟨rfl, hpolicy, hhit⟩ | ⟨hhit, hlt, hforms⟩
  · exact Or.inl ⟨Bool.true_or _, hpolicy, hhit⟩
  · obtain ⟨rest, hrest⟩ := w.formsWith_prefix rules rules'
    refine Or.inr ⟨hhit, ?_, ?_⟩
    · rw [← hrest, List.length_append]
      omega
    · rw [← hrest, List.take_append_of_le_length (Nat.le_of_lt hlt)]
      exact hforms

/-- One walk after another collects the leaves of both. -/
theorem Collects.bind {x : Except Walk Walk} {f : Walk → Except Walk Walk}
    (hx : Collects cfg w rules deep x)
    (hf : ∀ w', Collected cfg w rules deep w' → Collects cfg w' rules' deep' (f w')) :
    Collects cfg w (rules ++ rules') (deep || deep') (x >>= f) := by
  cases x with
  | error v => exact hx.append rules' deep'
  | ok v =>
    have hfirst : Collected cfg w rules deep v := hx
    have hsecond := hf v hfirst
    show Collects cfg w (rules ++ rules') (deep || deep') (f v)
    cases hfv : f v with
    | error v' =>
      rw [hfv] at hsecond
      rcases hsecond with ⟨rfl, hpolicy, hhit⟩ | ⟨hhit, hlt, hforms⟩
      · exact Or.inl ⟨Bool.or_true _, hpolicy, hhit⟩
      · rw [hfirst.formsWith_eq] at hlt hforms
        exact Or.inr ⟨hhit, hlt, hforms⟩
    | ok v' =>
      rw [hfv] at hsecond
      have hsecond : Collected cfg v rules' deep' v' := hsecond
      refine ⟨hsecond.tidy, hfirst.before.trans hsecond.before, ?_, fun h => ?_, ?_⟩
      · rw [hsecond.forms, hfirst.formsWith_eq]
      · rcases Bool.or_eq_true _ _ ▸ h with h | h
        · exact hfirst.policy h
        · exact hsecond.policy h
      · rw [hsecond.hit, hfirst.hit]
        cases deep <;> cases deep' <;> rfl

/-- A walk may begin with a supply that has gone on. -/
theorem Collects.of_before {g : FreshVars} {x : Except Walk Walk}
    (h : Collects cfg { w with fresh := g } rules deep x) (hg : w.fresh.Before g) :
    Collects cfg w rules deep x := by
  cases x with
  | error v => exact h
  | ok v =>
    have h : Collected cfg { w with fresh := g } rules deep v := h
    exact ⟨h.tidy, hg.trans h.before, h.forms, h.policy, h.hit⟩

/-! ### One leaf -/

theorem Tidy.collected_nil (hw : w.Tidy cfg) : Collected cfg w [] false w :=
  ⟨hw, FreshVars.Before.refl _, hw.formsWith_nil.symm, fun h => absurd h (by simp), rfl⟩

theorem Tidy.cut_collects (hw : w.Tidy cfg) : Collects cfg w [] true (cut cfg w) := by
  unfold cut
  cases hpolicy : cfg.cyclePolicy with
  | abort => exact Or.inl ⟨rfl, hpolicy, rfl⟩
  | keepPartial =>
    exact ⟨⟨hw.records, hw.nodup, hw.bounded⟩, FreshVars.Before.refl _, hw.formsWith_nil.symm,
      fun _ => hpolicy, rfl⟩

/-- A leaf is new if its canonical form is none of those that have been kept. -/
theorem Tidy.contains_iff (hw : w.Tidy cfg) (r : Rule) :
    w.seen.contains r = true ↔ r.canonical ∈ w.forms := by
  rw [hw.records r, forms, List.mem_map]

theorem formsWith_of_mem (hw : w.Tidy cfg) {r : Rule} (hr : r.canonical ∈ w.forms) :
    w.formsWith [r] = w.forms := by
  have hremove : [r.canonical].removeAll w.forms = [] := by
    simp [List.removeAll, hr]
  rw [formsWith, List.map_singleton, List.eraseDups_append, hremove, List.eraseDups_nil,
    List.append_nil, eraseDups_of_nodup hw.nodup]

theorem formsWith_of_notMem (hw : w.Tidy cfg) {r : Rule} (hr : r.canonical ∉ w.forms) :
    w.formsWith [r] = w.forms ++ [r.canonical] := by
  refine eraseDups_of_nodup (List.nodup_append.mpr ⟨hw.nodup, by simp, ?_⟩)
  intro c hc c' hc' he
  rw [List.map_singleton, List.mem_singleton] at hc'
  exact hr (hc' ▸ he ▸ hc)

/-- A leaf that is to be kept is collected, and any variant of it will do. -/
theorem Tidy.keep_collects (hw : w.Tidy cfg) {r s : Rule} (h : r.IsVariant s) :
    Collects cfg w [r] false (keep cfg w s) := by
  have hlength : w.forms.length = w.found.size := by
    rw [forms, List.length_map, Array.length_toList]
  unfold keep
  by_cases hseen : w.seen.contains s = true
  · rw [if_pos hseen]
    have hold : r.canonical ∈ w.forms := h.canonical_eq ▸ (hw.contains_iff s).mp hseen
    exact ⟨hw, FreshVars.Before.refl _, (formsWith_of_mem hw hold).symm,
      fun h => absurd h (by simp), rfl⟩
  · rw [if_neg hseen]
    have hnew : w.formsWith [r] = w.forms ++ [s.canonical] := by
      rw [← h.canonical_eq]
      exact formsWith_of_notMem hw fun hr => hseen ((hw.contains_iff s).mpr (h.canonical_eq ▸ hr))
    by_cases hfull : cfg.maxRules ≤ w.found.size
    · rw [if_pos hfull]
      refine Or.inr ⟨rfl, ?_, ?_⟩
      · rw [hnew, List.length_append, List.length_singleton]
        omega
      · rw [hnew, List.take_append_of_le_length (by omega)]
        exact (List.take_of_length_le hw.bounded).symm
    · rw [if_neg hfull]
      have hforms : forms { w with seen := w.seen.insert s, found := w.found.push s } =
          w.formsWith [r] := by
        rw [hnew, forms, Array.toList_push, List.map_append, List.map_singleton, forms]
      refine ⟨⟨?_, ?_, ?_⟩, FreshVars.Before.refl _, hforms, fun h => absurd h (by simp), rfl⟩
      · show (w.seen.insert s).Records (w.found.push s).toList
        rw [Array.toList_push]
        exact hw.records.insert s
      · rw [hforms]
        exact nodup_eraseDups _
      · rw [hforms, hnew, List.length_append, List.length_singleton]
        omega

/-! ### The tree below a rule -/

/-- Walking from one rule after another, each a variant of a root, collects the leaves of all the
trees, if each walk collects those of its own tree. -/
theorem exploreAll_collects {depth : Nat}
    (hstep : ∀ {r s : Rule} {v : Walk}, r.IsVariant s → v.Tidy cfg → v.fresh.Avoids s.vars →
      Collects cfg v (d.leaves depth r) (d.isDeeper depth r) (explore d cfg depth v s))
    {rs ss : List Rule} (h : List.Forall₂ Rule.IsVariant rs ss) (hw : w.Tidy cfg)
    (hg : ∀ s ∈ ss, w.fresh.Avoids s.vars) :
    Collects cfg w (rs.flatMap (d.leaves depth)) (rs.any (d.isDeeper depth))
      (ss.foldlM (explore d cfg depth) w) := by
  induction h generalizing w with
  | nil => exact hw.collected_nil
  | @cons r s rs ss hv _ ih =>
    rw [List.flatMap_cons, List.any_cons, List.foldlM_cons]
    refine (hstep hv hw (hg s (List.mem_cons_self ..))).bind fun w' hw' => ?_
    exact ih hw'.tidy fun t ht =>
      (hg t (List.mem_cons_of_mem _ ht)).mono hw'.before (List.Subset.refl _)

/-- At a leaf there is only this leaf to keep, if it has source atoms only. -/
theorem explore_leaf_collects {depth : Nat} {r s : Rule} (h : r.IsVariant s) (hw : w.Tidy cfg)
    (hr : d.position? r = none) :
    Collects cfg w (d.leaves depth r) (d.isDeeper depth r) (explore d cfg depth w s) := by
  have hpos : d.position? s = none := (d.position?_eq_of_isVariant h).trans hr
  rw [explore_of_leaf hpos, d.leaves_of_leaf hr, d.isDeeper_of_leaf hr,
    d.all_isFinal_eq_of_isVariant h]
  split
  · exact hw.keep_collects h
  · exact hw.collected_nil

/-- Walking through the tree below a variant of a rule collects the leaves of the tree below the
rule. -/
theorem explore_collects {depth : Nat} {r s : Rule} (h : r.IsVariant s) (hw : w.Tidy cfg)
    (hg : w.fresh.Avoids s.vars) :
    Collects cfg w (d.leaves depth r) (d.isDeeper depth r) (explore d cfg depth w s) := by
  induction depth generalizing w r s with
  | zero =>
    have hpos := d.position?_eq_of_isVariant h
    cases hr : d.position? r with
    | none => exact explore_leaf_collects h hw hr
    | some i =>
      rw [hr] at hpos
      rw [explore_zero hpos, d.leaves_zero hr, d.isDeeper_zero hr]
      exact hw.cut_collects
  | succ depth ih =>
    have hpos := d.position?_eq_of_isVariant h
    cases hr : d.position? r with
    | none => exact explore_leaf_collects h hw hr
    | some i =>
      rw [hr] at hpos
      rw [explore_succ hpos, d.leaves_succ hr, d.isDeeper_succ hr, ← d.ofAtom_eq_of_isVariant h]
      have hbefore := Rule.resolveAll_before s i (d.ofAtom s i) w.fresh
      have hstart : Tidy cfg { w with fresh := (s.resolveAll i (d.ofAtom s i) w.fresh).2 } :=
        ⟨hw.records, hw.nodup, hw.bounded⟩
      exact (exploreAll_collects ih (h.resolveAll i _ hg) hstart fun t ht =>
        (Rule.exists_of_mem_resolveAll hg ht).1).of_before hbefore

/-! ### The walk through all trees -/

theorem start_tidy (cfg : Settings) (roots : List Rule) (d : Definitions) :
    (start cfg roots d).Tidy cfg :=
  ⟨RuleSet.records_nil, List.nodup_nil, Nat.zero_le _⟩

/-- The walk from some roots collects the leaves of their trees. -/
theorem start_collects (cfg : Settings) (roots : List Rule) (d : Definitions) :
    Collects cfg (start cfg roots d) (roots.flatMap (d.leaves cfg.maxDepth))
      (roots.any (d.isDeeper cfg.maxDepth))
      (roots.foldlM (explore d cfg cfg.maxDepth) (start cfg roots d)) :=
  exploreAll_collects explore_collects (List.forall₂_same.mpr fun r _ => Rule.IsVariant.refl r)
    (start_tidy cfg roots d) fun _ hr => start_avoids hr

/-- The leaves that have been kept in the end, if the walk may not have been cut off unnoticed. -/
theorem Collects.forms_final {x : Except Walk Walk} (h : Collects cfg w rules deep x)
    (hcut : cfg.cyclePolicy = .keepPartial ∨ (final x).hit = none) :
    (final x).forms = (w.formsWith rules).take cfg.maxRules := by
  cases x with
  | ok v =>
    have h : Collected cfg w rules deep v := h
    have hlength := h.tidy.bounded
    rw [h.forms] at hlength
    rw [List.take_of_length_le hlength]
    exact h.forms
  | error v =>
    rcases h with ⟨-, hpolicy, hhit⟩ | ⟨-, -, hforms⟩
    · rcases hcut with hcut | hcut
      · exact absurd (hpolicy.symm.trans hcut) (by decide)
      · exact absurd (hhit.symm.trans hcut) (by simp)
    · exact hforms

end Walk

/-! ## The outcome of unfolding -/

namespace Program

/-- The predicates on cycles of dependencies that are found from a target. -/
def cyclic (query : Program) (mappings : List Rule) (target : Symbol) : List Symbol :=
  ((DependencyGraph.ofRules (query.rulesWithHead target ++
    (Definitions.ofQuery query mappings target).rules.rules)).cycles [target]).flatten

/-- The state in which the walk from the rules of a target ends. -/
def walk (query : Program) (mappings : List Rule) (cfg : Settings) (target : Symbol) : Walk :=
  Walk.final ((query.rulesWithHead target).foldlM
    (Walk.explore (Definitions.ofQuery query mappings target) cfg cfg.maxDepth)
    (Walk.start cfg (query.rulesWithHead target) (Definitions.ofQuery query mappings target)))

/-- The leaves that an error carries. -/
def kept (cfg : Settings) (w : Walk) : Option Program :=
  if cfg.cyclePolicy = .keepPartial then some ⟨w.found.toList⟩ else none

variable {query : Program} {mappings : List Rule} {cfg : Settings} {target : Symbol} {p : Program}

theorem unfold_of_undefined (h : query.rulesWithHead target = []) :
    query.unfold mappings cfg target = .error (.targetNotDefined target.name) := by
  unfold Program.unfold
  simp [h]

/-- If recursive definitions can be reached, unfolding ends in an error. -/
theorem unfold_of_cyclic (hdef : query.rulesWithHead target ≠ [])
    (h : query.cyclic mappings target ≠ []) :
    query.unfold mappings cfg target =
      .error (.cycleDetected (query.cyclic mappings target)
        (kept cfg (query.walk mappings cfg target))) := by
  have hroots : (query.rulesWithHead target).isEmpty = false := by simpa using hdef
  have hcyclic : (query.cyclic mappings target).isEmpty = false := by simpa using h
  unfold cyclic at hcyclic
  unfold Program.unfold kept
  cases hpolicy : cfg.cyclePolicy <;>
    simp only [hroots, hcyclic, reduceCtorEq, decide_true, decide_false, Bool.not_true,
      Bool.not_false, Bool.and_true, Bool.and_false, Bool.false_eq_true, if_true, if_false]
  · rfl
  · rfl

/-- If there are none, it ends as the walk does. -/
theorem unfold_of_acyclic (hdef : query.rulesWithHead target ≠ [])
    (h : query.cyclic mappings target = []) :
    query.unfold mappings cfg target =
      match (query.walk mappings cfg target).hit with
      | none => .ok ⟨(query.walk mappings cfg target).found.toList⟩
      | some .depth =>
        .error (.boundExceeded .depth cfg.maxDepth (kept cfg (query.walk mappings cfg target)))
      | some .rules =>
        .error
          (.boundExceeded .rules cfg.maxRules (kept cfg (query.walk mappings cfg target))) := by
  have hroots : (query.rulesWithHead target).isEmpty = false := by simpa using hdef
  unfold cyclic at h
  unfold Program.unfold
  simp only [h, hroots, List.isEmpty_nil, Bool.not_true, Bool.false_and, Bool.false_eq_true,
    if_false]
  rfl

/-- What unfolding hands out is what has been kept in the end, unless the walk has been cut off, or
left out for recursion, under the policy `abort`. -/
theorem program?_unfold (hdef : query.rulesWithHead target ≠ []) :
    RewritingError.program? (query.unfold mappings cfg target) =
      if query.cyclic mappings target = [] ∧ (query.walk mappings cfg target).hit = none then
        some ⟨(query.walk mappings cfg target).found.toList⟩
      else kept cfg (query.walk mappings cfg target) := by
  by_cases hcyclic : query.cyclic mappings target = []
  · rw [unfold_of_acyclic hdef hcyclic]
    cases hhit : (query.walk mappings cfg target).hit with
    | none => rw [if_pos ⟨hcyclic, rfl⟩, RewritingError.program?]
    | some bound =>
      rw [if_neg (by simp)]
      cases bound <;> rfl
  · rw [unfold_of_cyclic hdef hcyclic, if_neg fun h => hcyclic h.1]
    rfl

/-- What unfolding hands out is what the walk has kept, and the walk has not been cut off
unnoticed. -/
theorem rules_eq_of_program?
    (h : RewritingError.program? (query.unfold mappings cfg target) = some p) :
    p.rules = (query.walk mappings cfg target).found.toList ∧
      (cfg.cyclePolicy = .keepPartial ∨ (query.walk mappings cfg target).hit = none) := by
  have hdef : query.rulesWithHead target ≠ [] := by
    intro hdef
    rw [unfold_of_undefined hdef] at h
    exact absurd h (by simp [RewritingError.program?, RewritingError.found?])
  rw [program?_unfold hdef] at h
  split at h
  · next hwell => exact ⟨congrArg Program.rules (Option.some.inj h).symm, Or.inr hwell.2⟩
  · rw [kept] at h
    split at h
    · next hpolicy => exact ⟨congrArg Program.rules (Option.some.inj h).symm, Or.inl hpolicy⟩
    · exact absurd h (by simp)

/-- The program that unfolding hands out, with an error or without, is rule by rule, up to variants,
the list of the leaves in the trees of the rules of the target, from left to right and down to the
greatest depth, without later variants and cut at the greatest number of rules.  Under the policy
`keepPartial` there always is such a program. -/
theorem unfold_leaves (query : Program) (mappings : List Rule) (cfg : Settings) (target : Symbol) :
    (cfg.cyclePolicy = .keepPartial → query.rulesWithHead target ≠ [] →
      (RewritingError.program? (query.unfold mappings cfg target)).isSome) ∧
    ∀ p, RewritingError.program? (query.unfold mappings cfg target) = some p →
      List.Forall₂ Rule.IsVariant p.rules
        ((Rule.firstVariants ((query.rulesWithHead target).flatMap
          ((Definitions.ofQuery query mappings target).leaves cfg.maxDepth))).take
            cfg.maxRules) := by
  constructor
  · intro hpolicy hdef
    rw [program?_unfold hdef, kept, if_pos hpolicy]
    split <;> rfl
  · intro p hp
    obtain ⟨hfound, hcut⟩ := rules_eq_of_program? hp
    have hcollects := Walk.start_collects cfg (query.rulesWithHead target)
      (Definitions.ofQuery query mappings target)
    rw [Rule.forall₂_isVariant_iff, List.map_take, Rule.map_canonical_firstVariants, hfound]
    exact hcollects.forms_final hcut

/-- The ways, `w`: along a road, `r`, or along a track, `t`, and a way. -/
def ways : List Rule :=
  [⟨some (.plain "w" [.var ⟨"x"⟩, .var ⟨"y"⟩]), some [.plain "r" [.var ⟨"x"⟩, .var ⟨"y"⟩]]⟩,
    ⟨some (.plain "w" [.var ⟨"x"⟩, .var ⟨"z"⟩]),
      some [.plain "t" [.var ⟨"x"⟩, .var ⟨"y"⟩], .plain "w" [.var ⟨"y"⟩, .var ⟨"z"⟩]]⟩]

/-- A query for a way from one place to another. -/
def someWay : Program :=
  ⟨[⟨some (.plain "q" []), some [.plain "w" [.iri "a", .iri "b"]]⟩]⟩

/-- The ways along no track and along one. -/
def shortWays : Program :=
  ⟨[⟨some (.plain "q" []), some [.plain "r" [.iri "a", .iri "b"]]⟩,
    ⟨some (.plain "q" []),
      some [.plain "t" [.iri "a", .var ⟨"_v4"⟩], .plain "r" [.var ⟨"_v4"⟩, .iri "b"]]⟩]⟩

/-- Unfolding the query down to depth 2 reports the recursion and hands out the ways along at most
one track, which are the leaves down to that depth. -/
theorem unfold_leaves_someWay :
    someWay.unfold ways { maxDepth := 2, cyclePolicy := .keepPartial } ⟨"q", 0⟩ =
      .error (.cycleDetected [⟨"w", 2⟩] (some shortWays)) ∧
    List.Forall₂ Rule.IsVariant shortWays.rules
      ((Rule.firstVariants ((someWay.rulesWithHead ⟨"q", 0⟩).flatMap
        ((Definitions.ofQuery someWay ways ⟨"q", 0⟩).leaves 2))).take 10000) := by
  have h : someWay.unfold ways { maxDepth := 2, cyclePolicy := .keepPartial } ⟨"q", 0⟩ =
      .error (.cycleDetected [⟨"w", 2⟩] (some shortWays)) := by cbv
  refine ⟨h, (unfold_leaves someWay ways { maxDepth := 2, cyclePolicy := .keepPartial }
    ⟨"q", 0⟩).2 shortWays ?_⟩
  rw [h]
  rfl

end Program

end OntoQuery
