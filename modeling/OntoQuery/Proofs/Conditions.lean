import OntoQuery.Proofs.Composition
import OntoQuery.Proofs.SaturationLevels
import OntoQuery.Proofs.UnfoldingLeaves

/-!
# Conditions are carried along

Built-in atoms are conditions.  Resolution replaces an atom that unifies with the head of a
definition, so it takes an atom away only if there is a definition for its predicate.  All other
atoms, those of the rule at the start and those that definitions have brought in, are still there in
the end, under the composition of all unifiers.

A `Derivation` records the definitions that have been used, as they have been renamed, and the
composed unifiers.  The composition means the same to each definition as the unifiers that came
after it, because the supply of variables has not handed out any of its variables before.

* `Derivation.mem_bodyAtoms`: an atom that no definition is for stays.
* `Traced`: a rule has a derivation whose variables the supply avoids.  A resolution step keeps this
  (`Traced.resolve`), and so the walk of unfolding (`Walk.explore_traces`) and the search of
  rewriting (`Ontology.Search.rounds_traces`) find such rules only.
* `conditions_kept`: unfolding keeps all conditions, and rewriting keeps those for whose predicate
  there is no ontology rule.
-/

namespace OntoQuery

/-! ## Derivations -/

/-- A derivation of a rule from `r₀` by resolution, where `steps` says at which positions a rule may
be resolved, and with which definitions.  It lists the definitions that have been used, each as it
has been renamed apart from everything before, and the substitution that all unifiers make
together. -/
inductive Derivation (steps : Rule → List (Nat × Rule)) (r₀ : Rule) :
    List Rule → Substitution → Rule → Prop where
  /-- No definition has been used. -/
  | start : Derivation steps r₀ [] .empty r₀
  /-- One more definition is used. -/
  | step {used : List Rule} {s : Substitution} {r d : Rule} {i : Nat} {g : FreshVars}
      {a head : Atom} {u : Substitution} (h : Derivation steps r₀ used s r) (hs : (i, d) ∈ steps r)
      (hg : g.Avoids (r₀.vars ++ used.flatMap Rule.vars)) (ha : r.bodyAtoms[i]? = some a)
      (hd : d.head = some head)
      (hu : unifyAtoms ((g.renamingFor d.vars).1.applyAtom head) a = some u) :
      Derivation steps r₀ (used ++ [(g.renamingFor d.vars).1.applyRule d]) (u.compose s)
        (u.applyRule (r.splice i ((g.renamingFor d.vars).1.applyRule d).bodyAtoms))

namespace Derivation

variable {steps : Rule → List (Nat × Rule)} {r₀ r : Rule} {used : List Rule} {s : Substitution}

/-- What the variables of a derivation are once one more definition has been used. -/
theorem vars_concat (r₀ : Rule) (used : List Rule) (d : Rule) :
    r₀.vars ++ (used ++ [d]).flatMap Rule.vars =
      (r₀.vars ++ used.flatMap Rule.vars) ++ d.vars := by
  rw [List.flatMap_append, List.flatMap_singleton, List.append_assoc]

/-- The variables of a rule that is derived are those of the start and of the definitions used. -/
theorem vars_subset (h : Derivation steps r₀ used s r) :
    r.vars ⊆ r₀.vars ++ used.flatMap Rule.vars := by
  induction h with
  | start => exact List.subset_append_left _ _
  | @step used s r d i g a head u _ _ _ ha hd hu ih =>
    rw [vars_concat]
    intro x hx
    rcases List.mem_append.mp (Rule.vars_resolvent_subset ha hd hu hx) with hx | hx
    · exact List.mem_append_left _ (ih hx)
    · exact List.mem_append_right _ hx

/-- No other variables are bound. -/
theorem lookup_eq_var (h : Derivation steps r₀ used s r) {x : Var}
    (hx : x ∉ r₀.vars ++ used.flatMap Rule.vars) : s.lookup x = .var x := by
  induction h with
  | start => exact Substitution.lookup_empty x
  | @step used s r d i g a head u h _ _ ha hd hu ih =>
    rw [vars_concat, List.mem_append, not_or] at hx
    rw [Substitution.lookup_compose, ih hx.1]
    refine lookup_eq_var_of_unifyAtoms hu fun hxa => ?_
    rcases List.mem_append.mp hxa with hxa | hxa
    · exact hx.2 (Rule.vars_applyAtom_head_subset hd hxa)
    · exact hx.1 (h.vars_subset (Rule.vars_body_subset (List.mem_of_getElem? ha) hxa))

/-- A body atom of the rule at the start, or of a definition that has been used, is still there, if
no definition that may be used is for its predicate. -/
theorem mem_bodyAtoms (h : Derivation steps r₀ used s r) {b : Atom}
    (hb : b ∈ r₀.bodyAtoms ∨ ∃ d ∈ used, b ∈ d.bodyAtoms)
    (hsteps : ∀ r, ∀ step ∈ steps r, step.2.headPredicate? ≠ some b.predicate) :
    s.applyAtom b ∈ r.bodyAtoms := by
  induction h with
  | start =>
    rw [Substitution.acts_applyAtom.apply_empty]
    exact hb.resolve_right (by simp)
  | @step used s r d i g a head u h hs hg ha hd hu ih =>
    rw [Substitution.acts_applyAtom.apply_compose, Substitution.applyRule, Rule.bodyAtoms_bind]
    refine List.mem_map_of_mem ?_
    by_cases hold : b ∈ r₀.bodyAtoms ∨ ∃ d ∈ used, b ∈ d.bodyAtoms
    · -- the atom is not the one that is replaced, for which there is a definition
      have hne : s.applyAtom b ≠ a := by
        rintro rfl
        refine hsteps r _ hs ?_
        have hpred := predicate_eq_of_unifyAtoms hu
        rw [Renaming.applyAtom, Atom.predicate_bind, Substitution.applyAtom,
          Atom.predicate_bind] at hpred
        rw [Rule.headPredicate?, hd, Option.map_some, hpred]
      exact Rule.mem_bodyAtoms_splice_of_ne ha (ih hold) hne
    · -- the atom comes from the new definition, to which the earlier unifiers mean nothing
      have hnew : b ∈ ((g.renamingFor d.vars).1.applyRule d).bodyAtoms := by
        rcases hb with hb | ⟨e, he, hb⟩
        · exact absurd (Or.inl hb) hold
        · rcases List.mem_append.mp he with he | he
          · exact absurd (Or.inr ⟨e, he, hb⟩) hold
          · rwa [List.mem_singleton.mp he] at hb
      have hself : s.applyAtom b = b := by
        refine (Atom.isReplacement.bind_eq_self_iff _ b).mpr fun x hx =>
          h.lookup_eq_var fun hmem => ?_
        obtain ⟨y, hy, rfl⟩ :=
          List.mem_map.mp (Rule.mem_vars_applyRule (Rule.vars_body_subset hnew hx))
        exact (g.renamingFor_renamesApart d.vars).apart hg y hy hmem
      rw [hself, Rule.bodyAtoms_splice]
      exact List.mem_append_left _ (List.mem_append_right _ hnew)

end Derivation

/-! ## Rules with a derivation -/

/-- Whether a rule is derived from one of the roots, and a supply avoids all variables of the
derivation. -/
def Traced (roots : List Rule) (steps : Rule → List (Nat × Rule)) (g : FreshVars) (r : Rule) :
    Prop :=
  ∃ r₀ ∈ roots, ∃ used s, Derivation steps r₀ used s r ∧
    g.Avoids (r₀.vars ++ used.flatMap Rule.vars)

section

variable {roots : List Rule} {steps : Rule → List (Nat × Rule)} {g g' : FreshVars} {r r' d : Rule}
  {i : Nat}

theorem Traced.mono (h : Traced roots steps g r) (hg : g.Before g') : Traced roots steps g' r := by
  obtain ⟨r₀, hr₀, used, s, hderivation, havoids⟩ := h
  exact ⟨r₀, hr₀, used, s, hderivation, havoids.mono hg (List.Subset.refl _)⟩

theorem traced_root (hr : r ∈ roots) (hg : g.Avoids r.vars) : Traced roots steps g r :=
  ⟨r, hr, [], .empty, .start, by rwa [List.flatMap_nil, List.append_nil]⟩

/-- A resolvent is derived if the rule is. -/
theorem Traced.resolve (h : Traced roots steps g r) (hs : (i, d) ∈ steps r)
    (hr' : (r.resolve i d g).1 = some r') : Traced roots steps (r.resolve i d g).2 r' := by
  obtain ⟨r₀, hr₀, used, s, hderivation, havoids⟩ := h
  have hbefore := (g.renamingFor_renamesApart d.vars).before
  rw [Rule.resolve_snd hr']
  obtain ⟨a, head, u, ha, hd, hu, rfl⟩ := Rule.resolve_eq_some.mp hr'
  refine ⟨r₀, hr₀, _, _, .step hderivation hs havoids ha hd hu, ?_⟩
  rw [Derivation.vars_concat]
  exact (havoids.mono hbefore (List.Subset.refl _)).append (Rule.renamingFor_avoids g d)

theorem Traced.resolveAll {ds : List Rule} (h : Traced roots steps g r)
    (hs : ∀ d ∈ ds, (i, d) ∈ steps r) :
    ∀ c ∈ (r.resolveAll i ds g).1, Traced roots steps (r.resolveAll i ds g).2 c := by
  induction ds generalizing g with
  | nil => exact fun c hc => absurd hc (by simp [Rule.resolveAll])
  | cons d ds ih =>
    intro c hc
    have hbefore := Rule.resolve_before r i d g
    rcases List.mem_append.mp hc with hc | hc
    · exact (h.resolve (hs d (List.mem_cons_self ..)) (Option.mem_toList.mp hc)).mono
        (Rule.resolveAll_before r i ds _)
    · exact ih (h.mono hbefore) (fun e he => hs e (List.mem_cons_of_mem _ he)) c hc

end

/-! ## Unfolding -/

namespace Walk

variable {roots : List Rule} {d : Definitions} {cfg : Settings} {g : FreshVars} {w : Walk}
  {r : Rule} {depth : Nat}

/-- Whether the leaves that have been kept are derived, since the supply was `g`. -/
structure Traces (roots : List Rule) (d : Definitions) (g : FreshVars) (w : Walk) : Prop where
  /-- The supply has gone on. -/
  before : g.Before w.fresh
  /-- The leaves are derived. -/
  found : ∀ r ∈ w.found.toList, Traced roots d.steps w.fresh r

theorem Traces.keep (h : w.Traces roots d g) (hr : Traced roots d.steps w.fresh r) :
    (final (keep cfg w r)).Traces roots d g := by
  unfold Walk.keep
  split
  · exact h
  · split
    · exact ⟨h.before, h.found⟩
    · refine ⟨h.before, fun s hs => ?_⟩
      have hfound : (w.found.push r).toList = w.found.toList ++ [r] := Array.toList_push
      rcases List.mem_append.mp (hfound ▸ hs) with hs | hs
      · exact h.found s hs
      · exact List.mem_singleton.mp hs ▸ hr

theorem Traces.cut (h : w.Traces roots d g) : (final (cut cfg w)).Traces roots d g := by
  unfold Walk.cut
  split <;> exact ⟨h.before, h.found⟩

/-- Walking from one rule after another finds derived leaves if each walk does. -/
theorem exploreAll_traces {rs : List Rule}
    (hstep : ∀ r ∈ rs, ∀ v : Walk, v.Traces roots d g → Traced roots d.steps v.fresh r →
      (final (explore d cfg depth v r)).Traces roots d g)
    (hw : w.Traces roots d g) (hrs : ∀ r ∈ rs, Traced roots d.steps g r) :
    (final (rs.foldlM (explore d cfg depth) w)).Traces roots d g :=
  foldlM_outcome (P := fun x => (final x).Traces roots d g)
    (fun r hr v hv => hstep r hr v hv ((hrs r hr).mono hv.before)) hw

theorem Traces.leaf (hw : w.Traces roots d g) (hr : Traced roots d.steps w.fresh r)
    (hpos : d.position? r = none) : (final (explore d cfg depth w r)).Traces roots d g := by
  rw [explore_of_leaf hpos]
  split
  · exact hw.keep hr
  · exact hw

/-- Walking from a derived rule finds derived leaves. -/
theorem explore_traces (hw : w.Traces roots d g) (hr : Traced roots d.steps w.fresh r) :
    (final (explore d cfg depth w r)).Traces roots d g := by
  induction depth generalizing w r g with
  | zero =>
    cases hpos : d.position? r with
    | none => exact hw.leaf hr hpos
    | some i =>
      rw [explore_zero hpos]
      exact hw.cut
  | succ depth ih =>
    cases hpos : d.position? r with
    | none => exact hw.leaf hr hpos
    | some i =>
      rw [explore_succ hpos]
      have hbefore := Rule.resolveAll_before r i (d.ofAtom r i) w.fresh
      have hchildren := hr.resolveAll fun s hs => d.mem_steps_of_mem_ofAtom hpos hs
      have hstart : Traces roots d (r.resolveAll i (d.ofAtom r i) w.fresh).2
          { w with fresh := (r.resolveAll i (d.ofAtom r i) w.fresh).2 } :=
        ⟨FreshVars.Before.refl _, fun s hs => (hw.found s hs).mono hbefore⟩
      have hall := exploreAll_traces (fun c _ v hv hc => ih hv hc) hstart hchildren
      exact ⟨(hw.before.trans hbefore).trans hall.before, hall.found⟩

end Walk

/-- The rules that unfolding hands out, with an error or without, are derived from rules of the
target. -/
theorem unfold_traced {query q : Program} {mappings : List Rule} {cfg : Settings} {target : Symbol}
    (h : RewritingError.program? (query.unfold mappings cfg target) = some q) {r : Rule}
    (hr : r ∈ q.rules) : ∃ g, Traced (query.rulesWithHead target)
      (Definitions.ofQuery query mappings target).steps g r := by
  obtain ⟨hfound, -⟩ := Program.rules_eq_of_program? h
  rw [hfound] at hr
  have hall : (query.walk mappings cfg target).Traces (query.rulesWithHead target)
      (Definitions.ofQuery query mappings target) (Walk.start cfg _ _).fresh :=
    Walk.exploreAll_traces (fun c _ v hv hc => Walk.explore_traces hv hc)
      ⟨FreshVars.Before.refl _, fun s hs => absurd hs (by simp [Walk.start])⟩
      fun s hs => traced_root hs (Walk.start_avoids hs)
  exact ⟨_, hall.found r hr⟩

/-! ## Rewriting -/

namespace Ontology

variable {o : Ontology} {cfg : Settings} {p : Program}

namespace Search

variable {deeper : Bool} {st : Search} {frontier : List Rule} {r : Rule}

/-- Whether the rules found are derived, those of the frontier among them, or else those that an
error carries. -/
def Traces (o : Ontology) (p : Program) (frontier : List Rule) :
    Except RewritingError Search → Prop
  | .ok st => frontier ⊆ st.found.toList ∧
      ∀ r ∈ st.found.toList, Traced p.rules o.steps st.fresh r
  | .error e => ∀ q ∈ e.found?, ∀ r ∈ q.rules, ∃ g, Traced p.rules o.steps g r

theorem Traces.exceeded (h : Traces o p frontier (.ok st)) (bound : Bound) (limit : Nat) :
    Traces o p frontier (.error (exceeded cfg bound limit st.found)) := by
  intro q hq r hr
  refine ⟨st.fresh, ?_⟩
  exact forall_found_exceeded (P := fun rules => ∀ s ∈ rules, Traced p.rules o.steps st.fresh s)
    bound limit h.2 q hq r hr

theorem Traces.takeNew (h : Traces o p frontier (.ok st)) (hr : Traced p.rules o.steps st.fresh r) :
    Traces o p frontier (takeNew cfg deeper st r) := by
  unfold Ontology.takeNew
  split
  · exact h
  · split
    · exact h.exceeded _ _
    · split
      · exact h.exceeded _ _
      · have hfound : (st.found.push r).toList = st.found.toList ++ [r] := Array.toList_push
        refine ⟨?_, fun s hs => ?_⟩
        · rw [hfound]
          exact List.subset_append_of_subset_left _ h.1
        · rcases List.mem_append.mp (hfound ▸ hs) with hs | hs
          · exact h.2 s hs
          · exact List.mem_singleton.mp hs ▸ hr

theorem resolveStep_traces (h : Traces o p frontier (.ok st)) (hr : r ∈ st.found.toList)
    {step : Nat × Rule} (hstep : step ∈ o.steps r) :
    Traces o p frontier (resolveStep cfg deeper r st step) := by
  obtain ⟨i, d⟩ := step
  have hadvanced : Traces o p frontier (.ok { st with fresh := (r.resolve i d st.fresh).2 }) :=
    ⟨h.1, fun s hs => (h.2 s hs).mono (Rule.resolve_before r i d st.fresh)⟩
  cases hres : (r.resolve i d st.fresh).1 with
  | none =>
    rw [resolveStep_of_eq_none hres]
    exact hadvanced
  | some r' =>
    rw [resolveStep_of_eq_some hres]
    exact hadvanced.takeNew ((h.2 r hr).resolve hstep hres)

/-- All rounds together find derived rules. -/
theorem rounds_traces (cfg : Settings) (n : Nat) (h : Traces o p frontier (.ok st)) :
    Traces o p frontier (rounds o cfg n frontier st) :=
  rounds_of_step (fun _ _ _ hr _ hstep hst => resolveStep_traces hst hr hstep) h.1 h n

end Search

/-- The rules that rewriting hands out, with an error or without, are derived from rules of the
program. -/
theorem rewrite_traced {q : Program} (h : RewritingError.program? (o.rewrite cfg p) = some q)
    {r : Rule} (hr : r ∈ q.rules) : ∃ g, Traced p.rules o.steps g r := by
  cases ho : o.isEmpty with
  | true =>
    rw [rewrite, if_pos ho] at h
    obtain rfl := Option.some.inj h
    exact ⟨_, traced_root hr (FreshVars.avoids_reserve { stem := "v" } r.vars)⟩
  | false =>
    obtain ⟨hvalid, -⟩ := start_valid o cfg p
    have hstart : Search.Traces o p (o.start cfg p).found.toList (.ok (o.start cfg p)) := by
      refine ⟨List.Subset.refl _, fun s hs => traced_root ?_ (hvalid.avoids s hs)⟩
      rw [found_start] at hs
      exact Rule.firstVariants_subset _ hs
    have hall := Search.rounds_traces cfg cfg.maxDepth hstart
    rw [rewrite_of_isEmpty_eq_false ho] at h
    cases hrounds : o.rounds cfg cfg.maxDepth (o.start cfg p).found.toList (o.start cfg p) with
    | ok st =>
      rw [hrounds] at h hall
      obtain rfl := Option.some.inj h
      exact ⟨_, hall.2 r hr⟩
    | error e =>
      rw [hrounds] at h hall
      exact hall q h r hr

end Ontology

/-! ## Conditions -/

/-- Whether a rule has a derivation from one of the roots in which certain atoms are never taken
away: those of the rule at the start and those of the definitions used are there in the end, under
the composition of all unifiers. -/
def Keeps (kept : Atom → Prop) (roots : List Rule) (steps : Rule → List (Nat × Rule)) (r : Rule) :
    Prop :=
  ∃ r₀ ∈ roots, ∃ used s, Derivation steps r₀ used s r ∧
    ∀ b, (b ∈ r₀.bodyAtoms ∨ ∃ d ∈ used, b ∈ d.bodyAtoms) → kept b → s.applyAtom b ∈ r.bodyAtoms

/-- Atoms for which no definition may be used are never taken away. -/
theorem Traced.keeps {kept : Atom → Prop} {roots : List Rule} {steps : Rule → List (Nat × Rule)}
    {g : FreshVars} {r : Rule} (h : Traced roots steps g r)
    (hkept : ∀ b, kept b → ∀ r, ∀ step ∈ steps r, step.2.headPredicate? ≠ some b.predicate) :
    Keeps kept roots steps r := by
  obtain ⟨r₀, hr₀, used, s, hderivation, -⟩ := h
  exact ⟨r₀, hr₀, used, s, hderivation, fun b hb hk =>
    hderivation.mem_bodyAtoms hb (hkept b hk)⟩

/-- Some rules are used as an ontology for rewriting a program, or as mappings for unfolding it.  No
rule that rewriting hands out, with an error or without, has lost a built-in atom, unless there are
ontology rules for its predicate.  No rule that unfolding hands out has lost any. -/
theorem conditions_kept (rs : List Rule) (cfg : Settings) (p : Program) :
    (∀ q, RewritingError.program? ((Ontology.ofRules rs).rewrite cfg p) = some q → ∀ r ∈ q.rules,
      Keeps (fun b => b.isBuiltin = true ∧ ∀ d ∈ rs, d.headPredicate? ≠ some b.predicate)
        p.rules (Ontology.ofRules rs).steps r) ∧
    ∀ target q, RewritingError.program? (p.unfold rs cfg target) = some q → ∀ r ∈ q.rules,
      Keeps (fun b => b.isBuiltin = true) (p.rulesWithHead target)
        (Definitions.ofQuery p rs target).steps r := by
  constructor
  · intro q h r hr
    obtain ⟨g, htraced⟩ := Ontology.rewrite_traced h hr
    refine htraced.keeps fun b hb r step hstep => ?_
    obtain ⟨-, -, hd, -⟩ := Ontology.mem_steps.mp hstep
    exact hb.2 step.2 (List.mem_of_mem_filter hd)
  · intro target q h r hr
    obtain ⟨g, htraced⟩ := unfold_traced h hr
    refine htraced.keeps fun b hb r step hstep hhead => ?_
    have hbuiltin : b.isBuiltin = false := (Definitions.of_mem_steps hstep).2 _ hhead
    rw [hbuiltin] at hb
    exact absurd hb (by simp)

/-- A query with a condition. -/
def equalInP : Program :=
  ⟨[⟨some (.plain "q" []), some [.plain "p" [.var ⟨"x"⟩, .var ⟨"y"⟩],
    .plain "EQ" [.var ⟨"x"⟩, .var ⟨"y"⟩]]⟩]⟩

/-- A definition with another condition. -/
def pFromS : Rule :=
  ⟨some (.plain "p" [.var ⟨"x"⟩, .var ⟨"y"⟩]), some [.plain "s" [.var ⟨"x"⟩, .var ⟨"y"⟩],
    .plain "NEQ" [.var ⟨"x"⟩, .iri "a"]]⟩

/-- The query with the definition put in, and with both conditions. -/
def equalInS : Rule :=
  ⟨some (.plain "q" []), some [.plain "s" [.var ⟨"x"⟩, .var ⟨"y"⟩],
    .plain "NEQ" [.var ⟨"x"⟩, .iri "a"], .plain "EQ" [.var ⟨"x"⟩, .var ⟨"y"⟩]]⟩

/-- Whether the definition is used by rewriting or by unfolding, both conditions are kept. -/
theorem conditions_kept_equalInS :
    Keeps (fun b => b.isBuiltin = true ∧ ∀ d ∈ [pFromS], d.headPredicate? ≠ some b.predicate)
      equalInP.rules (Ontology.ofRules [pFromS]).steps equalInS ∧
    Keeps (fun b => b.isBuiltin = true) (equalInP.rulesWithHead ⟨"q", 0⟩)
      (Definitions.ofQuery equalInP [pFromS] ⟨"q", 0⟩).steps equalInS := by
  have hrewrite : (Ontology.ofRules [pFromS]).rewrite {} equalInP =
      .ok ⟨equalInP.rules ++ [equalInS]⟩ := by cbv
  have hunfold : equalInP.unfold [pFromS] {} ⟨"q", 0⟩ = .ok ⟨[equalInS]⟩ := by cbv
  obtain ⟨hkept, hkept'⟩ := conditions_kept [pFromS] {} equalInP
  exact ⟨hkept ⟨equalInP.rules ++ [equalInS]⟩ (by rw [hrewrite]; rfl) equalInS
      (List.mem_append_right _ (List.mem_singleton_self _)),
    hkept' ⟨"q", 0⟩ ⟨[equalInS]⟩ (by rw [hunfold]; rfl) equalInS (List.mem_singleton_self _)⟩

/-- An ontology rule for a built-in predicate takes a condition away: with `EQ(?x, ?y) :- s(?x, ?y)`
the query `q() :- EQ(?x, ?y), p(?x, ?y)` is rewritten into a rule without conditions. -/
theorem rewrite_loses_condition :
    ¬∀ (rs : List Rule) (cfg : Settings) (p q : Program),
      RewritingError.program? ((Ontology.ofRules rs).rewrite cfg p) = some q → ∀ r ∈ q.rules,
        Keeps (fun b => b.isBuiltin = true) p.rules (Ontology.ofRules rs).steps r := by
  intro h
  have hrewrite : (Ontology.ofRules [⟨some (.plain "EQ" [.var ⟨"x"⟩, .var ⟨"y"⟩]),
        some [.plain "s" [.var ⟨"x"⟩, .var ⟨"y"⟩]]⟩]).rewrite {}
      ⟨[⟨some (.plain "q" []), some [.plain "EQ" [.var ⟨"x"⟩, .var ⟨"y"⟩],
        .plain "p" [.var ⟨"x"⟩, .var ⟨"y"⟩]]⟩]⟩ =
      .ok ⟨[⟨some (.plain "q" []), some [.plain "EQ" [.var ⟨"x"⟩, .var ⟨"y"⟩],
          .plain "p" [.var ⟨"x"⟩, .var ⟨"y"⟩]]⟩,
        ⟨some (.plain "q" []), some [.plain "s" [.var ⟨"x"⟩, .var ⟨"y"⟩],
          .plain "p" [.var ⟨"x"⟩, .var ⟨"y"⟩]]⟩]⟩ := by cbv
  obtain ⟨r₀, hr₀, used, s, -, hkept⟩ := h _ _ _ _ (by rw [hrewrite]; rfl) _
    (List.mem_cons_of_mem _ (List.mem_singleton_self _))
  obtain rfl := List.mem_singleton.mp hr₀
  have hmem := hkept (.plain "EQ" [.var ⟨"x"⟩, .var ⟨"y"⟩]) (Or.inl (List.mem_cons_self ..))
    (by decide)
  simp [Rule.bodyAtoms, Substitution.applyAtom] at hmem

end OntoQuery
