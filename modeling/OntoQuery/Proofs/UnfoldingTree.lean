import OntoQuery.Proofs.Derivation
import OntoQuery.Proofs.Success
import OntoQuery.Proofs.Variant
import OntoQuery.Unfolding

/-!
# Unfolding is sound and complete

Unfolding walks through a tree of resolvents and keeps leaves.  Over facts for source predicates,
nothing is lost on the way: an atom that is defined holds in the least model of the definitions
only through one of its definitions, and an atom that is neither defined nor a source atom does not
hold at all.

* `covers_of_resolvents`, `covers_of_leaf`: the answers of a rule over the least model are found if
  those of its children are, or if it is a leaf and kept when it has source atoms only.
* `explore_eq_ok`: a walk that hits no bound finds the answers of the rule that it starts from.
* `unfold_covers`: what this means for the result of unfolding.
* `unfold_answers`: unfolding a query for a target predicate is sound and complete.
-/

namespace OntoQuery

/-- The source predicates of mappings, given all definitions: those that occur in the body of a
mapping, are not built in, and are not defined. -/
def IsSource (mappings definitions : List Rule) (p : Symbol) : Prop :=
  p.isBuiltin = false ∧ (∃ m ∈ mappings, ∃ b ∈ m.bodyAtoms, b.predicate = p) ∧
    ∀ r ∈ definitions, r.headPredicate? ≠ some p

instance (mappings definitions : List Rule) (p : Symbol) :
    Decidable (IsSource mappings definitions p) :=
  inferInstanceAs (Decidable (_ ∧ _ ∧ _))

namespace Definitions

variable {d : Definitions}

theorem defines_eq_true_iff {p : Symbol} :
    d.defines p = true ↔ ∃ r ∈ d.rules.rules, r.headPredicate? = some p := by
  simp [defines]

theorem isDefined_eq_true_iff {a : Atom} :
    d.isDefined a = true ↔ a.isBuiltin = false ∧ d.defines a.predicate = true := by
  simp [isDefined]

theorem mem_ofAtom {r s : Rule} {i : Nat} {a : Atom} (ha : r.bodyAtoms[i]? = some a) :
    s ∈ d.ofAtom r i ↔ s ∈ d.rules.rules ∧ s.headPredicate? = some a.predicate := by
  simp [ofAtom, ha, Program.rulesWithHead]

/-- The atom at the position of the first defined atom is defined. -/
theorem exists_of_position?_eq_some {r : Rule} {i : Nat} (h : d.position? r = some i) :
    ∃ a, r.bodyAtoms[i]? = some a ∧ d.isDefined a = true := by
  obtain ⟨hlt, hdef, -⟩ := List.findIdx?_eq_some_iff_getElem.mp h
  exact ⟨r.bodyAtoms[i], List.getElem?_eq_getElem hlt, hdef⟩

/-- The position of the first defined atom, with each of its definitions. -/
def steps (d : Definitions) (r : Rule) : List (Nat × Rule) :=
  match d.position? r with
  | none => []
  | some i => (d.ofAtom r i).map fun s => (i, s)

/-- Unfolding resolves with definitions whose heads are not built in. -/
theorem of_mem_steps {r : Rule} {s : Nat × Rule} (h : s ∈ d.steps r) :
    s.2 ∈ d.rules.rules ∧ ∀ p, s.2.headPredicate? = some p → p.isBuiltin = false := by
  unfold steps at h
  cases hpos : d.position? r with
  | none =>
    rw [hpos] at h
    exact absurd h (by simp)
  | some i =>
    rw [hpos] at h
    obtain ⟨t, ht, rfl⟩ := List.mem_map.mp h
    obtain ⟨a, ha, hdef⟩ := exists_of_position?_eq_some hpos
    obtain ⟨hmem, hhead⟩ := (mem_ofAtom ha).mp ht
    refine ⟨hmem, fun p hp => ?_⟩
    obtain rfl : a.predicate = p := Option.some.inj (hhead.symm.trans hp)
    exact (isDefined_eq_true_iff.mp hdef).1

theorem mem_steps_of_mem_ofAtom {r s : Rule} {i : Nat} (h : d.position? r = some i)
    (hs : s ∈ d.ofAtom r i) : (i, s) ∈ d.steps r := by
  unfold steps
  rw [h]
  exact List.mem_map_of_mem hs

/-! ## What a list of rules covers -/

/-- Whether facts are given for source predicates only, and for none that is defined. -/
structure Admits (d : Definitions) (facts : Set Atom) : Prop where
  /-- Every fact has a source predicate. -/
  isFinal : ∀ a ∈ facts, d.isFinal a = true
  /-- No fact has a predicate that is defined. -/
  undefined : ∀ a ∈ facts, d.defines a.predicate = false

/-- Whether all answers of a rule over the least model of the definitions are answers of a list of
rules over the facts. -/
def Covers (d : Definitions) (found : List Rule) (r : Rule) : Prop :=
  ∀ truth facts : Set Atom, d.Admits facts →
    answers [r] truth (leastModel d.rules.rules truth facts) ⊆ answers found truth facts

theorem Covers.mono {found found' : List Rule} {r : Rule} (h : d.Covers found r)
    (hs : found ⊆ found') : d.Covers found' r :=
  fun truth facts hf => (h truth facts hf).trans (answers_mono hs (Set.Subset.refl _))

/-- An atom in the least model that is not a fact is defined. -/
theorem defines_of_mem_leastModel {truth facts : Set Atom} {a : Atom}
    (h : a ∈ leastModel d.rules.rules truth facts) :
    a ∈ facts ∨ d.defines a.predicate = true := by
  rcases mem_leastModel_iff.mp h with h | ⟨s, hs, body, hi, -⟩
  · exact Or.inl h
  · exact Or.inr (defines_eq_true_iff.mpr ⟨s, hs, hi.headPredicate?_eq⟩)

/-- A rule with a defined atom is covered if its resolvents at that atom are. -/
theorem covers_of_resolvents {found : List Rule} {r : Rule} {i : Nat}
    (hpos : d.position? r = some i)
    (h : ∀ s ∈ d.ofAtom r i, ∃ g : FreshVars, g.Avoids r.vars ∧
      ∀ r', (r.resolve i s g).1 = some r' → d.Covers found r') : d.Covers found r := by
  rintro truth facts hf a ⟨r, hr, body, hi, hb⟩
  obtain rfl := List.mem_singleton.mp hr
  obtain ⟨b, hget, hdef⟩ := exists_of_position?_eq_some hpos
  obtain ⟨hbuiltin, hdefines⟩ := isDefined_eq_true_iff.mp hdef
  obtain ⟨pre, c, post, rfl, rfl, hpred⟩ := hi.exists_split hget
  have hc : c ∈ leastModel d.rules.rules truth facts := by
    refine (Atom.holds_of_not_isBuiltin ?_).mp (hb c (by simp))
    rw [Atom.isBuiltin, hpred]
    exact hbuiltin
  -- being defined, the atom is no fact, and so it follows by one of its definitions
  rcases mem_leastModel_iff.mp hc with hfact | ⟨s, hs, mid, hdi, hmid⟩
  · rw [← hpred, hf.undefined c hfact] at hdefines
    exact absurd hdefines (by simp)
  · have hhead : s.headPredicate? = some b.predicate := by
      rw [← hpred]
      exact hdi.headPredicate?_eq
    obtain ⟨g, hg, hcov⟩ := h s ((mem_ofAtom hget).mpr ⟨hs, hhead⟩)
    obtain ⟨r', hr', hi'⟩ := Rule.resolve_lift hg hi hdi
    refine hcov r' hr' truth facts hf ⟨r', List.mem_singleton_self r', _, hi', fun e he => ?_⟩
    rcases List.mem_append.mp he with he | he
    · rcases List.mem_append.mp he with he | he
      · exact hb e (List.mem_append_left _ he)
      · exact hmid e he
    · exact hb e (List.mem_append_right _ (List.mem_cons_of_mem _ he))

/-- A rule without a defined atom is covered if a variant of it has been kept, or if it has an atom
that may not be left. -/
theorem covers_of_leaf {found : List Rule} {r : Rule} (hpos : d.position? r = none)
    (h : r.bodyAtoms.all d.isFinal = true → ∃ s ∈ found, s.canonical = r.canonical) :
    d.Covers found r := by
  rintro truth facts hf a ⟨r, hr, body, hi, hb⟩
  obtain rfl := List.mem_singleton.mp hr
  have hundefined : ∀ c ∈ r.bodyAtoms, ¬d.isDefined c = true := by
    intro c hc
    rw [Bool.not_eq_true]
    exact List.findIdx?_eq_none_iff.mp hpos c hc
  -- what is not built in and not defined holds as a fact only
  have hfact : ∀ b ∈ body, b.isBuiltin = false → b ∈ facts := by
    intro b hbm hbb
    obtain ⟨v, -, rfl⟩ := hi
    obtain ⟨c, hc, rfl⟩ := List.mem_map.mp hbm
    rcases defines_of_mem_leastModel ((Atom.holds_of_not_isBuiltin hbb).mp (hb _ hbm)) with h | h
    · exact h
    · rw [Atom.isBuiltin_bind] at hbb
      rw [Atom.predicate_bind] at h
      exact absurd (isDefined_eq_true_iff.mpr ⟨hbb, h⟩) (hundefined c hc)
  have hfinal : r.bodyAtoms.all d.isFinal = true := by
    rw [List.all_eq_true]
    intro c hc
    obtain ⟨v, -, rfl⟩ := hi
    cases hcb : c.isBuiltin with
    | true => simp [isFinal, hcb]
    | false =>
      have hv : (c.bind v).isBuiltin = false := by rw [Atom.isBuiltin_bind, hcb]
      have := hf.isFinal _ (hfact _ (List.mem_map_of_mem hc) hv)
      simpa [isFinal] using this
  obtain ⟨s, hs, he⟩ := h hfinal
  refine ⟨s, hs, body, (Rule.hasInstance_iff_of_canonical_eq he).mpr hi, fun b hbm => ?_⟩
  exact (hb b hbm).mono fun hbb _ => hfact b hbm hbb

end Definitions

/-! ## The walk -/

namespace Walk

/-- The invariant of the walk. -/
structure Valid (roots : List Rule) (d : Definitions) (w : Walk) : Prop where
  /-- The leaves that have been kept are reached from the roots. -/
  reached : ∀ r ∈ w.found.toList, Reached roots d.steps r
  /-- What has been seen are the variants of the leaves that have been kept. -/
  records : w.seen.Records w.found.toList

/-- How the state of the walk moves. -/
structure Leads (w w' : Walk) : Prop where
  /-- The leaves that have been kept stay. -/
  found : w.found.toList ⊆ w'.found.toList
  /-- The supply goes on. -/
  fresh : w.fresh.Before w'.fresh
  /-- That a bound was hit is not forgotten. -/
  hit : w'.hit = none → w.hit = none

variable {roots : List Rule} {d : Definitions} {cfg : Settings} {w w' w'' : Walk} {r : Rule}
  {depth : Nat}

theorem Leads.refl (w : Walk) : Leads w w :=
  ⟨List.Subset.refl _, FreshVars.Before.refl _, id⟩

theorem Leads.trans (h : Leads w w') (h' : Leads w' w'') : Leads w w'' :=
  ⟨List.Subset.trans h.found h'.found, h.fresh.trans h'.fresh, fun hn => h.hit (h'.hit hn)⟩

/-- A leaf that is kept has a variant among those that have been kept. -/
theorem keep_eq_ok (hw : w.Valid roots d) (hr : Reached roots d.steps r)
    (h : keep cfg w r = .ok w') :
    w'.Valid roots d ∧ Leads w w' ∧ ∃ s ∈ w'.found.toList, s.canonical = r.canonical := by
  unfold keep at h
  by_cases hseen : w.seen.contains r = true
  · rw [if_pos hseen] at h
    obtain rfl := Except.ok.inj h
    exact ⟨hw, Leads.refl w, (hw.records r).mp hseen⟩
  · rw [if_neg hseen] at h
    split at h
    · exact absurd h (by simp)
    · obtain rfl := Except.ok.inj h
      have hfound : (w.found.push r).toList = w.found.toList ++ [r] := Array.toList_push
      refine ⟨⟨fun s hs => ?_, ?_⟩, ⟨?_, FreshVars.Before.refl _, id⟩, r, ?_, rfl⟩
      · rw [hfound, List.mem_append, List.mem_singleton] at hs
        rcases hs with hs | rfl
        · exact hw.reached s hs
        · exact hr
      · rw [hfound]
        exact hw.records.insert r
      · rw [hfound]
        exact List.subset_append_left _ _
      · rw [hfound]
        exact List.mem_append_right _ (List.mem_singleton_self r)

/-! What a walk does, by the position of the first defined atom. -/

theorem explore_of_leaf (hpos : d.position? r = none) :
    explore d cfg depth w r = if r.bodyAtoms.all d.isFinal then keep cfg w r else .ok w := by
  unfold explore
  rw [hpos]

theorem explore_zero {i : Nat} (hpos : d.position? r = some i) :
    explore d cfg 0 w r = cut cfg w := by
  unfold explore
  rw [hpos]

theorem explore_succ {i : Nat} (hpos : d.position? r = some i) :
    explore d cfg (depth + 1) w r =
      (r.resolveAll i (d.ofAtom r i) w.fresh).1.foldlM (explore d cfg depth)
        { w with fresh := (r.resolveAll i (d.ofAtom r i) w.fresh).2 } := by
  rw [explore, hpos]

/-- A walk that ends at a leaf covers it. -/
theorem explore_leaf_eq_ok (hw : w.Valid roots d) (hr : Reached roots d.steps r)
    (hpos : d.position? r = none) (h : explore d cfg depth w r = .ok w') :
    w'.Valid roots d ∧ Leads w w' ∧ d.Covers w'.found.toList r := by
  rw [explore_of_leaf hpos] at h
  by_cases hfinal : r.bodyAtoms.all d.isFinal = true
  · rw [if_pos hfinal] at h
    obtain ⟨hvalid, hleads, hkept⟩ := keep_eq_ok hw hr h
    exact ⟨hvalid, hleads, d.covers_of_leaf hpos fun _ => hkept⟩
  · rw [if_neg hfinal] at h
    obtain rfl := Except.ok.inj h
    exact ⟨hw, Leads.refl w, d.covers_of_leaf hpos fun hf => absurd hf hfinal⟩

/-- Walking from one rule after another, where each walk does what it should.  The supply goes on
avoiding the rules that are still to be visited. -/
theorem exploreAll_eq_ok {rs : List Rule}
    (hstep : ∀ r ∈ rs, ∀ v v' : Walk, v.Valid roots d → v.fresh.Avoids r.vars →
      explore d cfg depth v r = .ok v' →
        v'.Valid roots d ∧ Leads v v' ∧ (v'.hit = none → d.Covers v'.found.toList r))
    (hw : w.Valid roots d) (hg : ∀ r ∈ rs, w.fresh.Avoids r.vars)
    (h : rs.foldlM (explore d cfg depth) w = .ok w') :
    w'.Valid roots d ∧ Leads w w' ∧ (w'.hit = none → ∀ r ∈ rs, d.Covers w'.found.toList r) := by
  obtain ⟨⟨hvalid, -⟩, hleads, hcov⟩ := foldlM_ok
    (I := fun v : Walk => v.Valid roots d ∧ ∀ r ∈ rs, v.fresh.Avoids r.vars) (R := Leads)
    (Q := fun r v => v.hit = none → d.Covers v.found.toList r) Leads.refl Leads.trans
    (fun hl hc hn => (hc (hl.hit hn)).mono hl.found)
    (fun r hr v v' hv hv' => by
      obtain ⟨hvalid, hleads, hcov⟩ := hstep r hr v v' hv.1 (hv.2 r hr) hv'
      exact ⟨⟨hvalid, fun c hc => (hv.2 c hc).mono hleads.fresh (List.Subset.refl _)⟩,
        hleads, hcov⟩) ⟨hw, hg⟩ h
  exact ⟨hvalid, hleads, fun hn r hr => hcov r hr hn⟩

/-- A walk that hits no bound covers the rule that it starts from. -/
theorem explore_eq_ok (hw : w.Valid roots d) (hr : Reached roots d.steps r)
    (hg : w.fresh.Avoids r.vars) (h : explore d cfg depth w r = .ok w') :
    w'.Valid roots d ∧ Leads w w' ∧ (w'.hit = none → d.Covers w'.found.toList r) := by
  induction depth generalizing w w' r with
  | zero =>
    cases hpos : d.position? r with
    | none =>
      obtain ⟨hvalid, hleads, hcov⟩ := explore_leaf_eq_ok hw hr hpos h
      exact ⟨hvalid, hleads, fun _ => hcov⟩
    | some i =>
      rw [explore_zero hpos, cut] at h
      split at h
      · exact absurd h (by simp)
      · obtain rfl := Except.ok.inj h
        exact ⟨⟨hw.reached, hw.records⟩, ⟨List.Subset.refl _, FreshVars.Before.refl _,
          fun hn => absurd hn (by simp)⟩, fun hn => absurd hn (by simp)⟩
  | succ depth ih =>
    cases hpos : d.position? r with
    | none =>
      obtain ⟨hvalid, hleads, hcov⟩ := explore_leaf_eq_ok hw hr hpos h
      exact ⟨hvalid, hleads, fun _ => hcov⟩
    | some i =>
      rw [explore_succ hpos] at h
      have hbefore := Rule.resolveAll_before r i (d.ofAtom r i) w.fresh
      have hchildren : ∀ c ∈ (r.resolveAll i (d.ofAtom r i) w.fresh).1,
          Reached roots d.steps c ∧ (r.resolveAll i (d.ofAtom r i) w.fresh).2.Avoids c.vars := by
        intro c hc
        obtain ⟨havoids, s, hs, g, hgr, hres⟩ := Rule.exists_of_mem_resolveAll hg hc
        exact ⟨.step hr (d.mem_steps_of_mem_ofAtom hpos hs) hgr hres, havoids⟩
      have hstart : Valid roots d { w with fresh := (r.resolveAll i (d.ofAtom r i) w.fresh).2 } :=
        ⟨hw.reached, hw.records⟩
      obtain ⟨hvalid, hleads, hcov⟩ := exploreAll_eq_ok
        (fun c hc v v' hv havoids hv' => ih hv (hchildren c hc).1 havoids hv') hstart
        (fun c hc => (hchildren c hc).2) h
      refine ⟨hvalid, ⟨hleads.found, hbefore.trans hleads.fresh, hleads.hit⟩, fun hn => ?_⟩
      refine d.covers_of_resolvents hpos fun s hs => ?_
      obtain ⟨g, hwg, hmem⟩ := Rule.resolve_of_mem (r := r) (i := i) (g := w.fresh) hs
      exact ⟨g, hg.mono hwg (List.Subset.refl _), fun r' hr' => hcov hn r' (hmem r' hr')⟩

theorem keep_eq_error (h : keep cfg w r = .error w') : w'.hit ≠ none := by
  unfold keep at h
  split at h
  · exact absurd h (by simp)
  · split at h
    · obtain rfl := Except.error.inj h
      simp
    · exact absurd h (by simp)

theorem cut_eq_error (h : cut cfg w = .error w') : w'.hit ≠ none := by
  unfold cut at h
  split at h
  · obtain rfl := Except.error.inj h
    simp
  · exact absurd h (by simp)

/-- A walk that is stopped has hit a bound. -/
theorem explore_eq_error (h : explore d cfg depth w r = .error w') : w'.hit ≠ none := by
  induction depth generalizing w w' r with
  | zero =>
    cases hpos : d.position? r with
    | none =>
      rw [explore_of_leaf hpos] at h
      split at h
      · exact keep_eq_error h
      · exact absurd h (by simp)
    | some i =>
      rw [explore_zero hpos] at h
      exact cut_eq_error h
  | succ depth ih =>
    cases hpos : d.position? r with
    | none =>
      rw [explore_of_leaf hpos] at h
      split at h
      · exact keep_eq_error h
      · exact absurd h (by simp)
    | some i =>
      rw [explore_succ hpos] at h
      exact foldlM_error (P := fun v : Walk => v.hit ≠ none) (fun c _ v v' hv => ih hv) h

/-- The state in which the walk from some roots begins. -/
def start (cfg : Settings) (roots : List Rule) (d : Definitions) : Walk where
  fresh := FreshVars.reserve { stem := cfg.freshStem } (roots.flatMap Rule.vars ++ d.rules.vars)

theorem start_valid : (start cfg roots d).Valid roots d :=
  ⟨fun r hr => absurd hr (by simp [start]), RuleSet.records_nil⟩

theorem start_avoids (hr : r ∈ roots) : (start cfg roots d).fresh.Avoids r.vars :=
  (FreshVars.avoids_reserve _ _).mono (FreshVars.Before.refl _) fun _ hx =>
    List.mem_append_left _ (List.mem_flatMap.mpr ⟨r, hr, hx⟩)

/-- A walk from several roots that hits no bound has not been stopped. -/
theorem exists_of_final_hit (h : (final (roots.foldlM (explore d cfg depth) w)).hit = none) :
    ∃ w', roots.foldlM (explore d cfg depth) w = .ok w' ∧
      final (roots.foldlM (explore d cfg depth) w) = w' := by
  cases hw : roots.foldlM (explore d cfg depth) w with
  | error v =>
    rw [hw] at h
    exact absurd h
      (foldlM_error (P := fun v : Walk => v.hit ≠ none) (fun c _ v v' hv => explore_eq_error hv) hw)
  | ok v => exact ⟨v, rfl, rfl⟩

end Walk

/-! ## The result of unfolding -/

section

variable {query : Program} {mappings : List Rule} {cfg : Settings} {target : Symbol}
  {result : Program} {truth facts : Set Atom}

/-- Unfolding ends well if there is no recursion and the walk hits no bound. -/
theorem unfold_eq_ok (h : query.unfold mappings cfg target = .ok result) :
    ((DependencyGraph.ofRules (query.rulesWithHead target ++
      (Definitions.ofQuery query mappings target).rules.rules)).cycles [target]).flatten = [] ∧
    ∃ w : Walk, w.hit = none ∧ result = ⟨w.found.toList⟩ ∧
      (query.rulesWithHead target).foldlM
        (Walk.explore (Definitions.ofQuery query mappings target) cfg cfg.maxDepth)
        (Walk.start cfg (query.rulesWithHead target) (Definitions.ofQuery query mappings target)) =
          .ok w := by
  unfold Program.unfold at h
  dsimp only at h
  split at h
  · exact absurd h (by simp)
  · split at h
    · exact absurd h (by simp)
    · split at h
      · exact absurd h (by simp)
      · rename_i hcyclic
        refine ⟨by simpa using hcyclic, ?_⟩
        split at h
        · rename_i hhit
          obtain ⟨w, hw, hfinal⟩ := Walk.exists_of_final_hit hhit
          rw [hfinal] at hhit h
          exact ⟨w, hhit, (Except.ok.inj h).symm, hw⟩
        · exact absurd h (by simp)
        · exact absurd h (by simp)

/-- The result is reached from the rules of the target, and covers each of them. -/
theorem unfold_covers (h : query.unfold mappings cfg target = .ok result) :
    (∀ r ∈ result.rules, Reached (query.rulesWithHead target)
      (Definitions.ofQuery query mappings target).steps r) ∧
    ∀ r ∈ query.rulesWithHead target,
      (Definitions.ofQuery query mappings target).Covers result.rules r := by
  obtain ⟨-, w, hhit, rfl, hw⟩ := unfold_eq_ok h
  obtain ⟨hvalid, -, hcov⟩ := Walk.exploreAll_eq_ok
    (fun r hr v v' hv havoids hv' => Walk.explore_eq_ok hv (.root hr) havoids hv')
    Walk.start_valid (fun r hr => Walk.start_avoids hr) hw
  exact ⟨hvalid.reached, fun r hr => hcov hhit r hr⟩

/-- Over source facts nothing that follows for the target is lost. -/
theorem answers_subset_unfold (h : query.unfold mappings cfg target = .ok result)
    (hfacts : (Definitions.ofQuery query mappings target).Admits facts) :
    answers (query.rulesWithHead target) truth
      (leastModel (Definitions.ofQuery query mappings target).rules.rules truth facts) ⊆
        answers result.rules truth facts := by
  rintro a ⟨r, hr, hi⟩
  exact (unfold_covers h).2 r hr truth facts hfacts ⟨r, List.mem_singleton_self r, hi⟩

/-- Nothing is found that does not follow. -/
theorem unfold_answers_subset (h : query.unfold mappings cfg target = .ok result)
    (hquery : ∀ r ∈ query.rules, r.IsPlain) (hmappings : ∀ r ∈ mappings, r.IsPlain) :
    answers result.rules truth facts ⊆ answers (query.rulesWithHead target) truth
      (leastModel (Definitions.ofQuery query mappings target).rules.rules truth facts) := by
  rintro a ⟨r, hr, body, hi, hb⟩
  refine ((unfold_covers h).1 r hr).answers_subset
    (fun s hs => hquery s (List.mem_of_mem_filter hs)) (fun s step hstep => ?_)
    answers_leastModel_subset hi fun b hbm => (hb b hbm).mono fun _ hf => subset_leastModel hf
  obtain ⟨hmem, hbuiltin⟩ := Definitions.of_mem_steps hstep
  refine ⟨hmem, ?_, hbuiltin⟩
  rcases List.mem_append.mp hmem with hmem | hmem
  · exact hquery _ (List.mem_of_mem_filter hmem)
  · exact hmappings _ hmem

/-- The predicates that the definitions of a query leave are the source predicates. -/
theorem mem_sources_ofQuery {p : Symbol} :
    p ∈ (Definitions.ofQuery query mappings target).sources ↔ IsSource mappings
      (query.rules.filter (fun r => r.headPredicate? ≠ some target) ++ mappings) p := by
  simp only [Definitions.ofQuery, List.mem_eraseDups, List.mem_map, List.mem_filter,
    List.mem_flatMap, Bool.and_eq_true, Bool.not_eq_true', List.any_eq_false, Atom.isBuiltin,
    decide_eq_true_eq]
  constructor
  · rintro ⟨a, ⟨⟨m, hm, ha⟩, hbuiltin, hnone⟩, rfl⟩
    exact ⟨hbuiltin, ⟨m, hm, a, ha, rfl⟩, hnone⟩
  · rintro ⟨hbuiltin, ⟨m, hm, a, ha, rfl⟩, hnone⟩
    exact ⟨a, ⟨⟨m, hm, ha⟩, hbuiltin, hnone⟩, rfl⟩

/-- Facts for source predicates are admitted by the definitions of a query. -/
theorem admits_of_isSource
    (h : ∀ a ∈ facts, IsSource mappings
      (query.rules.filter (fun r => r.headPredicate? ≠ some target) ++ mappings) a.predicate) :
    (Definitions.ofQuery query mappings target).Admits facts := by
  refine ⟨fun a ha => ?_, fun a ha => ?_⟩
  · rw [Definitions.isFinal, Bool.or_eq_true, decide_eq_true_eq, mem_sources_ofQuery]
    exact Or.inr (h a ha)
  · rw [Bool.eq_false_iff, ne_eq, Definitions.defines_eq_true_iff]
    rintro ⟨r, hr, he⟩
    exact (h a ha).2.2 r hr he

/-- Unfolding a query for a target predicate is sound and complete: over facts for source
predicates, its result has exactly the answers that the rules of the target have over what the
definitions derive from these facts. -/
theorem unfold_answers (hquery : ∀ r ∈ query.rules, r.IsPlain)
    (hmappings : ∀ r ∈ mappings, r.IsPlain)
    (h : query.unfold mappings cfg target = .ok result)
    (hfacts : ∀ a ∈ facts, IsSource mappings
      (query.rules.filter (fun r => r.headPredicate? ≠ some target) ++ mappings) a.predicate) :
    answers (query.rulesWithHead target) truth
      (leastModel (query.rules.filter (fun r => r.headPredicate? ≠ some target) ++ mappings)
        truth facts) = answers result.rules truth facts :=
  Set.Subset.antisymm (answers_subset_unfold h (admits_of_isSource hfacts))
    (unfold_answers_subset h hquery hmappings)

end

/-- A query that asks for two properties, one of which it defines itself: by a fact, and by a
predicate that no mapping provides. -/
def twoProperties : Program :=
  ⟨[⟨some (.plain "q" [.var ⟨"x"⟩]), some [.plain "a" [.var ⟨"x"⟩], .plain "b" [.var ⟨"x"⟩]]⟩,
    ⟨some (.plain "b" [.iri "k"]), none⟩,
    ⟨some (.plain "b" [.var ⟨"x"⟩]), some [.plain "u" [.var ⟨"x"⟩]]⟩]⟩

/-- Unfolding it with `a(?y) :- s(?y)` gives `q(k) :- s(k)`: the fact disappears from the body, and
the candidate that is left with `u(?x)` is dropped. -/
theorem unfold_answers_twoProperties :
    twoProperties.unfold [⟨some (.plain "a" [.var ⟨"y"⟩]), some [.plain "s" [.var ⟨"y"⟩]]⟩] {}
        ⟨"q", 1⟩ = .ok ⟨[⟨some (.plain "q" [.iri "k"]), some [.plain "s" [.iri "k"]]⟩]⟩ ∧
    ∀ truth : Set Atom,
      answers (twoProperties.rulesWithHead ⟨"q", 1⟩) truth
        (leastModel (twoProperties.rules.filter (fun r => r.headPredicate? ≠ some ⟨"q", 1⟩) ++
          [⟨some (.plain "a" [.var ⟨"y"⟩]), some [.plain "s" [.var ⟨"y"⟩]]⟩]) truth
            {.plain "s" [.iri "k"]}) =
      answers [⟨some (.plain "q" [.iri "k"]), some [.plain "s" [.iri "k"]]⟩] truth
        {.plain "s" [.iri "k"]} := by
  have h : twoProperties.unfold
      [⟨some (.plain "a" [.var ⟨"y"⟩]), some [.plain "s" [.var ⟨"y"⟩]]⟩] {} ⟨"q", 1⟩ =
        .ok ⟨[⟨some (.plain "q" [.iri "k"]), some [.plain "s" [.iri "k"]]⟩]⟩ := by cbv
  refine ⟨h, fun truth => unfold_answers (by decide) (by decide) h ?_⟩
  rintro a rfl
  decide

end OntoQuery
