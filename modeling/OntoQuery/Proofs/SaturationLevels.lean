import Mathlib.Data.Set.Lattice
import OntoQuery.Proofs.Saturation
import OntoQuery.Proofs.VariantLists

/-!
# Rewriting enumerates rules level by level

Level `k` of a program consists of the rules, up to variants, that at most `k` resolution steps with
ontology rules make of its rules, at any body atom.

Before round `k` the rules found represent level `k` (`Search.Complete`).  Round `k` expands those
that are new in level `k`; the others have been expanded in earlier rounds.  So if the round ends
well, the rules found afterwards represent level `k + 1` (`Search.Complete.next`).  If it does not,
it has met a rule of level `k + 1` that is no variant of a rule found (`Search.Outcome`).  When all
rules found have been expanded, no level has more than they cover (`CoversLevel.all`).

* `rounds_exact`: what all rounds together come to.
* `rewrite_levels`: what rewriting with an ontology returns, for each way in which it may end.
-/

namespace OntoQuery

namespace Ontology

variable {o : Ontology} {cfg : Settings} {p : Program} {r r' : Rule} {k m : Nat}

/-! ## Levels -/

/-- Rules that at most `k` resolution steps with ontology rules make of rules of a program. -/
inductive Obtained (o : Ontology) (p : Program) : Nat → Rule → Prop where
  /-- A rule of the program. -/
  | root {k : Nat} {r : Rule} (h : r ∈ p.rules) : Obtained o p k r
  /-- A resolvent at some body atom, with an ontology rule that is renamed apart. -/
  | step {k : Nat} {r r' d : Rule} {i : Nat} {g : FreshVars} (h : Obtained o p k r)
      (hd : d ∈ o.program.rules) (hg : g.Avoids r.vars) (h' : (r.resolve i d g).1 = some r') :
      Obtained o p (k + 1) r'

/-- The rules, up to variants, that at most `k` resolution steps make of rules of a program. -/
def level (o : Ontology) (p : Program) (k : Nat) : Set Rule :=
  {r | ∃ s, o.Obtained p k s ∧ s.IsVariant r}

theorem Obtained.mono (h : o.Obtained p k r) (hk : k ≤ m) : o.Obtained p m r := by
  induction h generalizing m with
  | root h => exact .root h
  | step _ hd hg h' ih =>
    obtain ⟨m, rfl⟩ : ∃ n, m = n + 1 := ⟨m - 1, by omega⟩
    exact .step (ih (by omega)) hd hg h'

theorem Obtained.mem_level (h : o.Obtained p k r) : r ∈ o.level p k := ⟨r, h, .refl r⟩

theorem level_mono (o : Ontology) (p : Program) (hk : k ≤ m) : o.level p k ⊆ o.level p m :=
  fun _ ⟨s, hs, hv⟩ => ⟨s, hs.mono hk, hv⟩

/-- A resolution step at any body atom is one of the steps that rewriting makes. -/
theorem mem_steps_of_resolve {d : Rule} {i : Nat} {g : FreshVars} (hd : d ∈ o.program.rules)
    (h : (r.resolve i d g).1 = some r') : (i, d) ∈ o.steps r := by
  obtain ⟨a, head, u, ha, hhead, hu, -⟩ := Rule.resolve_eq_some.mp h
  refine mem_steps.mpr ⟨a, ha, hd, ?_⟩
  rw [Rule.headPredicate?, hhead, Option.map_some, ← predicate_eq_of_unifyAtoms hu,
    Renaming.applyAtom, Atom.predicate_bind]

theorem Obtained.reached (h : o.Obtained p k r) : Reached p.rules o.steps r := by
  induction h with
  | root h => exact .root h
  | step _ hd hg h' ih => exact .step ih (mem_steps_of_resolve hd h') hg h'

/-! ### Lists that cover a level -/

/-- Whether a list has a variant of every rule of a level. -/
def CoversLevel (o : Ontology) (p : Program) (rules : List Rule) (k : Nat) : Prop :=
  ∀ r ∈ o.level p k, ∃ s ∈ rules, s.IsVariant r

section

variable {rules rules' : List Rule}

/-- If the rules of a list that covers a level are expanded, then the next level is covered. -/
theorem CoversLevel.succ (h : o.CoversLevel p rules k) (hsub : rules ⊆ rules')
    (hexp : ∀ r ∈ rules, o.Expanded rules' r) : o.CoversLevel p rules' (k + 1) := by
  rintro r ⟨s, hs, hv⟩
  cases hs with
  | root hs =>
    obtain ⟨t, ht, htv⟩ := h r ⟨s, .root hs, hv⟩
    exact ⟨t, hsub ht, htv⟩
  | @step _ s₀ _ d i g hs₀ hd hg hres =>
    -- the rule that has been resolved has a variant in the list, whose resolvent is covered
    obtain ⟨t, ht, htv⟩ := h s₀ hs₀.mem_level
    have hresolve : ∀ g' : FreshVars, g'.Avoids t.vars →
        ∃ t', (t.resolve i d g').1 = some t' ∧ s.IsVariant t' := fun g' hg' =>
      htv.symm.exists_resolve (.refl d) hg hg' hres
    obtain ⟨_, hfirst, -⟩ := hresolve _ (FreshVars.avoids_reserve { stem := "v" } t.vars)
    obtain ⟨g', hg', hcov⟩ := hexp t ht _ (mem_steps_of_resolve hd hfirst)
    obtain ⟨t', ht', hst'⟩ := hresolve g' hg'
    obtain ⟨u, hu, he⟩ := hcov t' ht'
    exact ⟨u, hu, (Rule.canonical_eq_iff.mp he).trans (hst'.symm.trans hv)⟩

/-- If all rules of a list that covers a level are expanded within it, then it covers all levels. -/
theorem CoversLevel.all (h : o.CoversLevel p rules k) (hexp : ∀ r ∈ rules, o.Expanded rules r)
    (m : Nat) : o.CoversLevel p rules m := by
  induction m with
  | zero => exact fun r hr => h r (level_mono o p (Nat.zero_le k) hr)
  | succ m ih => exact ih.succ (List.Subset.refl _) hexp

end

/-! ## The search, level by level -/

namespace Search

variable {deeper : Bool} {st st' : Search}

/-- The invariant of the search while rules of level `k` are found. -/
structure Sound (o : Ontology) (p : Program) (k : Nat) (st : Search) : Prop where
  /-- The rules found are reached, and so on. -/
  valid : st.Valid o p
  /-- The rules found are in the level. -/
  obtained : ∀ r ∈ st.found.toList, o.Obtained p k r
  /-- No rule has been found twice. -/
  distinct : Rule.NoVariants st.found.toList

theorem Sound.mono (h : st.Sound o p k) (hk : k ≤ m) : st.Sound o p m :=
  ⟨h.valid, fun r hr => (h.obtained r hr).mono hk, h.distinct⟩

/-- What has not been seen is no variant of a rule found. -/
theorem Valid.not_isVariant (h : st.Valid o p) (hr : ¬st.seen.contains r = true) :
    ∀ s ∈ st.found.toList, ¬s.IsVariant r := fun s hs hv =>
  hr ((h.records r).mpr ⟨s, hs, hv.canonical_eq⟩)

theorem Sound.keep (h : st.Sound o p k) (hr : o.Obtained p k r) (hg : st.fresh.Avoids r.vars) :
    (st.keep r).Sound o p k := by
  by_cases hseen : st.seen.contains r = true
  · rw [keep_of_seen hseen]
    exact h
  · have hvalid := h.valid.keep hr.reached hg
    rw [keep_of_not_seen hseen] at hvalid ⊢
    refine ⟨hvalid, fun s hs => ?_, ?_⟩
    · rw [Array.toList_push, List.mem_append, List.mem_singleton] at hs
      rcases hs with hs | rfl
      · exact h.obtained s hs
      · exact hr
    · rw [Array.toList_push, Rule.noVariants_concat]
      exact ⟨h.distinct, h.valid.not_isVariant hseen⟩

/-- How a turn of round `k` may end, if the round began at `st`.  If it does not end well, then it
has met a rule that is new and one too many. -/
def Outcome (o : Ontology) (cfg : Settings) (p : Program) (k : Nat) (deeper : Bool) (st : Search) :
    Except RewritingError Search → Prop
  | .ok st' => st'.Sound o p (k + 1) ∧ Leads deeper st st'
  | .error e => ∃ (st' : Search) (r : Rule), st'.Sound o p (k + 1) ∧ Leads deeper st st' ∧
      o.Obtained p (k + 1) r ∧ (∀ s ∈ st'.found.toList, ¬s.IsVariant r) ∧
      (deeper = false ∧ e = exceeded cfg .depth cfg.maxDepth st'.found ∨
        deeper = true ∧ cfg.maxRules ≤ st'.found.size ∧
          e = exceeded cfg .rules cfg.maxRules st'.found)

theorem takeNew_outcome (h : Outcome o cfg p k deeper st (.ok st')) (hr : o.Obtained p (k + 1) r)
    (hg : st'.fresh.Avoids r.vars) :
    Outcome o cfg p k deeper st (takeNew cfg deeper st' r) := by
  obtain ⟨hsound, hleads⟩ := h
  unfold takeNew
  by_cases hseen : st'.seen.contains r = true
  · rw [if_pos hseen]
    exact ⟨hsound, hleads⟩
  · rw [if_neg hseen]
    have hnew := hsound.valid.not_isVariant hseen
    cases deeper with
    | false => exact ⟨st', r, hsound, hleads, hr, hnew, Or.inl ⟨rfl, rfl⟩⟩
    | true =>
      rw [Bool.not_true, if_neg (by simp)]
      by_cases hfull : cfg.maxRules ≤ st'.found.size
      · rw [if_pos hfull]
        exact ⟨st', r, hsound, hleads, hr, hnew, Or.inr ⟨rfl, hfull, rfl⟩⟩
      · rw [if_neg hfull, ← keep_of_not_seen hseen]
        refine ⟨hsound.keep hr hg, hleads.trans ⟨found_prefix_keep st' r, ?_, by simp⟩⟩
        rw [fresh_keep]
        exact FreshVars.Before.refl _

theorem resolveStep_outcome (h : Outcome o cfg p k deeper st (.ok st'))
    (hr : r ∈ st'.found.toList) (hk : o.Obtained p k r) {step : Nat × Rule}
    (hstep : step ∈ o.steps r) :
    Outcome o cfg p k deeper st (resolveStep cfg deeper r st' step) := by
  obtain ⟨i, d⟩ := step
  obtain ⟨-, -, hd, -⟩ := mem_steps.mp hstep
  obtain ⟨hsound, hleads⟩ := h
  have hg := hsound.valid.avoids r hr
  have hbefore := Rule.resolve_before r i d st'.fresh
  have hadvanced : Outcome o cfg p k deeper st
      (.ok { st' with fresh := (r.resolve i d st'.fresh).2 }) :=
    ⟨⟨hsound.valid.advance hbefore, hsound.obtained, hsound.distinct⟩,
      hleads.trans ⟨List.prefix_refl _, hbefore, fun _ => rfl⟩⟩
  cases hres : (r.resolve i d st'.fresh).1 with
  | none =>
    rw [resolveStep_of_eq_none hres]
    exact hadvanced
  | some r' =>
    rw [resolveStep_of_eq_some hres]
    exact takeNew_outcome hadvanced (.step hk hd hg hres) (Rule.resolve_avoids hg hres)

theorem expandRule_outcome (h : Outcome o cfg p k deeper st (.ok st'))
    (hr : r ∈ st.found.toList) (hk : o.Obtained p k r) :
    Outcome o cfg p k deeper st (expandRule o cfg deeper st' r) :=
  foldlM_outcome (fun _ hstep _ h => resolveStep_outcome h (h.2.found.subset hr) hk hstep) h

/-- How round `k` may end. -/
theorem round_outcome (cfg : Settings) (deeper : Bool) {frontier : List Rule}
    (h : st.Sound o p k) (hsub : frontier ⊆ st.found.toList) :
    Outcome o cfg p k deeper st (frontier.foldlM (expandRule o cfg deeper) st) :=
  foldlM_outcome (fun r hr _ h' => expandRule_outcome h' (hsub hr) (h.obtained r (hsub hr)))
    ⟨h.mono (Nat.le_succ k), Leads.refl deeper st⟩

/-! ### All rounds -/

/-- The state of the search before round `k`, which expands the rules of the frontier. -/
structure Complete (o : Ontology) (p : Program) (k : Nat) (frontier : List Rule) (st : Search) :
    Prop where
  /-- The rules found are in the level. -/
  sound : st.Sound o p k
  /-- They cover it. -/
  covers : o.CoversLevel p st.found.toList k
  /-- The frontier consists of rules found. -/
  subset : frontier ⊆ st.found.toList
  /-- The other rules found have been expanded. -/
  expanded : ∀ r ∈ st.found.toList, r ∈ frontier ∨ o.Expanded st.found.toList r

/-- If round `k` ends well, then all rules found before have been expanded. -/
theorem Complete.expanded_of_eq_ok {frontier : List Rule} (h : st.Complete o p k frontier)
    (hround : frontier.foldlM (expandRule o cfg deeper) st = .ok st') :
    ∀ r ∈ st.found.toList, o.Expanded st'.found.toList r := by
  obtain ⟨-, hleads, hfrontier⟩ := round_eq_ok h.sound.valid h.subset hround
  intro r hr
  rcases h.expanded r hr with hr | hr
  · exact hfrontier r hr
  · exact hr.mono hleads.found.subset

/-- If round `k` ends well, then the rules that it has found are the next frontier. -/
theorem Complete.next {frontier : List Rule} (h : st.Complete o p k frontier)
    (hround : frontier.foldlM (expandRule o cfg deeper) st = .ok st') :
    st'.Complete o p (k + 1) (st'.found.toList.drop st.found.size) := by
  have hexp := h.expanded_of_eq_ok hround
  have houtcome := round_outcome cfg deeper h.sound h.subset
  rw [hround] at houtcome
  obtain ⟨hsound, hleads⟩ := houtcome
  obtain ⟨new, hnew⟩ := hleads.found
  refine ⟨hsound, h.covers.succ hleads.found.subset hexp, List.drop_subset _ _, fun r hr => ?_⟩
  rw [← hnew, ← Array.length_toList, List.drop_left]
  rw [← hnew, List.mem_append] at hr
  rcases hr with hr | hr
  · exact Or.inr (hnew ▸ hexp r hr)
  · exact Or.inl hr

/-- What the search comes to.  If it ends well, then the rules found cover all levels. -/
def Exact (o : Ontology) (cfg : Settings) (p : Program) : Except RewritingError Search → Prop
  | .ok st => st.Sound o p cfg.maxDepth ∧ ∀ k, o.CoversLevel p st.found.toList k
  | .error e => ∃ (k : Nat) (st : Search) (r : Rule), st.Sound o p k ∧
      (∀ s ∈ st.found.toList, ¬s.IsVariant r) ∧
      (k = cfg.maxDepth ∧ o.CoversLevel p st.found.toList k ∧ o.Obtained p (k + 1) r ∧
          e = exceeded cfg .depth cfg.maxDepth st.found ∨
        o.Obtained p k r ∧ cfg.maxRules ≤ st.found.size ∧
          e = exceeded cfg .rules cfg.maxRules st.found)

theorem rounds_exact {n : Nat} {frontier : List Rule} (hk : k + n = cfg.maxDepth)
    (h : st.Complete o p k frontier) : Exact o cfg p (rounds o cfg n frontier st) := by
  induction n generalizing k frontier st with
  | zero =>
    obtain rfl : k = cfg.maxDepth := hk
    have houtcome := round_outcome cfg false h.sound h.subset
    rw [rounds]
    cases hround : frontier.foldlM (expandRule o cfg false) st with
    | ok st' =>
      rw [hround] at houtcome
      obtain ⟨hsound, hleads⟩ := houtcome
      have hfound := hleads.stuck rfl
      have hexp := h.expanded_of_eq_ok hround
      rw [← hfound] at hexp
      have hcovers := h.covers
      rw [← hfound] at hcovers
      exact ⟨⟨hsound.valid, hfound ▸ h.sound.obtained, hsound.distinct⟩, hcovers.all hexp⟩
    | error e =>
      rw [hround] at houtcome
      obtain ⟨st', r, -, hleads, hr, hnew, hdeeper⟩ := houtcome
      rw [hleads.stuck rfl] at hnew hdeeper
      obtain ⟨-, rfl⟩ := hdeeper.resolve_right fun hd => absurd hd.1 (by simp)
      exact ⟨cfg.maxDepth, st, r, h.sound, hnew, Or.inl ⟨rfl, h.covers, hr, rfl⟩⟩
  | succ n ih =>
    cases frontier with
    | nil =>
      rw [rounds]
      refine ⟨h.sound.mono (by omega), h.covers.all fun r hr => ?_⟩
      exact (h.expanded r hr).resolve_left (by simp)
    | cons r frontier =>
      have houtcome := round_outcome cfg true h.sound h.subset
      rw [rounds]
      cases hround : (r :: frontier).foldlM (expandRule o cfg true) st with
      | ok st' => exact ih (by omega) (h.next hround)
      | error e =>
        rw [hround] at houtcome
        obtain ⟨st', r, hsound, -, hr, hnew, hdeeper⟩ := houtcome
        obtain ⟨-, hfull, rfl⟩ := hdeeper.resolve_left fun hd => absurd hd.1 (by simp)
        exact ⟨k + 1, st', r, hsound, hnew, Or.inr ⟨hr, hfull, rfl⟩⟩

/-! ### The state before the first round -/

/-- Keeping one rule after another adds the first variants of those that have not been seen. -/
theorem found_foldl_keep (rs : List Rule) (st : Search) :
    (rs.foldl keep st).found.toList =
      st.found.toList ++ Rule.firstVariants (rs.filter fun r => !st.seen.contains r) := by
  induction rs generalizing st with
  | nil => exact (List.append_nil _).symm
  | cons r rs ih =>
    rw [List.foldl_cons, ih]
    by_cases hseen : st.seen.contains r = true
    · rw [keep_of_seen hseen, List.filter_cons_of_neg (by simp [hseen])]
    · have hfilter : (rs.filter fun s => !(st.seen.insert r).contains s) =
          (rs.filter fun s => !st.seen.contains s).filter fun s => ¬r.IsVariant s := by
        rw [List.filter_filter]
        refine List.filter_congr fun s _ => ?_
        rw [Bool.eq_iff_iff]
        simp [← Bool.not_eq_true, RuleSet.contains_insert]
      rw [keep_of_not_seen hseen, List.filter_cons_of_pos (by simp [hseen]),
        Rule.firstVariants_cons, ← hfilter, Array.toList_push, List.append_assoc]
      rfl

end Search

theorem found_start (o : Ontology) (cfg : Settings) (p : Program) :
    (o.start cfg p).found.toList = Rule.firstVariants p.rules := by
  have hall : (p.rules.filter fun r => !({} : RuleSet).contains r) = p.rules :=
    List.filter_eq_self.mpr fun r _ => by
      rw [RuleSet.contains, Std.TreeSet.contains_emptyc]
      rfl
  exact (Search.found_foldl_keep p.rules _).trans (by rw [hall]; rfl)

/-- Before round 0 the rules of the program have been found, each variant once. -/
theorem start_complete (o : Ontology) (cfg : Settings) (p : Program) :
    (o.start cfg p).Complete o p 0 (o.start cfg p).found.toList := by
  obtain ⟨hvalid, hcov⟩ := start_valid o cfg p
  refine ⟨⟨hvalid, fun r hr => ?_, ?_⟩, ?_, List.Subset.refl _, fun r hr => Or.inl hr⟩
  · rw [found_start] at hr
    exact .root (Rule.firstVariants_subset _ hr)
  · rw [found_start]
    exact Rule.noVariants_firstVariants _
  · rintro r ⟨s, hs, hv⟩
    cases hs with
    | root hs =>
      obtain ⟨t, ht, he⟩ := hcov s hs
      exact ⟨t, ht, (Rule.canonical_eq_iff.mp he).trans hv⟩

/-! ## Rewriting -/

theorem Search.Sound.represents {st : Search} (h : st.Sound o p k)
    (hcov : o.CoversLevel p st.found.toList k) : Represents st.found.toList (o.level p k) :=
  ⟨fun r hr => (h.obtained r hr).mem_level, hcov, h.distinct⟩

/-- What a list that covers all levels represents is the union of all levels. -/
theorem iUnion_level_eq {rules : List Rule} (h : Represents rules (o.level p k))
    (hcov : ∀ m, o.CoversLevel p rules m) : ⋃ m, o.level p m = o.level p k := by
  refine Set.Subset.antisymm (Set.iUnion_subset fun m r hr => ?_) (Set.subset_iUnion _ k)
  obtain ⟨s, hs, hv⟩ := hcov m r hr
  obtain ⟨t, ht, htv⟩ := h.mem s hs
  exact ⟨t, ht, htv.trans hv⟩

/-- A rule that is new to a list that covers a level is not in the level. -/
theorem CoversLevel.notMem {rules : List Rule} (h : o.CoversLevel p rules k)
    (hnew : ∀ s ∈ rules, ¬s.IsVariant r) : r ∉ o.level p k := fun hr =>
  have ⟨s, hs, hv⟩ := h r hr
  hnew s hs hv

/-- An error at a bound carries the rules found if the policy is `keepPartial`. -/
theorem exceeded_eq (cfg : Settings) (bound : Bound) (limit : Nat) {found : Array Rule}
    {P : List Rule → Prop} (h : P found.toList) :
    ∃ kept, exceeded cfg bound limit found = .boundExceeded bound limit kept ∧
      (kept.isSome ↔ cfg.cyclePolicy = .keepPartial) ∧ ∀ q ∈ kept, P q.rules := by
  unfold exceeded
  cases cfg.cyclePolicy with
  | abort => exact ⟨none, rfl, by simp⟩
  | keepPartial => exact ⟨some ⟨found.toList⟩, rfl, by simpa using h⟩

/-- What holds of the rules found holds of the program in an error at a bound. -/
theorem forall_found_exceeded (bound : Bound) (limit : Nat) {found : Array Rule}
    {P : List Rule → Prop} (h : P found.toList) :
    ∀ q ∈ (exceeded cfg bound limit found).found?, P q.rules := by
  obtain ⟨kept, he, -, hkept⟩ := exceeded_eq cfg bound limit h
  rw [he]
  exact hkept

theorem rewrite_of_isEmpty_eq_false (ho : o.isEmpty = false) :
    o.rewrite cfg p =
      match o.rounds cfg cfg.maxDepth (o.start cfg p).found.toList (o.start cfg p) with
      | .ok st => .ok ⟨st.found.toList⟩
      | .error e => .error e := by
  unfold rewrite
  rw [ho, if_neg (by simp)]
  dsimp only
  cases o.rounds cfg cfg.maxDepth (o.start cfg p).found.toList (o.start cfg p) <;> rfl

/-- If rewriting with an ontology ends well, then its result represents all levels of the program,
the greatest depth has been enough, and the rules of the program come first.  Otherwise some rule is
too deep, and what may be handed out represents the level at the greatest depth, or the rules are
too many, and what may be handed out are some of them. -/
theorem rewrite_levels (ho : o.isEmpty = false) (cfg : Settings) (p : Program) :
    match o.rewrite cfg p with
    | .ok q =>
      Represents q.rules (⋃ k, o.level p k) ∧ ⋃ k, o.level p k = o.level p cfg.maxDepth ∧
        Rule.firstVariants p.rules <+: q.rules
    | .error (.boundExceeded .depth limit found) =>
      limit = cfg.maxDepth ∧ o.level p cfg.maxDepth ⊂ o.level p (cfg.maxDepth + 1) ∧
        (found.isSome ↔ cfg.cyclePolicy = .keepPartial) ∧
          ∀ q ∈ found, Represents q.rules (o.level p cfg.maxDepth)
    | .error (.boundExceeded .rules limit found) =>
      limit = cfg.maxRules ∧
        (∃ rules : List Rule, cfg.maxRules < rules.length ∧ Rule.NoVariants rules ∧
          ∀ r ∈ rules, r ∈ ⋃ k, o.level p k) ∧
        (found.isSome ↔ cfg.cyclePolicy = .keepPartial) ∧
          ∀ q ∈ found, Rule.NoVariants q.rules ∧ ∀ r ∈ q.rules, r ∈ ⋃ k, o.level p k
    | .error (.cycleDetected _ _) | .error (.targetNotDefined _) => False := by
  have hstart := o.start_complete cfg p
  have hexact : Search.Exact o cfg p (o.rounds cfg cfg.maxDepth _ _) :=
    Search.rounds_exact (Nat.zero_add _) hstart
  rw [rewrite_of_isEmpty_eq_false ho]
  cases hrounds : o.rounds cfg cfg.maxDepth (o.start cfg p).found.toList (o.start cfg p) with
  | ok st =>
    rw [hrounds] at hexact
    obtain ⟨hsound, hcov⟩ := hexact
    have hlevel := hsound.represents (hcov _)
    have hunion := iUnion_level_eq hlevel hcov
    obtain ⟨-, hpre, -⟩ := rounds_eq_ok hstart.sound.valid hstart.subset hstart.expanded hrounds
    rw [found_start o cfg p] at hpre
    exact ⟨hunion ▸ hlevel, hunion, hpre⟩
  | error e =>
    rw [hrounds] at hexact
    obtain ⟨k, st, r, hsound, hnew, ⟨rfl, hcov, hr, rfl⟩ | ⟨hr, hfull, rfl⟩⟩ := hexact
    · obtain ⟨kept, he, hkept⟩ := exceeded_eq cfg .depth cfg.maxDepth
        (P := fun rules => Represents rules (o.level p cfg.maxDepth)) (hsound.represents hcov)
      rw [he]
      refine ⟨rfl, ?_, hkept⟩
      refine (Set.ssubset_iff_of_subset (o.level_mono p (Nat.le_succ _))).mpr ?_
      exact ⟨r, hr.mem_level, hcov.notMem hnew⟩
    · have hmem : ∀ s, o.Obtained p k s → s ∈ ⋃ k, o.level p k := fun s hs =>
        Set.mem_iUnion.mpr ⟨k, hs.mem_level⟩
      have hfound : Rule.NoVariants st.found.toList ∧ ∀ s ∈ st.found.toList,
          s ∈ ⋃ k, o.level p k := ⟨hsound.distinct, fun s hs => hmem s (hsound.obtained s hs)⟩
      obtain ⟨kept, he, hkept⟩ := exceeded_eq cfg .rules cfg.maxRules
        (P := fun rules => Rule.NoVariants rules ∧ ∀ s ∈ rules, s ∈ ⋃ k, o.level p k) hfound
      rw [he]
      refine ⟨rfl, ⟨st.found.toList ++ [r], ?_, ?_, fun s hs => ?_⟩, hkept⟩
      · rw [List.length_append, Array.length_toList, List.length_singleton]
        omega
      · exact Rule.noVariants_concat.mpr ⟨hsound.distinct, hnew⟩
      · rcases List.mem_append.mp hs with hs | hs
        · exact hfound.2 s hs
        · rw [List.mem_singleton.mp hs]
          exact hmem r hr

/-- A query for anything in a class. -/
def anyIn (name : String) : Program :=
  ⟨[⟨some (.plain "q" []), some [.plain name [.var ⟨"x"⟩]]⟩]⟩

/-- The ontology that says that students, `s`, are persons, `p`. -/
def students : Ontology :=
  ofRules [⟨some (.plain "p" [.var ⟨"x"⟩]), some [.plain "s" [.var ⟨"x"⟩]]⟩]

/-- Rewriting a query for persons finds the query for students.  If no step is allowed, it says so
and hands out level 0. -/
theorem rewrite_levels_students :
    (students.rewrite {} (anyIn "p") =
        .ok ⟨(anyIn "p").rules ++ (anyIn "s").rules⟩ ∧
      Represents ((anyIn "p").rules ++ (anyIn "s").rules)
        (⋃ k, students.level (anyIn "p") k)) ∧
    students.rewrite { maxDepth := 0, cyclePolicy := .keepPartial } (anyIn "p") =
        .error (.boundExceeded .depth 0 (some (anyIn "p"))) ∧
      students.level (anyIn "p") 0 ⊂ students.level (anyIn "p") 1 ∧
      Represents (anyIn "p").rules (students.level (anyIn "p") 0) := by
  have hok : students.rewrite {} (anyIn "p") =
      .ok ⟨(anyIn "p").rules ++ (anyIn "s").rules⟩ := by cbv
  have herror : students.rewrite { maxDepth := 0, cyclePolicy := .keepPartial } (anyIn "p") =
      .error (.boundExceeded .depth 0 (some (anyIn "p"))) := by cbv
  have hall := rewrite_levels (o := students) rfl {} (anyIn "p")
  have hnone := rewrite_levels (o := students) rfl { maxDepth := 0, cyclePolicy := .keepPartial }
    (anyIn "p")
  rw [hok] at hall
  rw [herror] at hnone
  exact ⟨⟨hok, hall.1⟩, herror, hnone.2.1, hnone.2.2.2 _ rfl⟩

end Ontology

end OntoQuery
