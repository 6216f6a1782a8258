import OntoQuery.Proofs.LargerBounds
import OntoQuery.Proofs.SameRules

/-!
# The result of rewriting

With ontology rules, rewriting ends well in exactly one situation: the level at the greatest depth
is the last one, and the rules that represent it are not too many (`Ontology.rewrite_isOk_iff`).
The rules of the program are taken however many they are, so that the number of rules may also be as
great as that of the program, variants counted once.  The rules returned then represent the last
level (`Ontology.represents_of_rewrite`).  Levels do not depend on any order.

That the search is not stopped by the bound on rules cannot be seen from the level at once, because
the search meets the rules in its own order.  So it is first run with a bound that cannot be hit;
its result represents the level, and has therefore a known number of rules, which the actual bound
admits.

An ontology whose rules have heads for other predicates than those in the program does nothing, and
so does one without rules.  In the first case later variants are taken out of the program, and in
the second they are not (`Ontology.rewrite_idle`).
-/

namespace OntoQuery

namespace Ontology

variable {o : Ontology} {cfg : Settings} {p q : Program} {r r' d e : Rule} {i k n : Nat}

/-! ## The last level -/

/-- A resolvent of a rule of a level is in the next level, also with a variant of an ontology
rule. -/
theorem mem_level_succ (h : r ∈ o.level p k) (hd : d ∈ o.program.rules) (hed : e.IsVariant d)
    {g : FreshVars} (hg : g.Avoids r.vars) (hr' : (r.resolve i e g).1 = some r') :
    r' ∈ o.level p (k + 1) := by
  obtain ⟨s, hs, hv⟩ := h
  have havoids := FreshVars.avoids_reserve { stem := "v" } s.vars
  obtain ⟨s', hs', hv'⟩ := hv.symm.exists_resolve hed hg havoids hr'
  exact ⟨s', .step hs hd havoids hs', hv'.symm⟩

theorem level_of_isVariant (h : r ∈ o.level p k) (hv : r.IsVariant r') : r' ∈ o.level p k := by
  obtain ⟨s, hs, hsr⟩ := h
  exact ⟨s, hs, hsr.trans hv⟩

/-- If a level has no rules beyond the one before it, then there are none in any later level. -/
theorem level_subset_of_stable (h : o.level p (n + 1) ⊆ o.level p n) (m : Nat) :
    o.level p m ⊆ o.level p n := by
  induction m with
  | zero => exact level_mono o p (Nat.zero_le n)
  | succ m ih =>
    rintro r ⟨s, hs, hv⟩
    refine level_of_isVariant ?_ hv
    cases hs with
    | root hs => exact ⟨s, .root hs, .refl s⟩
    | step hs hd hg hres => exact h (mem_level_succ (ih hs.mem_level) hd (.refl _) hg hres)

/-! ## When rewriting ends well -/

/-- The search ends with the last level, or with a rule that shows why it cannot. -/
theorem rounds_start_exact (o : Ontology) (cfg : Settings) (p : Program) :
    Search.Exact o cfg p
      (o.rounds cfg cfg.maxDepth (o.start cfg p).found.toList (o.start cfg p)) :=
  Search.rounds_exact (Nat.zero_add _) (o.start_complete cfg p)

/-- What the search comes to if rewriting ends well. -/
theorem exists_rounds_of_rewrite (ho : o.isEmpty = false) (h : o.rewrite cfg p = .ok q) :
    ∃ st : Search, q.rules = st.found.toList ∧
      o.rounds cfg cfg.maxDepth (o.start cfg p).found.toList (o.start cfg p) = .ok st ∧
      st.Sound o p cfg.maxDepth ∧ ∀ k, o.CoversLevel p st.found.toList k := by
  have hexact := rounds_start_exact o cfg p
  rw [rewrite_of_isEmpty_eq_false ho] at h
  cases hrounds : o.rounds cfg cfg.maxDepth (o.start cfg p).found.toList (o.start cfg p) with
  | error e =>
    rw [hrounds] at h
    exact nomatch h
  | ok st =>
    rw [hrounds] at h hexact
    obtain rfl := Except.ok.inj h
    exact ⟨st, rfl, rfl, hexact.1, hexact.2⟩

/-- The rules returned represent the level at the greatest depth. -/
theorem represents_of_rewrite (ho : o.isEmpty = false) (h : o.rewrite cfg p = .ok q) :
    Represents q.rules (o.level p cfg.maxDepth) := by
  obtain ⟨st, hq, -, hsound, hcov⟩ := exists_rounds_of_rewrite ho h
  rw [hq]
  exact hsound.represents (hcov _)

/-- If the last level is reached, the search ends well with a bound on rules that is as great as the
number of rules in it. -/
theorem exists_rounds_of_represents {rules : List Rule}
    (hstable : o.level p (cfg.maxDepth + 1) ⊆ o.level p cfg.maxDepth)
    (hrules : Represents rules (o.level p cfg.maxDepth)) (hroom : rules.length ≤ cfg.maxRules) :
    ∃ st : Search, o.rounds cfg cfg.maxDepth (o.start cfg p).found.toList (o.start cfg p) = .ok st ∧
      Represents st.found.toList (o.level p cfg.maxDepth) := by
  have hexact := rounds_start_exact o cfg p
  cases hrounds : o.rounds cfg cfg.maxDepth (o.start cfg p).found.toList (o.start cfg p) with
  | ok st =>
    rw [hrounds] at hexact
    exact ⟨st, rfl, hexact.1.represents (hexact.2 _)⟩
  | error e =>
    rw [hrounds] at hexact
    obtain ⟨k, st, r, hsound, hnew, ⟨rfl, hcov, hr, -⟩ | ⟨hr, hfull, -⟩⟩ := hexact
    · -- the rule that is too deep would be in the last level
      exact absurd (hstable hr.mem_level) (hcov.notMem hnew)
    · -- the rules found and the one that is too many would all be in the last level
      have hsub : ∀ s ∈ st.found.toList ++ [r], s ∈ o.level p cfg.maxDepth := by
        intro s hs
        refine level_subset_of_stable hstable k ?_
        rcases List.mem_append.mp hs with hs | hs
        · exact (hsound.obtained s hs).mem_level
        · rw [List.mem_singleton.mp hs]
          exact hr.mem_level
      have hlength := hrules.length_le (Rule.noVariants_concat.mpr ⟨hsound.distinct, hnew⟩) hsub
      rw [List.length_append, Array.length_toList, List.length_singleton] at hlength
      omega

/-- When rewriting with ontology rules ends well. -/
theorem rewrite_isOk_iff (ho : o.isEmpty = false) :
    (∃ q, o.rewrite cfg p = .ok q) ↔ o.level p (cfg.maxDepth + 1) ⊆ o.level p cfg.maxDepth ∧
      ∃ rules, Represents rules (o.level p cfg.maxDepth) ∧
        rules.length ≤ max cfg.maxRules (Rule.firstVariants p.rules).length := by
  constructor
  · rintro ⟨q, h⟩
    obtain ⟨st, -, hrounds, hsound, hcov⟩ := exists_rounds_of_rewrite ho h
    have hlast := hsound.represents (hcov _)
    refine ⟨fun r hr => ?_, st.found.toList, hlast, ?_⟩
    · obtain ⟨s, hs, hv⟩ := hcov _ r hr
      exact level_of_isVariant (hlast.mem s hs) hv
    · have hbounded := (rounds_grows hrounds).bounded
      rwa [← Array.length_toList, ← Array.length_toList, found_start] at hbounded
  · rintro ⟨hstable, rules, hrules, hroom⟩
    -- the bound is first set to the number of rules in the level and then to what it is
    obtain ⟨st, hrounds, hst⟩ :
        ∃ st : Search, o.rounds { cfg with maxRules := rules.length } cfg.maxDepth
            (o.start cfg p).found.toList (o.start cfg p) = .ok st ∧
          Represents st.found.toList (o.level p cfg.maxDepth) :=
      exists_rounds_of_represents hstable hrules (Nat.le_refl _)
    have hlength := hrules.length_le hst.distinct hst.mem
    have hstart : (o.start cfg p).found.size = (Rule.firstVariants p.rules).length := by
      rw [← Array.length_toList, found_start]
    rw [Array.length_toList] at hlength
    have hrun : o.rounds cfg cfg.maxDepth (o.start cfg p).found.toList (o.start cfg p) = .ok st :=
      rounds_of_eq_ok (Nat.le_refl _) (Nat.le_refl _) hrounds (by omega)
    rw [rewrite_of_isEmpty_eq_false ho, hrun]
    exact ⟨_, rfl⟩

/-! ## Ontologies that do nothing -/

/-- Whether no rule of an ontology has a head for a predicate in the bodies of a program. -/
def Idle (rs : List Rule) (p : Program) : Prop :=
  ∀ d ∈ rs, ∀ r ∈ p.rules, ∀ a ∈ r.bodyAtoms, d.headPredicate? ≠ some a.predicate

instance (rs : List Rule) (p : Program) : Decidable (Idle rs p) :=
  inferInstanceAs (Decidable (∀ d ∈ rs, ∀ r ∈ p.rules, ∀ a ∈ r.bodyAtoms,
    d.headPredicate? ≠ some a.predicate))

theorem Idle.steps_eq_nil {rs : List Rule} (h : Idle rs p) (hr : r ∈ p.rules) :
    (ofRules rs).steps r = [] := by
  refine List.eq_nil_iff_forall_not_mem.mpr fun ⟨i, d⟩ hstep => ?_
  obtain ⟨a, ha, hd, hhead⟩ := mem_steps.mp hstep
  exact h d (List.mem_of_mem_filter hd) r hr a (List.mem_of_getElem? ha) hhead

/-- If the rules found have no steps, the search ends as it begins. -/
theorem rounds_of_steps_eq_nil {st : Search} {frontier : List Rule}
    (h : ∀ r ∈ st.found.toList, o.steps r = []) (hsub : frontier ⊆ st.found.toList) (n : Nat) :
    rounds o cfg n frontier st = .ok st := by
  refine rounds_of_step (P := fun x => x = .ok st) (fun _ st' r hr step hstep hst' => ?_) hsub rfl n
  obtain rfl := Except.ok.inj hst'
  rw [h r hr] at hstep
  exact absurd hstep (by simp)

/-- An ontology that can do nothing leaves the program as it is if it has no rules, and otherwise
without later variants, within any bounds.  So the answers are the same if there are no rules or no
variants. -/
theorem rewrite_idle {rs : List Rule} (h : Idle rs p) (cfg : Settings) :
    (ofRules []).rewrite cfg p = .ok p ∧
      (ofRules rs).rewrite cfg p =
        .ok (if (ofRules rs).isEmpty then p else ⟨Rule.firstVariants p.rules⟩) ∧
      ((ofRules rs).rewrite cfg p = (ofRules []).rewrite cfg p ↔
        (ofRules rs).isEmpty = true ∨ Rule.NoVariants p.rules) := by
  have hempty : (ofRules []).rewrite cfg p = .ok p := if_pos rfl
  have hresult : (ofRules rs).rewrite cfg p =
      .ok (if (ofRules rs).isEmpty then p else ⟨Rule.firstVariants p.rules⟩) := by
    cases ho : (ofRules rs).isEmpty with
    | true => rw [rewrite, if_pos ho, if_pos rfl]
    | false =>
      have hsteps : ∀ r ∈ ((ofRules rs).start cfg p).found.toList, (ofRules rs).steps r = [] := by
        intro r hr
        rw [found_start] at hr
        exact h.steps_eq_nil (Rule.firstVariants_subset _ hr)
      rw [rewrite_of_isEmpty_eq_false ho, rounds_of_steps_eq_nil hsteps (List.Subset.refl _),
        if_neg (by simp)]
      dsimp only
      rw [found_start]
  refine ⟨hempty, hresult, ?_⟩
  rw [hempty, hresult, Except.ok.injEq]
  cases (ofRules rs).isEmpty with
  | true => simp
  | false =>
    rw [if_neg (by simp), ← Rule.firstVariants_eq_self_iff, Program.mk.injEq]
    simp

/-- A query for all that teach and for all that are taught. -/
def teaching : Program :=
  ⟨[⟨some (.plain "q" [.var ⟨"x"⟩]), some [.plain "t" [.var ⟨"x"⟩, .var ⟨"y"⟩]]⟩,
    ⟨some (.plain "q" [.var ⟨"y"⟩]), some [.plain "t" [.var ⟨"x"⟩, .var ⟨"y"⟩]]⟩]⟩

/-- That students are persons has nothing to do with teachers, even if no step and no rule is
allowed.  The two rules have the same body, but they are no variants. -/
theorem rewrite_idle_teachers :
    Idle students.program.rules teaching ∧
      (ofRules students.program.rules).isEmpty = false ∧ Rule.NoVariants teaching.rules ∧
      (ofRules students.program.rules).rewrite { maxDepth := 0, maxRules := 0 } teaching =
        (ofRules []).rewrite { maxDepth := 0, maxRules := 0 } teaching := by
  have h : Idle students.program.rules teaching := by decide
  have hdistinct : Rule.NoVariants teaching.rules := Rule.noVariants_iff.mpr (by decide)
  obtain ⟨-, -, hsame⟩ := rewrite_idle h { maxDepth := 0, maxRules := 0 }
  exact ⟨h, rfl, hdistinct, hsame.mpr (Or.inr hdistinct)⟩

/-- A query for teachers, written down twice. -/
def teachersTwice : Program :=
  ⟨[⟨some (.plain "q" [.var ⟨"x"⟩]), some [.plain "t" [.var ⟨"x"⟩]]⟩,
    ⟨some (.plain "q" [.var ⟨"y"⟩]), some [.plain "t" [.var ⟨"y"⟩]]⟩]⟩

/-- Without ontology rules both variants are returned, with a rule for students one of them. -/
theorem rewrite_teachersTwice_ne :
    Idle students.program.rules teachersTwice ∧
      (ofRules students.program.rules).isEmpty = false ∧
      (ofRules []).rewrite {} teachersTwice = .ok teachersTwice ∧
      (ofRules students.program.rules).rewrite {} teachersTwice =
        .ok ⟨teachersTwice.rules.take 1⟩ ∧
      (ofRules students.program.rules).rewrite {} teachersTwice ≠
        (ofRules []).rewrite {} teachersTwice := by
  have hnone : (ofRules []).rewrite {} teachersTwice = .ok teachersTwice := rfl
  have hsome : (ofRules students.program.rules).rewrite {} teachersTwice =
      .ok ⟨teachersTwice.rules.take 1⟩ := by cbv
  refine ⟨by decide, rfl, hnone, hsome, ?_⟩
  rw [hnone, hsome]
  decide

end Ontology

end OntoQuery
