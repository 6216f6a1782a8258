import OntoQuery.Proofs.SaturationLevels
import OntoQuery.Proofs.UnfoldingLeaves

/-!
# How many rules are handed out

Unfolding and rewriting count the rules in their results before they add another one, and stop with
an error when the bound is reached.  In unfolding every rule of the result goes through this test,
so no program that is handed out has more rules than allowed, be it a result or what an error
carries.

Rewriting starts from the rules of the program, which it takes without a test.  If these are too
many, no rule is added any more, but they are handed out.

* `Search.Within`: the number of rules found is within the bound, or only the rules at the start
  have been found.  The search keeps it so, however it ends (`Search.rounds_within`).
* `size_le_maxRules`: what this means for the programs that unfolding and rewriting hand out.
* `rewrite_exceeds_maxRules`: more rules than allowed, with an error and without.
-/

namespace OntoQuery

variable {cfg : Settings}

/-- Whether there are no more rules than allowed, or none besides those given. -/
def Within (cfg : Settings) (base rules : List Rule) : Prop :=
  rules.length ≤ cfg.maxRules ∨ rules = base

/-! ## Rewriting -/

namespace Ontology

variable {o : Ontology} {deeper : Bool} {base : List Rule} {st : Search}

namespace Search

/-- The number of rules with which the search ends, well or not. -/
def Within (cfg : Settings) (base : List Rule) : Except RewritingError Search → Prop
  | .ok st => OntoQuery.Within cfg base st.found.toList
  | .error e => ∀ q ∈ e.found?, OntoQuery.Within cfg base q.rules

/-- A rule is added only if there is room for it. -/
theorem takeNew_within (h : Within cfg base (.ok st)) (r : Rule) :
    Within cfg base (takeNew cfg deeper st r) := by
  unfold takeNew
  split
  · exact h
  · split
    · exact forall_found_exceeded .depth cfg.maxDepth h
    · split
      · exact forall_found_exceeded .rules cfg.maxRules h
      · next hroom =>
        refine Or.inl ?_
        rw [Array.toList_push, List.length_append, Array.length_toList, List.length_singleton]
        omega

theorem resolveStep_within (h : Within cfg base (.ok st)) (r : Rule) (step : Nat × Rule) :
    Within cfg base (resolveStep cfg deeper r st step) := by
  obtain ⟨i, d⟩ := step
  cases hres : (r.resolve i d st.fresh).1 with
  | none =>
    rw [resolveStep_of_eq_none hres]
    exact h
  | some r' =>
    rw [resolveStep_of_eq_some hres]
    have hadvanced : Within cfg base (.ok { st with fresh := (r.resolve i d st.fresh).2 }) := h
    exact takeNew_within hadvanced r'

theorem rounds_within {frontier : List Rule} (hsub : frontier ⊆ st.found.toList)
    (h : Within cfg base (.ok st)) (n : Nat) : Within cfg base (rounds o cfg n frontier st) :=
  rounds_of_step (fun _ _ r _ step _ hst => resolveStep_within hst r step) hsub h n

end Search

/-- What rewriting hands out is within the bound, or it is the program, without later variants if
there are ontology rules. -/
theorem within_of_rewrite {p q : Program}
    (h : RewritingError.program? (o.rewrite cfg p) = some q) :
    Within cfg (if o.isEmpty then p.rules else Rule.firstVariants p.rules) q.rules := by
  cases ho : o.isEmpty with
  | true =>
    rw [rewrite, if_pos ho] at h
    exact Or.inr (congrArg Program.rules (Option.some.inj h)).symm
  | false =>
    have hstart : Search.Within cfg (Rule.firstVariants p.rules) (.ok (o.start cfg p)) :=
      Or.inr (found_start o cfg p)
    have hall : Search.Within cfg (Rule.firstVariants p.rules)
        (o.rounds cfg cfg.maxDepth (o.start cfg p).found.toList (o.start cfg p)) :=
      Search.rounds_within (List.Subset.refl _) hstart cfg.maxDepth
    rw [rewrite_of_isEmpty_eq_false ho] at h
    cases hrounds : o.rounds cfg cfg.maxDepth (o.start cfg p).found.toList (o.start cfg p) with
    | ok st =>
      rw [hrounds] at h hall
      obtain rfl := Option.some.inj h
      exact hall
    | error e =>
      rw [hrounds] at h hall
      exact hall q h

end Ontology

/-! ## Unfolding -/

/-- What unfolding hands out is what the walk has kept, which is no more than allowed. -/
theorem Program.size_le_of_unfold {query q : Program} {mappings : List Rule} {target : Symbol}
    (h : RewritingError.program? (query.unfold mappings cfg target) = some q) :
    q.size ≤ cfg.maxRules := by
  obtain ⟨hrules, hcut⟩ := rules_eq_of_program? h
  have hforms := (Walk.start_collects cfg (query.rulesWithHead target)
    (Definitions.ofQuery query mappings target)).forms_final hcut
  calc q.size = (query.walk mappings cfg target).forms.length := by
        rw [Program.size, hrules, Walk.forms, List.length_map]
    _ ≤ cfg.maxRules := by
        rw [walk, hforms]
        exact List.length_take_le _ _

/-! ## Both -/

/-- No program that unfolding hands out, with an error or without, has more rules than allowed.  A
program that rewriting hands out has more rules only if nothing has been added: it is the one that
was given, without later variants if there are ontology rules.  So if the program that was given is
within the bound, the one that is handed out is as well. -/
theorem size_le_maxRules (rs : List Rule) (cfg : Settings) (p : Program) :
    (∀ target q, RewritingError.program? (p.unfold rs cfg target) = some q →
      q.size ≤ cfg.maxRules) ∧
    ∀ q, RewritingError.program? ((Ontology.ofRules rs).rewrite cfg p) = some q →
      (q.size ≤ cfg.maxRules ∨ q.rules =
        if (Ontology.ofRules rs).isEmpty then p.rules else Rule.firstVariants p.rules) ∧
      (p.size ≤ cfg.maxRules → q.size ≤ cfg.maxRules) := by
  refine ⟨fun _ _ h => Program.size_le_of_unfold h, fun q h => ?_⟩
  have hwithin := Ontology.within_of_rewrite h
  refine ⟨hwithin, fun hp => ?_⟩
  rcases hwithin with hsize | hrules
  · exact hsize
  · refine Nat.le_trans ?_ hp
    rw [Program.size, hrules, Program.size]
    split
    · exact Nat.le_refl _
    · exact Rule.length_firstVariants_le p.rules

/-- If one rule is allowed, one of the ways is handed out by unfolding, and none besides the query
by rewriting. -/
theorem size_le_maxRules_someWay :
    let cfg : Settings := { maxDepth := 2, maxRules := 1, cyclePolicy := .keepPartial }
    (∃ q, RewritingError.program? (Program.someWay.unfold Program.ways cfg ⟨"q", 0⟩) = some q ∧
      q.size ≤ 1) ∧
    ∃ q, RewritingError.program? ((Ontology.ofRules Program.ways).rewrite cfg Program.someWay) =
        some q ∧ Program.someWay.size ≤ 1 ∧ q.size ≤ 1 := by
  intro cfg
  have hunfold : Program.someWay.unfold Program.ways cfg ⟨"q", 0⟩ =
      .error (.cycleDetected [⟨"w", 2⟩] (some ⟨Program.shortWays.rules.take 1⟩)) := by cbv
  have hrewrite : (Ontology.ofRules Program.ways).rewrite cfg Program.someWay =
      .error (.boundExceeded .rules 1 (some Program.someWay)) := by cbv
  have hprogram := congrArg RewritingError.program? hunfold
  have hprogram' := congrArg RewritingError.program? hrewrite
  obtain ⟨hsize, hsize'⟩ := size_le_maxRules Program.ways cfg Program.someWay
  exact ⟨⟨_, hprogram, hsize _ _ hprogram⟩,
    ⟨_, hprogram', Nat.le_refl 1, (hsize' _ hprogram').2 (Nat.le_refl 1)⟩⟩

/-- A query for anything in one of two classes. -/
def inEither (a b : String) : Program := ⟨(Ontology.anyIn a).rules ++ (Ontology.anyIn b).rules⟩

/-- If one rule is allowed and two are given, both are returned where the ontology has nothing to
add, and both are handed out with the error where it has. -/
theorem rewrite_exceeds_maxRules :
    let cfg : Settings := { maxRules := 1, cyclePolicy := .keepPartial }
    Ontology.students.rewrite cfg (inEither "s" "t") = .ok (inEither "s" "t") ∧
      cfg.maxRules < (inEither "s" "t").size ∧
    Ontology.students.rewrite cfg (inEither "p" "t") =
        .error (.boundExceeded .rules 1 (some (inEither "p" "t"))) ∧
      cfg.maxRules < (inEither "p" "t").size := by
  intro cfg
  have hidle : Ontology.students.rewrite cfg (inEither "s" "t") = .ok (inEither "s" "t") := by cbv
  have hfull : Ontology.students.rewrite cfg (inEither "p" "t") =
      .error (.boundExceeded .rules 1 (some (inEither "p" "t"))) := by cbv
  exact ⟨hidle, by decide, hfull, by decide⟩

end OntoQuery
