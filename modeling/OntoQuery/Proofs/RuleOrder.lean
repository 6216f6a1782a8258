import OntoQuery.Proofs.RewritingResult
import OntoQuery.Proofs.UnfoldingResult

/-!
# The order of rules and the names of variables do not matter

Rewriting and unfolding go through rules in their order, and number new variables on the way.  The
order decides which of two variants is kept and what has been found when a bound is reached, but
neither whether a run ends well nor which rules it then returns.

Both are known without the order.  For rewriting, the rules returned represent the last level, and
levels are the same for the same rules (`Ontology.level_eq_of_sameRules`).  For unfolding, they are
the leaves of trees, and over the same definitions the trees of variants have the same leaves
(`Definitions.Same.sameRules_leaves`): at each node, the children are the same rules in another
order.

* `SameOutcome`: what two runs have in common then.
* `sameOutcome_of_sameRules`: rewriting and unfolding of the same rules have the same outcome.
-/

namespace OntoQuery

/-- Whether both of two runs end well, with the same rules, or neither does. -/
structure SameOutcome (x y : Except RewritingError Program) : Prop where
  /-- One ends well if and only if the other does. -/
  isOk_iff : (∃ q, x = .ok q) ↔ ∃ q, y = .ok q
  /-- The rules returned are the same. -/
  sameRules : ∀ q q', x = .ok q → y = .ok q' → SameRules q.rules q'.rules

/-! ## What variants and the same rules have in common -/

theorem Rule.IsVariant.isSome_head_eq {r s : Rule} (h : r.IsVariant s) :
    s.head.isSome = r.head.isSome := by
  obtain ⟨name, -, rfl⟩ := h
  exact Option.isSome_map

/-- Variants have atoms of the same predicates. -/
theorem Rule.IsVariant.exists_bodyAtom {r s : Rule} (h : r.IsVariant s) {a : Atom}
    (ha : a ∈ r.bodyAtoms) : ∃ b ∈ s.bodyAtoms, b.predicate = a.predicate := by
  obtain ⟨name, -, rfl⟩ := h
  rw [Rule.bodyAtoms_bind]
  exact ⟨_, List.mem_map_of_mem ha, Atom.predicate_bind _ a⟩

namespace SameRules

variable {l m : List Rule} {p q : Symbol}

/-- The same rules are rules for the same predicates. -/
theorem exists_headPredicate?_iff (h : SameRules l m) :
    (∃ r ∈ l, r.headPredicate? = some p) ↔ ∃ s ∈ m, s.headPredicate? = some p := by
  have hsub : ∀ {l m : List Rule}, SameRules l m →
      (∃ r ∈ l, r.headPredicate? = some p) → ∃ s ∈ m, s.headPredicate? = some p := by
    rintro l m h ⟨r, hr, hp⟩
    obtain ⟨s, hs, hv⟩ := h.exists_isVariant hr
    exact ⟨s, hs, hv.headPredicate?_eq.trans hp⟩
  exact ⟨hsub h, hsub h.symm⟩

theorem rulesWithHead {query query' : Program} (h : SameRules query.rules query'.rules)
    (p : Symbol) : SameRules (query.rulesWithHead p) (query'.rulesWithHead p) :=
  h.filter fun r s hv => by rw [hv.headPredicate?_eq]

/-- Predicates depend on each other by the same rules. -/
theorem dependsOn_eq (h : SameRules l m) : DependsOn l = DependsOn m := by
  have hsub : ∀ {l m : List Rule} {p q : Symbol}, SameRules l m → DependsOn l p q →
      DependsOn m p q := by
    rintro l m p q h ⟨r, hr, hp, a, ha, hbuiltin, rfl⟩
    obtain ⟨s, hs, hv⟩ := h.exists_isVariant hr
    obtain ⟨b, hb, hba⟩ := hv.exists_bodyAtom ha
    refine ⟨s, hs, hv.headPredicate?_eq.trans hp, b, hb, ?_, hba⟩
    rw [Atom.isBuiltin, hba]
    exact hbuiltin
  funext p q
  exact propext ⟨hsub h, hsub h.symm⟩

/-- The same mappings and definitions leave the same source predicates. -/
theorem isSource_iff {l' m' : List Rule} (h : SameRules l m) (h' : SameRules l' m') :
    IsSource l l' p ↔ IsSource m m' p := by
  have hsub : ∀ {l m l' m' : List Rule}, SameRules l m → SameRules l' m' → IsSource l l' p →
      IsSource m m' p := by
    rintro l m l' m' h h' ⟨hbuiltin, ⟨r, hr, a, ha, rfl⟩, hdef⟩
    obtain ⟨s, hs, hv⟩ := h.exists_isVariant hr
    obtain ⟨b, hb, hba⟩ := hv.exists_bodyAtom ha
    refine ⟨hbuiltin, ⟨s, hs, b, hb, hba⟩, fun t ht he => ?_⟩
    obtain ⟨u, hu, he⟩ := h'.exists_headPredicate?_iff.mpr ⟨t, ht, he⟩
    exact hdef u hu he
  exact ⟨hsub h h', hsub h.symm h'.symm⟩

end SameRules

/-! ## Rewriting -/

namespace Ontology

variable {o o' : Ontology} {cfg cfg' : Settings} {p p' : Program}

/-- The same rules have the same resolvents, step by step. -/
theorem level_eq_of_sameRules (ho : SameRules o.program.rules o'.program.rules)
    (hp : SameRules p.rules p'.rules) (k : Nat) : o.level p k = o'.level p' k := by
  have hsub : ∀ {o o' : Ontology} {p p' : Program}, SameRules o.program.rules o'.program.rules →
      SameRules p.rules p'.rules → o.level p k ⊆ o'.level p' k := by
    rintro o o' p p' ho hp r ⟨s, hs, hv⟩
    refine level_of_isVariant ?_ hv
    clear hv
    induction hs with
    | root hs =>
      obtain ⟨t, ht, hst⟩ := hp.exists_isVariant hs
      exact ⟨t, .root ht, hst.symm⟩
    | step _ hd hg hres ih =>
      obtain ⟨e, he, hde⟩ := ho.exists_isVariant hd
      exact mem_level_succ ih he hde hg hres
  exact Set.Subset.antisymm (hsub ho hp) (hsub ho.symm hp.symm)

theorem sameRules_ofRules {rs rs' : List Rule} (h : SameRules rs rs') :
    SameRules (ofRules rs).program.rules (ofRules rs').program.rules :=
  h.filter fun _ _ hv => hv.isSome_head_eq

/-- Rewriting has the same outcome for the same rules. -/
theorem rewrite_sameOutcome (hdepth : cfg'.maxDepth = cfg.maxDepth)
    (hmax : cfg'.maxRules = cfg.maxRules) (ho : SameRules o.program.rules o'.program.rules)
    (hp : SameRules p.rules p'.rules) :
    SameOutcome (o.rewrite cfg p) (o'.rewrite cfg' p') := by
  have hempty : o'.isEmpty = o.isEmpty := by
    rw [Bool.eq_iff_iff, isEmpty, isEmpty, Program.isEmpty, Program.isEmpty, List.isEmpty_iff,
      List.isEmpty_iff, ho.eq_nil_iff]
  cases he : o.isEmpty with
  | true =>
    rw [he] at hempty
    have hrun : o.rewrite cfg p = .ok p := by rw [rewrite, if_pos he]
    have hrun' : o'.rewrite cfg' p' = .ok p' := by rw [rewrite, if_pos hempty]
    rw [hrun, hrun']
    refine ⟨⟨fun _ => ⟨p', rfl⟩, fun _ => ⟨p, rfl⟩⟩, fun q q' hq hq' => ?_⟩
    obtain rfl := Except.ok.inj hq
    obtain rfl := Except.ok.inj hq'
    exact hp
  | false =>
    rw [he] at hempty
    refine ⟨?_, fun q q' hq hq' => ?_⟩
    · simp only [rewrite_isOk_iff he, rewrite_isOk_iff hempty, hdepth, hmax,
        level_eq_of_sameRules ho hp, hp.length_firstVariants]
    · have hlevel := represents_of_rewrite he hq
      have hlevel' := represents_of_rewrite hempty hq'
      rw [hdepth, ← level_eq_of_sameRules ho hp] at hlevel'
      exact hlevel.sameRules hlevel'

end Ontology

/-! ## Unfolding -/

namespace Definitions

variable {d e : Definitions} {r s : Rule} {i : Nat}

/-- Whether the same rules are definitions and the same predicates are sources. -/
structure Same (d e : Definitions) : Prop where
  /-- The rules are the same. -/
  rules : SameRules d.rules.rules e.rules.rules
  /-- So are the source predicates. -/
  sources : ∀ p, p ∈ d.sources ↔ p ∈ e.sources

/-- The same rules of a query and the same mappings make the same definitions. -/
theorem ofQuery_same {query query' : Program} {mappings mappings' : List Rule}
    (hq : SameRules query.rules query'.rules) (hm : SameRules mappings mappings')
    (target : Symbol) :
    (ofQuery query mappings target).Same (ofQuery query' mappings' target) := by
  have hrules : SameRules
      (query.rules.filter (fun r => r.headPredicate? ≠ some target) ++ mappings)
      (query'.rules.filter (fun r => r.headPredicate? ≠ some target) ++ mappings') :=
    (hq.filter fun r s hv => by rw [hv.headPredicate?_eq]).append hm
  refine ⟨hrules, fun p => ?_⟩
  rw [mem_sources_ofQuery, mem_sources_ofQuery]
  exact hm.isSource_iff hrules

theorem Same.isDefined_eq (h : d.Same e) : d.isDefined = e.isDefined := by
  funext a
  rw [Bool.eq_iff_iff, isDefined_eq_true_iff, isDefined_eq_true_iff, defines_eq_true_iff,
    defines_eq_true_iff, h.rules.exists_headPredicate?_iff]

theorem Same.isFinal_eq (h : d.Same e) : d.isFinal = e.isFinal := by
  funext a
  rw [isFinal, isFinal, decide_eq_decide.mpr (h.sources _)]

theorem Same.position?_eq (h : d.Same e) (hv : r.IsVariant s) : e.position? s = d.position? r := by
  rw [e.position?_eq_of_isVariant hv, position?, position?, h.isDefined_eq]

/-- A node of a tree has the same children over the same definitions. -/
theorem Same.sameRules_resolvents (h : d.Same e) (hv : r.IsVariant s) :
    SameRules ((d.ofAtom r i).filterMap (r.resolvent i))
      ((e.ofAtom s i).filterMap (s.resolvent i)) := by
  have hdefs : SameRules (d.ofAtom r i) (e.ofAtom s i) := by
    rw [e.ofAtom_eq_of_isVariant hv, ofAtom, ofAtom]
    cases r.bodyAtoms[i]? with
    | none => exact ⟨[], .nil, .nil⟩
    | some a => exact h.rules.rulesWithHead a.predicate
  exact hdefs.filterMap fun _ _ hde => hv.resolve i hde (FreshVars.avoids_reserve _ _)
    (FreshVars.avoids_reserve _ _)

/-- Over the same definitions, the trees of variants have the same leaves. -/
theorem Same.sameRules_leaves (h : d.Same e) (hv : r.IsVariant s) (depth : Nat) :
    SameRules (d.leaves depth r) (e.leaves depth s) := by
  have hleaf : ∀ {n : Nat} {r s : Rule}, r.IsVariant s → d.position? r = none →
      SameRules (d.leaves n r) (e.leaves n s) := by
    intro n r s hv hpos
    rw [leaves_of_leaf hpos, leaves_of_leaf ((h.position?_eq hv).trans hpos), ← h.isFinal_eq,
      d.all_isFinal_eq_of_isVariant hv]
    split
    · exact ⟨[r], .refl _, .cons hv .nil⟩
    · exact ⟨[], .nil, .nil⟩
  induction depth generalizing r s with
  | zero =>
    cases hpos : d.position? r with
    | none => exact hleaf hv hpos
    | some i =>
      rw [leaves_zero hpos, leaves_zero ((h.position?_eq hv).trans hpos)]
      exact ⟨[], .nil, .nil⟩
  | succ depth ih =>
    cases hpos : d.position? r with
    | none => exact hleaf hv hpos
    | some i =>
      rw [leaves_succ hpos, leaves_succ ((h.position?_eq hv).trans hpos)]
      exact (h.sameRules_resolvents hv).flatMap fun _ _ hc => ih hc

/-- Over the same definitions, the trees of variants are equally deep. -/
theorem Same.isDeeper_eq (h : d.Same e) (hv : r.IsVariant s) (depth : Nat) :
    d.isDeeper depth r = e.isDeeper depth s := by
  induction depth generalizing r s with
  | zero =>
    cases hpos : d.position? r with
    | none =>
      rw [isDeeper_of_leaf hpos, isDeeper_of_leaf ((h.position?_eq hv).trans hpos)]
    | some i => rw [isDeeper_zero hpos, isDeeper_zero ((h.position?_eq hv).trans hpos)]
  | succ depth ih =>
    cases hpos : d.position? r with
    | none => rw [isDeeper_of_leaf hpos, isDeeper_of_leaf ((h.position?_eq hv).trans hpos)]
    | some i =>
      rw [isDeeper_succ hpos, isDeeper_succ ((h.position?_eq hv).trans hpos)]
      exact (h.sameRules_resolvents hv).any_eq fun _ _ hc => ih hc

end Definitions

namespace Program

variable {query query' : Program} {mappings mappings' : List Rule} {cfg cfg' : Settings}

theorem sameRules_leaves (hq : SameRules query.rules query'.rules)
    (hm : SameRules mappings mappings') (target : Symbol) (depth : Nat) :
    SameRules (query.leaves mappings target depth) (query'.leaves mappings' target depth) :=
  (hq.rulesWithHead target).flatMap fun _ _ hv =>
    (Definitions.ofQuery_same hq hm target).sameRules_leaves hv depth

theorem isDeeper_eq_of_sameRules (hq : SameRules query.rules query'.rules)
    (hm : SameRules mappings mappings') (target : Symbol) (depth : Nat) :
    query.isDeeper mappings target depth = query'.isDeeper mappings' target depth :=
  (hq.rulesWithHead target).any_eq fun _ _ hv =>
    (Definitions.ofQuery_same hq hm target).isDeeper_eq hv depth

/-- The same rules have the same cycles of dependencies. -/
theorem cyclic_eq_nil_iff (hq : SameRules query.rules query'.rules)
    (hm : SameRules mappings mappings') {target : Symbol} (hdef : query.rulesWithHead target ≠ []) :
    query.cyclic mappings target = [] ↔ query'.cyclic mappings' target = [] := by
  have hroots := hq.rulesWithHead target
  have hrules : SameRules (query.unfoldingRules mappings target)
      (query'.unfoldingRules mappings' target) :=
    hroots.append (Definitions.ofQuery_same hq hm target).rules
  rw [List.eq_nil_iff_forall_not_mem, List.eq_nil_iff_forall_not_mem]
  refine forall_congr' fun q => ?_
  rw [mem_cyclic_iff hdef, mem_cyclic_iff (hroots.eq_nil_iff.not.mp hdef), LeadsToCycle,
    LeadsToCycle, hrules.dependsOn_eq]

/-- Unfolding has the same outcome for the same rules. -/
theorem unfold_sameOutcome (hdepth : cfg'.maxDepth = cfg.maxDepth)
    (hmax : cfg'.maxRules = cfg.maxRules) (hq : SameRules query.rules query'.rules)
    (hm : SameRules mappings mappings') (target : Symbol) :
    SameOutcome (query.unfold mappings cfg target) (query'.unfold mappings' cfg' target) := by
  have hroots : query.rulesWithHead target ≠ [] ↔ query'.rulesWithHead target ≠ [] :=
    (hq.rulesWithHead target).eq_nil_iff.not
  have hforms := (sameRules_leaves hq hm target cfg.maxDepth).perm_eraseDups
  refine ⟨?_, fun q q' hq' hq'' => ?_⟩
  · rw [unfold_isOk_iff, unfold_isOk_iff, hdepth, hmax, ← isDeeper_eq_of_sameRules hq hm,
      ← hforms.length_eq, ← hroots]
    refine and_congr_right fun hdef => ?_
    rw [cyclic_eq_nil_iff hq hm hdef]
  · rw [sameRules_iff, map_canonical_of_unfold hq', map_canonical_of_unfold hq'', hdepth]
    exact hforms

end Program

/-- The order of rules and the names of variables do not matter, neither those in the input nor
those that are given to new variables: with the same bounds, rewriting and unfolding end well for a
list of rules if and only if they do for the same rules in another order, and then return the same
rules. -/
theorem sameOutcome_of_sameRules {cfg cfg' : Settings} (hdepth : cfg'.maxDepth = cfg.maxDepth)
    (hmax : cfg'.maxRules = cfg.maxRules) :
    (∀ (rs rs' : List Rule) (p p' : Program), SameRules rs rs' → SameRules p.rules p'.rules →
      SameOutcome ((Ontology.ofRules rs).rewrite cfg p)
        ((Ontology.ofRules rs').rewrite cfg' p')) ∧
    ∀ (query query' : Program) (mappings mappings' : List Rule) (target : Symbol),
      SameRules query.rules query'.rules → SameRules mappings mappings' →
        SameOutcome (query.unfold mappings cfg target)
          (query'.unfold mappings' cfg' target) :=
  ⟨fun _ _ _ _ hrs hp =>
    Ontology.rewrite_sameOutcome hdepth hmax (Ontology.sameRules_ofRules hrs) hp,
    fun _ _ _ _ target hq hm => Program.unfold_sameOutcome hdepth hmax hq hm target⟩

/-- The rule that students, `s`, are persons, `p`, about a variable `x`. -/
def studentRule (x : Var) : Rule := ⟨some (.plain "p" [.var x]), some [.plain "s" [.var x]]⟩

/-- The rule that whoever teaches something, `t`, is a person. -/
def teacherRule (x y : Var) : Rule :=
  ⟨some (.plain "p" [.var x]), some [.plain "t" [.var x, .var y]]⟩

/-- A query for any person. -/
def anyPerson (x : Var) : Program := ⟨[⟨some (.plain "q" []), some [.plain "p" [.var x]]⟩]⟩

/-- If the two rules are exchanged and variables renamed, then rewriting finds students and teachers
the other way round and gives the subject that is taught another name, and nothing else changes. -/
theorem sameOutcome_of_sameRules_persons :
    (Ontology.ofRules [studentRule ⟨"x"⟩, teacherRule ⟨"x"⟩ ⟨"y"⟩]).rewrite {} (anyPerson ⟨"x"⟩) =
      .ok ⟨(anyPerson ⟨"x"⟩).rules ++
        [⟨some (.plain "q" []), some [.plain "s" [.var ⟨"x"⟩]]⟩,
          ⟨some (.plain "q" []), some [.plain "t" [.var ⟨"x"⟩, .var ⟨"_v2"⟩]]⟩]⟩ ∧
    (Ontology.ofRules [teacherRule ⟨"y"⟩ ⟨"z"⟩, studentRule ⟨"z"⟩]).rewrite { freshStem := "w" }
        (anyPerson ⟨"y"⟩) =
      .ok ⟨(anyPerson ⟨"y"⟩).rules ++
        [⟨some (.plain "q" []), some [.plain "t" [.var ⟨"y"⟩, .var ⟨"_w1"⟩]]⟩,
          ⟨some (.plain "q" []), some [.plain "s" [.var ⟨"y"⟩]]⟩]⟩ ∧
    SameOutcome
      ((Ontology.ofRules [studentRule ⟨"x"⟩, teacherRule ⟨"x"⟩ ⟨"y"⟩]).rewrite {} (anyPerson ⟨"x"⟩))
      ((Ontology.ofRules [teacherRule ⟨"y"⟩ ⟨"z"⟩, studentRule ⟨"z"⟩]).rewrite
        { freshStem := "w" } (anyPerson ⟨"y"⟩)) ∧
    SameOutcome
      ((anyPerson ⟨"x"⟩).unfold [studentRule ⟨"x"⟩, teacherRule ⟨"x"⟩ ⟨"y"⟩] {} ⟨"q", 0⟩)
      ((anyPerson ⟨"y"⟩).unfold [teacherRule ⟨"y"⟩ ⟨"z"⟩, studentRule ⟨"z"⟩]
        { freshStem := "w" } ⟨"q", 0⟩) := by
  have hrules : SameRules [studentRule ⟨"x"⟩, teacherRule ⟨"x"⟩ ⟨"y"⟩]
      [teacherRule ⟨"y"⟩ ⟨"z"⟩, studentRule ⟨"z"⟩] := by decide +kernel
  have hquery : SameRules (anyPerson ⟨"x"⟩).rules (anyPerson ⟨"y"⟩).rules := by decide +kernel
  obtain ⟨hrewrite, hunfold⟩ :=
    @sameOutcome_of_sameRules {} { freshStem := "w" } (by decide) (by decide)
  exact ⟨by cbv, by cbv, hrewrite _ _ _ _ hrules hquery, hunfold _ _ _ _ _ hquery hrules⟩

end OntoQuery
