import OntoQuery.Proofs.AcyclicUnfolding
import OntoQuery.Proofs.UnfoldingResult

/-!
# When unfolding reports the depth bound

The depth bound is about the number of resolution steps applied to one rule.  Unfolding looks at the
bound when it meets a rule that has used up all its steps and still has a defined atom, and it does
so *before* it tries the definitions of that atom.  So what it reports is that some chain of exactly
`maxDepth` steps has not come to an end, and not that some chain has more steps: if none of the
definitions unifies with the atom, then the rule would have been dropped with the next look.

Chains are made of steps in which the definitions are renamed apart in any way.
`Definitions.generation` lists what a number of steps makes of a rule with one way of renaming
apart, and all other chains end in variants of what it lists (`Chain.exists_generation`).

* `isDeeper_iff`: a branch goes on below a depth if and only if a chain of that many steps is
  unfinished.
* `unfold_depth`: when the bound is reported, and what this says about longer chains.
* `unfold_depth_spurious`: the bound is reported although no chain has more steps than allowed.
-/

namespace OntoQuery

namespace Definitions

variable {d : Definitions} {r r' r'' s : Rule} {n m : Nat}

/-- The steps of unfolding: a rule is resolved at its first defined atom, with a definition that is
renamed apart from it and unifies. -/
def Step (d : Definitions) (r r' : Rule) : Prop :=
  ∃ i s, ∃ g : FreshVars, d.position? r = some i ∧ s ∈ d.ofAtom r i ∧ g.Avoids r.vars ∧
    (r.resolve i s g).1 = some r'

/-- Chains of a number of steps from one rule to another. -/
inductive Chain (d : Definitions) : Nat → Rule → Rule → Prop where
  /-- No step. -/
  | refl (r : Rule) : Chain d 0 r r
  /-- A step and then a chain. -/
  | step {n : Nat} {r r' r'' : Rule} (h : d.Step r r') (h' : Chain d n r' r'') :
      Chain d (n + 1) r r''

/-- Whether a rule has a defined atom left. -/
def Unfinished (d : Definitions) (r : Rule) : Prop := (d.position? r).isSome = true

/-- A chain can be broken off. -/
theorem Chain.exists_of_le (h : d.Chain n r r') (hm : m ≤ n) : ∃ s, d.Chain m r s := by
  induction h generalizing m with
  | refl r =>
    obtain rfl : m = 0 := by omega
    exact ⟨r, .refl r⟩
  | @step n r r' r'' h _ ih =>
    cases m with
    | zero => exact ⟨r, .refl r⟩
    | succ m =>
      obtain ⟨s, hs⟩ := ih (Nat.le_of_succ_le_succ hm)
      exact ⟨s, .step h hs⟩

/-- A chain can be continued by a step. -/
theorem Chain.concat (h : d.Chain n r r') (h' : d.Step r' r'') : d.Chain (n + 1) r r'' := by
  induction h with
  | refl r => exact .step h' (.refl r'')
  | step h _ ih => exact .step h (ih h')

/-! ## Chains up to variants -/

/-- What a number of steps makes of a rule, with one way of renaming apart. -/
def generation (d : Definitions) : Nat → Rule → List Rule
  | 0, r => [r]
  | n + 1, r =>
    match d.position? r with
    | none => []
    | some i => ((d.ofAtom r i).filterMap (r.resolvent i)).flatMap (generation d n)

theorem generation_succ {i : Nat} (h : d.position? r = some i) :
    d.generation (n + 1) r =
      ((d.ofAtom r i).filterMap (r.resolvent i)).flatMap (d.generation n) := by
  rw [generation, h]

/-- What is listed ends a chain. -/
theorem chain_of_mem_generation (h : s ∈ d.generation n r) : d.Chain n r s := by
  induction n generalizing r with
  | zero =>
    obtain rfl := List.mem_singleton.mp h
    exact .refl s
  | succ n ih =>
    cases hpos : d.position? r with
    | none =>
      rw [generation, hpos] at h
      exact absurd h (by simp)
    | some i =>
      rw [generation_succ hpos] at h
      obtain ⟨c, hc, hs⟩ := List.mem_flatMap.mp h
      obtain ⟨t, ht, hres⟩ := List.mem_filterMap.mp hc
      exact .step ⟨i, t, _, hpos, ht, FreshVars.avoids_reserve _ _, hres⟩ (ih hs)

/-- The end of a chain has a variant among what is listed, also for a variant of its start. -/
theorem Chain.exists_generation (h : d.Chain n r r') (hv : r.IsVariant s) :
    ∃ c ∈ d.generation n s, r'.IsVariant c := by
  induction h generalizing s with
  | refl r => exact ⟨s, List.mem_singleton_self s, hv⟩
  | @step n r r' r'' h _ ih =>
    obtain ⟨i, t, g, hpos, ht, hg, hres⟩ := h
    obtain ⟨s', hs', hv'⟩ := hv.exists_resolve (.refl t) hg
      (FreshVars.avoids_reserve { stem := "v" } s.vars) hres
    obtain ⟨c, hc, hcv⟩ := ih hv'
    have hpos' : d.position? s = some i := (d.position?_eq_of_isVariant hv).trans hpos
    have hmem : s' ∈ (d.ofAtom s i).filterMap (s.resolvent i) := by
      rw [d.ofAtom_eq_of_isVariant hv]
      exact List.mem_filterMap.mpr ⟨t, ht, hs'⟩
    refine ⟨c, ?_, hcv⟩
    rw [generation_succ hpos']
    exact List.mem_flatMap.mpr ⟨s', hmem, hc⟩

/-- A branch goes on below a depth if a rule that is listed there is unfinished. -/
theorem isDeeper_eq_true_iff_generation :
    d.isDeeper n r = true ↔ ∃ c ∈ d.generation n r, d.Unfinished c := by
  induction n generalizing r with
  | zero =>
    cases hpos : d.position? r with
    | none => simp [isDeeper_of_leaf hpos, generation, Unfinished, hpos]
    | some i => simp [isDeeper_zero hpos, generation, Unfinished, hpos]
  | succ n ih =>
    cases hpos : d.position? r with
    | none => simp [isDeeper_of_leaf hpos, generation, hpos]
    | some i =>
      rw [isDeeper_succ hpos, generation_succ hpos, List.any_eq_true]
      constructor
      · rintro ⟨c, hc, hdeep⟩
        obtain ⟨e, he, hopen⟩ := ih.mp hdeep
        exact ⟨e, List.mem_flatMap.mpr ⟨c, hc, he⟩, hopen⟩
      · rintro ⟨e, he, hopen⟩
        obtain ⟨c, hc, he⟩ := List.mem_flatMap.mp he
        exact ⟨c, hc, ih.mpr ⟨e, he, hopen⟩⟩

/-- If no chain has as many steps as a depth, then there are no leaves at this depth that are not
above it. -/
theorem leaves_succ_eq_of_generation (h : d.generation (n + 1) r = []) :
    d.leaves (n + 1) r = d.leaves n r := by
  induction n generalizing r with
  | zero =>
    cases hpos : d.position? r with
    | none => rw [leaves_of_leaf hpos, leaves_of_leaf hpos]
    | some i =>
      have hchildren : (d.ofAtom r i).filterMap (r.resolvent i) = [] := by
        refine List.eq_nil_iff_forall_not_mem.mpr fun c hc => ?_
        rw [generation_succ hpos, List.flatMap_eq_nil_iff] at h
        exact absurd (h c hc) (by simp [generation])
      rw [leaves_succ hpos, leaves_zero hpos, hchildren, List.flatMap_nil]
  | succ n ih =>
    cases hpos : d.position? r with
    | none => rw [leaves_of_leaf hpos, leaves_of_leaf hpos]
    | some i =>
      rw [generation_succ hpos, List.flatMap_eq_nil_iff] at h
      rw [leaves_succ hpos, leaves_succ hpos]
      exact List.flatMap_congr fun c hc => ih (h c hc)

/-- If no chain from a rule has more steps than a depth, then nothing in its tree is below this
depth. -/
theorem leaves_eq_of_chains (h : ∀ k r', d.Chain k r r' → k ≤ n) (hm : n < m) :
    d.isDeeper m r = false ∧ d.leaves m r = d.leaves n r := by
  have hnone : d.generation (n + 1) r = [] := by
    refine List.eq_nil_iff_forall_not_mem.mpr fun c hc => ?_
    exact absurd (h _ c (chain_of_mem_generation hc)) (Nat.not_succ_le_self n)
  have hshallow : d.isDeeper (n + 1) r = false := by
    rw [Bool.eq_false_iff, ne_eq, isDeeper_eq_true_iff_generation, hnone]
    simp
  obtain ⟨hdeep, hleaves⟩ := leaves_eq_of_le hshallow hm
  exact ⟨hdeep, hleaves.trans (leaves_succ_eq_of_generation hnone)⟩

/-- A branch goes on below a depth if and only if a chain of that many steps is unfinished. -/
theorem isDeeper_iff : d.isDeeper n r = true ↔ ∃ r', d.Chain n r r' ∧ d.Unfinished r' := by
  rw [isDeeper_eq_true_iff_generation]
  constructor
  · rintro ⟨c, hc, hopen⟩
    exact ⟨c, chain_of_mem_generation hc, hopen⟩
  · rintro ⟨r', hchain, hopen⟩
    obtain ⟨c, hc, hv⟩ := hchain.exists_generation (.refl r)
    refine ⟨c, hc, ?_⟩
    rwa [Unfinished, d.position?_eq_of_isVariant hv]

end Definitions

/-! ## The outcome of unfolding -/

/-- A walk ends at the depth bound only if it is cut off, and if it is, then only a leaf too many
keeps it from doing so. -/
theorem Walk.Collects.hit_eq_depth {cfg : Settings} {w : Walk} {rules : List Rule} {deep : Bool}
    {x : Except Walk Walk} (h : Collects cfg w rules deep x) (hw : w.hit = none) :
    ((final x).hit = some .depth → deep = true) ∧
      (deep = true → (w.formsWith rules).length ≤ cfg.maxRules → (final x).hit = some .depth) := by
  cases x with
  | ok v =>
    have h : Collected cfg w rules deep v := h
    have hhit : (final (.ok v)).hit = if deep then some .depth else none := by
      rw [← hw]
      exact h.hit
    constructor
    · intro hdepth
      rw [hhit] at hdepth
      by_contra hshallow
      rw [if_neg hshallow] at hdepth
      exact nomatch hdepth
    · rintro rfl -
      exact hhit
  | error v =>
    rcases h with ⟨hdeep, -, hhit⟩ | ⟨hhit, hlt, -⟩
    · exact ⟨fun _ => hdeep, fun _ _ => hhit⟩
    · constructor
      · intro hdepth
        exact nomatch hhit.symm.trans hdepth
      · intro _ hroom
        omega

namespace Program

variable {query : Program} {mappings : List Rule} {cfg : Settings} {target : Symbol}

/-- The bound is reported if the walk ends at it and nothing is recursive. -/
theorem unfold_eq_depth_iff {limit : Nat} {found : Option Program} :
    query.unfold mappings cfg target = .error (.boundExceeded .depth limit found) ↔
      query.rulesWithHead target ≠ [] ∧ query.cyclic mappings target = [] ∧
        (query.walk mappings cfg target).hit = some .depth ∧ limit = cfg.maxDepth ∧
        found = kept cfg (query.walk mappings cfg target) := by
  by_cases hdef : query.rulesWithHead target = []
  · rw [unfold_of_undefined hdef]
    simp [hdef]
  by_cases hcyclic : query.cyclic mappings target = []
  · rw [unfold_of_acyclic hdef hcyclic]
    split
    · simp_all
    · next hhit => simp [hdef, hcyclic, hhit, eq_comm]
    · next hhit => simp [hhit]
  · rw [unfold_of_cyclic hdef hcyclic]
    simp [hcyclic]

/-- Whether some chain of a number of steps from a rule of the target is unfinished. -/
theorem isDeeper_iff_chain {n : Nat} :
    query.isDeeper mappings target n = true ↔ ∃ r ∈ query.rulesWithHead target, ∃ r',
      (Definitions.ofQuery query mappings target).Chain n r r' ∧
      (Definitions.ofQuery query mappings target).Unfinished r' := by
  simp only [isDeeper, List.any_eq_true, Definitions.isDeeper_iff]

/-- If no chain has more steps than allowed, and there is room for all leaves, then unfolding ends
well with every greater bound. -/
theorem exists_unfold_of_chains {m : Nat} (hdef : query.rulesWithHead target ≠ [])
    (hcyclic : query.cyclic mappings target = [])
    (hroom : ((query.leaves mappings target cfg.maxDepth).map Rule.canonical).eraseDups.length ≤
      cfg.maxRules)
    (h : ∀ r ∈ query.rulesWithHead target, ∀ n r',
      (Definitions.ofQuery query mappings target).Chain n r r' → n ≤ cfg.maxDepth)
    (hm : cfg.maxDepth < m) :
    ∃ result, query.unfold mappings { cfg with maxDepth := m } target = .ok result := by
  have hsame := fun r hr => Definitions.leaves_eq_of_chains (h r hr) hm
  have hleaves : query.leaves mappings target m = query.leaves mappings target cfg.maxDepth :=
    List.flatMap_congr fun r hr => (hsame r hr).2
  refine unfold_isOk_iff.mpr ⟨hdef, hcyclic, ?_, ?_⟩
  · exact List.any_eq_false.mpr fun r hr => Bool.eq_false_iff.mp (hsame r hr).1
  · show ((query.leaves mappings target m).map Rule.canonical).eraseDups.length ≤ cfg.maxRules
    rw [hleaves]
    exact hroom

/-- Unfolding reports the depth bound only if, from some rule of the target, a chain of exactly that
many steps is unfinished; if each unfinished rule at the end of such a chain has a definition that
unifies, then some chain has more steps.

Suppose that nothing is recursive and that there is room for all leaves.  If such an unfinished
chain exists, then the bound is reported.  If no chain has more steps than allowed, then unfolding
ends well with every greater bound. -/
theorem unfold_depth (query : Program) (mappings : List Rule) (cfg : Settings) (target : Symbol) :
    let d := Definitions.ofQuery query mappings target
    (∀ limit found,
      query.unfold mappings cfg target = .error (.boundExceeded .depth limit found) →
        limit = cfg.maxDepth ∧
        (∃ r ∈ query.rulesWithHead target, ∃ r', d.Chain cfg.maxDepth r r' ∧ d.Unfinished r') ∧
        ((∀ r ∈ query.rulesWithHead target, ∀ r', d.Chain cfg.maxDepth r r' → d.Unfinished r' →
            ∃ r'', d.Step r' r'') →
          ∃ r ∈ query.rulesWithHead target, ∃ n r', cfg.maxDepth < n ∧ d.Chain n r r')) ∧
    (query.rulesWithHead target ≠ [] →
      (∀ q, ¬LeadsToCycle (query.unfoldingRules mappings target) target q) →
      ((query.leaves mappings target cfg.maxDepth).map Rule.canonical).eraseDups.length ≤
        cfg.maxRules →
      ((∃ r ∈ query.rulesWithHead target, ∃ r', d.Chain cfg.maxDepth r r' ∧ d.Unfinished r') →
        ∃ found, query.unfold mappings cfg target =
          .error (.boundExceeded .depth cfg.maxDepth found)) ∧
      ((∀ r ∈ query.rulesWithHead target, ∀ n r', d.Chain n r r' → n ≤ cfg.maxDepth) →
        ∀ m, cfg.maxDepth < m →
          ∃ result, query.unfold mappings { cfg with maxDepth := m } target = .ok result)) := by
  intro d
  obtain ⟨honly, hthen⟩ := (Walk.start_collects cfg (query.rulesWithHead target) d).hit_eq_depth rfl
  refine ⟨fun limit found h => ?_, fun hdef hacyclic hroom => ?_⟩
  · obtain ⟨-, -, hhit, rfl, -⟩ := unfold_eq_depth_iff.mp h
    have hchain := isDeeper_iff_chain.mp (honly hhit)
    refine ⟨rfl, hchain, fun hgoes => ?_⟩
    obtain ⟨r, hr, r', hrr', hopen⟩ := hchain
    obtain ⟨r'', hstep⟩ := hgoes r hr r' hrr' hopen
    exact ⟨r, hr, cfg.maxDepth + 1, r'', Nat.lt_succ_self _, hrr'.concat hstep⟩
  · have hcyclic : query.cyclic mappings target = [] :=
      List.eq_nil_iff_forall_not_mem.mpr fun q hq => hacyclic q ((mem_cyclic_iff hdef).mp hq)
    refine ⟨fun hchain => ?_, fun hchains m hm =>
      exists_unfold_of_chains hdef hcyclic hroom hchains hm⟩
    have hhit := hthen (isDeeper_iff_chain.mpr hchain) hroom
    exact ⟨_, unfold_eq_depth_iff.mpr ⟨hdef, hcyclic, hhit, rfl, rfl⟩⟩

/-- A query for members of two classes, one of which is asked for under a key. -/
def keyed : Program :=
  ⟨[⟨some (.plain "q" [.var ⟨"x"⟩]),
    some [.plain "a" [.var ⟨"x"⟩], .plain "b" [.var ⟨"x"⟩, .iri "k"]]⟩]⟩

/-- Mappings for both classes, the second one under a given key. -/
def keyedMappings (key : String) : List Rule :=
  [⟨some (.plain "a" [.var ⟨"y"⟩]), some [.plain "s" [.var ⟨"y"⟩]]⟩,
    ⟨some (.plain "b" [.var ⟨"y"⟩, .iri key]), some [.plain "t" [.var ⟨"y"⟩]]⟩]

/-- With another key than the one that is asked for, nothing is recursive. -/
theorem not_leadsToCycle_keyed (q : Symbol) :
    ¬LeadsToCycle (keyed.unfoldingRules (keyedMappings "l") ⟨"q", 1⟩) ⟨"q", 1⟩ q := by
  have hnone : keyed.cyclic (keyedMappings "l") ⟨"q", 1⟩ = [] := by cbv
  rw [← mem_cyclic_iff (by decide), hnone]
  simp

/-- With another key, no chain has more than one step. -/
theorem chain_le_one_keyed {r r' : Rule} {n : Nat} (hr : r ∈ keyed.rulesWithHead ⟨"q", 1⟩)
    (h : (Definitions.ofQuery keyed (keyedMappings "l") ⟨"q", 1⟩).Chain n r r') : n ≤ 1 := by
  have hnone : (keyed.rulesWithHead ⟨"q", 1⟩).flatMap
      ((Definitions.ofQuery keyed (keyedMappings "l") ⟨"q", 1⟩).generation 2) = [] := by cbv
  by_contra hlong
  obtain ⟨s, hs⟩ := h.exists_of_le (Nat.lt_of_not_le hlong)
  obtain ⟨c, hc, -⟩ := hs.exists_generation (.refl r)
  rw [List.flatMap_eq_nil_iff.mp hnone r hr] at hc
  exact absurd hc (by simp)

/-- With the key that is asked for, the bound 1 is reported, and an atom is left after one step.
With another key, unfolding ends well with every bound above 1. -/
theorem unfold_depth_keyed :
    keyed.unfold (keyedMappings "k") { maxDepth := 1 } ⟨"q", 1⟩ =
      .error (.boundExceeded .depth 1 none) ∧
    (∃ r ∈ keyed.rulesWithHead ⟨"q", 1⟩, ∃ r',
      (Definitions.ofQuery keyed (keyedMappings "k") ⟨"q", 1⟩).Chain 1 r r' ∧
      (Definitions.ofQuery keyed (keyedMappings "k") ⟨"q", 1⟩).Unfinished r') ∧
    ∀ m, 1 < m → ∃ result,
      keyed.unfold (keyedMappings "l") { maxDepth := m } ⟨"q", 1⟩ = .ok result := by
  have h : keyed.unfold (keyedMappings "k") { maxDepth := 1 } ⟨"q", 1⟩ =
      .error (.boundExceeded .depth 1 none) := by cbv
  have hroom : ((keyed.leaves (keyedMappings "l") ⟨"q", 1⟩ 1).map
      Rule.canonical).eraseDups.length = 0 := by cbv
  obtain ⟨hreported, -⟩ := unfold_depth keyed (keyedMappings "k") { maxDepth := 1 } ⟨"q", 1⟩
  obtain ⟨-, hends⟩ := unfold_depth keyed (keyedMappings "l") { maxDepth := 1 } ⟨"q", 1⟩
  have hchains := (hends (by decide) not_leadsToCycle_keyed (by rw [hroom]; exact Nat.zero_le _)).2
  exact ⟨h, (hreported 1 none h).2.1, hchains fun _ hr _ _ => chain_le_one_keyed hr⟩

/-- With another key, the bound 1 is reported although no chain has more than one step and nothing
is recursive.  With the bound 2, unfolding ends well. -/
theorem unfold_depth_spurious :
    keyed.unfold (keyedMappings "l") { maxDepth := 1 } ⟨"q", 1⟩ =
      .error (.boundExceeded .depth 1 none) ∧
    (∀ q, ¬LeadsToCycle (keyed.unfoldingRules (keyedMappings "l") ⟨"q", 1⟩) ⟨"q", 1⟩ q) ∧
    (∀ r ∈ keyed.rulesWithHead ⟨"q", 1⟩, ∀ n r',
      (Definitions.ofQuery keyed (keyedMappings "l") ⟨"q", 1⟩).Chain n r r' → n ≤ 1) ∧
    keyed.unfold (keyedMappings "l") { maxDepth := 2 } ⟨"q", 1⟩ = .ok ⟨[]⟩ :=
  ⟨by cbv, not_leadsToCycle_keyed, fun _ hr _ _ => chain_le_one_keyed hr, by cbv⟩

end Program

end OntoQuery
