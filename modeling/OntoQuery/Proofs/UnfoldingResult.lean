import OntoQuery.Proofs.AcyclicUnfolding

/-!
# The result of unfolding

Unfolding ends well in exactly one situation: the target is defined, no recursive definition can be
reached from it, no branch of the trees of its rules goes on below the greatest depth, and the
leaves with source atoms only are, variants counted once, not more than the greatest number of rules
(`Program.unfold_isOk_iff`).  The rules returned are then these leaves, up to variants and without
repetition (`Program.map_canonical_of_unfold`).  All of this is said without the names of variables
and without the state of the walk.

What is known of the leaves is therefore known of the rules returned: they consist of source atoms
and of built-in atoms (`Program.isFinal_of_unfold`), and they are rules for the target
(`Program.headPredicate?_of_unfold`).
-/

namespace OntoQuery

namespace Definitions

variable {d : Definitions} {r s : Rule} {depth : Nat}

/-- Leaves have source atoms and built-in atoms only. -/
theorem all_isFinal_of_mem_leaves (h : s ∈ d.leaves depth r) :
    s.bodyAtoms.all d.isFinal = true := by
  have hleaf : ∀ {n : Nat} {r : Rule}, d.position? r = none → s ∈ d.leaves n r →
      s.bodyAtoms.all d.isFinal = true := by
    intro n r hpos h
    rw [leaves_of_leaf hpos] at h
    split at h
    · next hfinal => exact List.mem_singleton.mp h ▸ hfinal
    · exact nomatch h
  induction depth generalizing r with
  | zero =>
    cases hpos : d.position? r with
    | none => exact hleaf hpos h
    | some i =>
      rw [leaves_zero hpos] at h
      exact nomatch h
  | succ depth ih =>
    cases hpos : d.position? r with
    | none => exact hleaf hpos h
    | some i =>
      rw [leaves_succ hpos] at h
      obtain ⟨c, -, hs⟩ := List.mem_flatMap.mp h
      exact ih hs

end Definitions

namespace Program

variable {query result : Program} {mappings : List Rule} {cfg : Settings} {target : Symbol}

/-- The leaves with source atoms only in the trees of the rules of a target, down to a depth. -/
def leaves (query : Program) (mappings : List Rule) (target : Symbol) (depth : Nat) : List Rule :=
  (query.rulesWithHead target).flatMap ((Definitions.ofQuery query mappings target).leaves depth)

/-- Whether a branch of these trees goes on below a depth. -/
def isDeeper (query : Program) (mappings : List Rule) (target : Symbol) (depth : Nat) : Bool :=
  (query.rulesWithHead target).any ((Definitions.ofQuery query mappings target).isDeeper depth)

/-- What the walk has collected if unfolding ends well. -/
theorem exists_collected_of_unfold (h : query.unfold mappings cfg target = .ok result) :
    ∃ w : Walk, result.rules = w.found.toList ∧ w.hit = none ∧ Walk.Collected cfg
      (Walk.start cfg (query.rulesWithHead target) (Definitions.ofQuery query mappings target))
      (query.leaves mappings target cfg.maxDepth) (query.isDeeper mappings target cfg.maxDepth)
      w := by
  obtain ⟨-, w, hhit, rfl, hw⟩ := unfold_eq_ok h
  have hcollects := Walk.start_collects cfg (query.rulesWithHead target)
    (Definitions.ofQuery query mappings target)
  rw [hw] at hcollects
  exact ⟨w, rfl, hhit, hcollects⟩

/-- The rules returned are the leaves, up to variants and without repetition. -/
theorem map_canonical_of_unfold (h : query.unfold mappings cfg target = .ok result) :
    result.rules.map Rule.canonical =
      ((query.leaves mappings target cfg.maxDepth).map Rule.canonical).eraseDups := by
  obtain ⟨w, hresult, -, hcollected⟩ := exists_collected_of_unfold h
  rw [hresult]
  exact hcollected.forms

/-- When unfolding ends well. -/
theorem unfold_isOk_iff :
    (∃ result, query.unfold mappings cfg target = .ok result) ↔
      query.rulesWithHead target ≠ [] ∧ query.cyclic mappings target = [] ∧
        query.isDeeper mappings target cfg.maxDepth = false ∧
        ((query.leaves mappings target cfg.maxDepth).map Rule.canonical).eraseDups.length ≤
          cfg.maxRules := by
  constructor
  · rintro ⟨result, h⟩
    obtain ⟨w, -, hhit, hcollected⟩ := exists_collected_of_unfold h
    refine ⟨fun hdef => ?_, (unfold_eq_ok h).1, ?_, ?_⟩
    · rw [unfold_of_undefined hdef] at h
      exact nomatch h
    · -- a walk that has been cut off would have a mark
      have hmark := hcollected.hit
      rw [hhit] at hmark
      split at hmark
      · exact nomatch hmark
      · next hdeep => exact Bool.eq_false_iff.mpr hdeep
    · have hbounded := hcollected.tidy.bounded
      rw [hcollected.forms] at hbounded
      exact hbounded
  · rintro ⟨hdef, hcyclic, hdeep, hroom⟩
    have hcollects := Walk.start_collects cfg (query.rulesWithHead target)
      (Definitions.ofQuery query mappings target)
    rw [← isDeeper, hdeep] at hcollects
    have hhit : (query.walk mappings cfg target).hit = none := hcollects.hit_eq_none rfl hroom
    rw [unfold_of_acyclic hdef hcyclic, hhit]
    exact ⟨_, rfl⟩

/-- The rules returned have source atoms and built-in atoms only. -/
theorem isFinal_of_unfold (h : query.unfold mappings cfg target = .ok result) {r : Rule}
    (hr : r ∈ result.rules) {a : Atom} (ha : a ∈ r.bodyAtoms) :
    a.isBuiltin = true ∨ IsSource mappings
      (query.rules.filter (fun r => r.headPredicate? ≠ some target) ++ mappings) a.predicate := by
  have hcanonical := List.mem_map_of_mem (f := Rule.canonical) hr
  rw [map_canonical_of_unfold h, List.mem_eraseDups] at hcanonical
  obtain ⟨s, hs, he⟩ := List.mem_map.mp hcanonical
  obtain ⟨root, -, hs⟩ := List.mem_flatMap.mp hs
  have hfinal := Definitions.all_isFinal_of_mem_leaves hs
  rw [← Definitions.all_isFinal_eq_of_isVariant _ (Rule.canonical_eq_iff.mp he),
    List.all_eq_true] at hfinal
  rw [← mem_sources_ofQuery]
  simpa [Definitions.isFinal] using hfinal a ha

/-- The rules returned are rules for the target. -/
theorem headPredicate?_of_unfold (h : query.unfold mappings cfg target = .ok result) {r : Rule}
    (hr : r ∈ result.rules) : r.headPredicate? = some target := by
  obtain ⟨root, hroot, he⟩ := ((unfold_covers h).1 r hr).exists_headPredicate?_eq
  rw [he]
  exact headPredicate?_of_mem_rulesWithHead hroot

end Program

end OntoQuery
