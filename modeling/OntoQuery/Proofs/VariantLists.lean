import Mathlib.Data.List.Forall2
import Mathlib.Data.Set.Defs
import OntoQuery.Proofs.Variant

/-!
# Lists of rules up to variants

Rewriting and unfolding keep the first rule of each class of variants.  `Rule.firstVariants` says
which rules of a list these are, in the order of the list.

Two lists are the same rule by rule, up to variants, if and only if they have the same canonical
forms (`forall₂_isVariant_iff`), and the first variants of a list are the distinct ones among its
canonical forms (`map_canonical_firstVariants`).  What a search does to the list of rules that it
has found can therefore be said of a list of canonical forms.

A list *represents* a set of rules if it has exactly one variant of each of them (`Represents`).
-/

namespace OntoQuery

namespace Rule

/-- The rules of a list that are variants of no earlier one. -/
def firstVariants (rules : List Rule) : List Rule :=
  rules.eraseDupsBy fun s r => r.IsVariant s

theorem firstVariants_cons (r : Rule) (rules : List Rule) :
    firstVariants (r :: rules) = r :: firstVariants (rules.filter fun s => ¬r.IsVariant s) := by
  rw [firstVariants, List.eraseDupsBy_cons]
  simp only [decide_eq_false_iff_not, firstVariants]

/-- The first variants of a list are the distinct ones among its canonical forms. -/
theorem map_canonical_firstVariants : ∀ rules : List Rule,
    (firstVariants rules).map canonical = (rules.map canonical).eraseDups
  | [] => rfl
  | r :: rules => by
    have hfilter : (rules.map canonical).filter (fun c => !c == r.canonical) =
        (rules.filter fun s => ¬r.IsVariant s).map canonical := by
      rw [List.filter_map]
      refine congrArg (List.map canonical) (List.filter_congr fun s _ => ?_)
      rw [Function.comp_apply, Bool.eq_iff_iff]
      simp only [Bool.not_eq_true', beq_eq_false_iff_ne, decide_eq_true_eq, ← canonical_eq_iff,
        ne_eq, eq_comm (a := s.canonical)]
    rw [firstVariants_cons, List.map_cons, List.map_cons, List.eraseDups_cons, hfilter,
      map_canonical_firstVariants]
termination_by rules => rules.length
decreasing_by exact Nat.lt_succ_of_le (List.length_filter_le _ _)

/-- Two lists are the same rule by rule, up to variants, if they have the same canonical forms. -/
theorem forall₂_isVariant_iff {l m : List Rule} :
    List.Forall₂ IsVariant l m ↔ l.map canonical = m.map canonical := by
  rw [← List.forall₂_eq_eq_eq, List.forall₂_map_left_iff, List.forall₂_map_right_iff]
  simp only [canonical_eq_iff]

/-- Whether no two rules of a list are variants. -/
def NoVariants (rules : List Rule) : Prop := rules.Pairwise fun r s => ¬r.IsVariant s

theorem noVariants_concat {rules : List Rule} {r : Rule} :
    NoVariants (rules ++ [r]) ↔ NoVariants rules ∧ ∀ s ∈ rules, ¬s.IsVariant r := by
  simp [NoVariants, List.pairwise_append]

/-- The first variants of a list are some of its rules. -/
theorem firstVariants_subset : ∀ rules : List Rule, firstVariants rules ⊆ rules
  | [] => List.Subset.refl _
  | r :: rules => by
    rw [firstVariants_cons]
    refine List.cons_subset_cons r fun s hs => ?_
    exact List.mem_of_mem_filter (firstVariants_subset _ hs)
termination_by rules => rules.length
decreasing_by exact Nat.lt_succ_of_le (List.length_filter_le _ _)

theorem noVariants_iff {rules : List Rule} :
    NoVariants rules ↔ (rules.map canonical).Nodup := by
  rw [NoVariants, List.nodup_iff_pairwise_ne, List.pairwise_map]
  simp only [ne_eq, canonical_eq_iff]

/-- No two first variants are variants. -/
theorem noVariants_firstVariants (rules : List Rule) : NoVariants (firstVariants rules) := by
  rw [noVariants_iff, map_canonical_firstVariants]
  exact nodup_eraseDups _

theorem length_firstVariants_le (rules : List Rule) :
    (firstVariants rules).length ≤ rules.length := by
  have h := (nodup_eraseDups (rules.map canonical)).length_le_of_subset fun _ hc =>
    List.mem_eraseDups.mp hc
  rwa [← map_canonical_firstVariants, List.length_map, List.length_map] at h

/-- The first variants of a list are all of its rules if and only if no two are variants. -/
theorem firstVariants_eq_self_iff {rules : List Rule} :
    firstVariants rules = rules ↔ NoVariants rules := by
  refine ⟨fun h => h ▸ noVariants_firstVariants rules, fun h => ?_⟩
  induction rules with
  | nil => rfl
  | cons r rules ih =>
    obtain ⟨hr, hrules⟩ := List.pairwise_cons.mp h
    have hfilter : (rules.filter fun s => ¬r.IsVariant s) = rules :=
      List.filter_eq_self.mpr fun s hs => decide_eq_true (hr s hs)
    rw [firstVariants_cons, hfilter, ih hrules]

end Rule

/-- Whether a list has exactly one variant of each rule of a set, and no other rules. -/
structure Represents (rules : List Rule) (s : Set Rule) : Prop where
  /-- The rules of the list are in the set. -/
  mem : ∀ r ∈ rules, r ∈ s
  /-- Every rule of the set has a variant in the list. -/
  covers : ∀ r ∈ s, ∃ r' ∈ rules, r'.IsVariant r
  /-- No rule is there twice. -/
  distinct : Rule.NoVariants rules

end OntoQuery
