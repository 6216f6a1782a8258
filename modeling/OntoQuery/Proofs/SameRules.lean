import Mathlib.Data.List.Perm.Basic
import OntoQuery.Proofs.VariantLists

/-!
# The same rules in another order

Two lists consist of the same rules if one can be reordered so that the rules at each position are
variants.  They do if and only if their canonical forms are permutations of each other
(`sameRules_iff`), and so this is an equivalence.

What is computed from a list rule by rule, and for variants alike, is computed from any list of the
same rules, up to the order of the results: `SameRules.filter`, `SameRules.filterMap`,
`SameRules.flatMap`.  Lists that represent one set of rules consist of the same rules
(`Represents.sameRules`).
-/

namespace OntoQuery

/-- Whether two lists consist of the same rules, up to order and the names of variables. -/
def SameRules (l m : List Rule) : Prop :=
  ∃ l', l.Perm l' ∧ List.Forall₂ Rule.IsVariant l' m

variable {l l' m m' : List Rule}

/-- Two lists consist of the same rules if and only if their canonical forms are permutations of
each other. -/
theorem sameRules_iff :
    SameRules l m ↔ (l.map Rule.canonical).Perm (m.map Rule.canonical) := by
  constructor
  · rintro ⟨l', hperm, hvariants⟩
    rw [← Rule.forall₂_isVariant_iff.mp hvariants]
    exact hperm.map _
  · intro h
    have hself : List.Forall₂ (fun c r => c = Rule.canonical r) (l.map Rule.canonical) l :=
      List.forall₂_map_left_iff.mpr (List.forall₂_same.mpr fun _ _ => rfl)
    obtain ⟨l', hl', hperm⟩ := List.perm_comp_forall₂ h.symm hself
    refine ⟨l', hperm.symm, Rule.forall₂_isVariant_iff.mpr ?_⟩
    have hforms := List.forall₂_map_right_iff.mpr hl'
    rw [List.forall₂_eq_eq_eq] at hforms
    exact hforms.symm

instance (l m : List Rule) : Decidable (SameRules l m) := decidable_of_iff _ sameRules_iff.symm

theorem SameRules.symm (h : SameRules l m) : SameRules m l :=
  sameRules_iff.mpr (sameRules_iff.mp h).symm

theorem SameRules.length_eq (h : SameRules l m) : l.length = m.length := by
  obtain ⟨l', hperm, hvariants⟩ := h
  rw [hperm.length_eq, hvariants.length_eq]

theorem SameRules.eq_nil_iff (h : SameRules l m) : l = [] ↔ m = [] := by
  rw [← List.length_eq_zero_iff, h.length_eq, List.length_eq_zero_iff]

theorem SameRules.exists_isVariant (h : SameRules l m) {r : Rule} (hr : r ∈ l) :
    ∃ s ∈ m, r.IsVariant s := by
  have hmem := (sameRules_iff.mp h).mem_iff.mp (List.mem_map_of_mem hr)
  obtain ⟨s, hs, he⟩ := List.mem_map.mp hmem
  exact ⟨s, hs, Rule.canonical_eq_iff.mp he.symm⟩

theorem SameRules.append (h : SameRules l m) (h' : SameRules l' m') :
    SameRules (l ++ l') (m ++ m') := by
  rw [sameRules_iff, List.map_append, List.map_append]
  exact (sameRules_iff.mp h).append (sameRules_iff.mp h')

/-! ## Working through a list -/

/-- Rules may be filtered by what variants have in common. -/
theorem SameRules.filter (h : SameRules l m) {P : Rule → Bool}
    (hP : ∀ r s, r.IsVariant s → P s = P r) : SameRules (l.filter P) (m.filter P) := by
  obtain ⟨l', hperm, hvariants⟩ := h
  refine ⟨l'.filter P, hperm.filter P, ?_⟩
  clear hperm
  induction hvariants with
  | nil => exact .nil
  | @cons r s l' m hv _ ih =>
    rw [List.filter_cons, List.filter_cons, hP r s hv]
    split
    · exact .cons hv ih
    · exact ih

/-- So may they be made into other rules. -/
theorem SameRules.filterMap (h : SameRules l m) {f g : Rule → Option Rule}
    (hfg : ∀ r s, r.IsVariant s → Option.Rel Rule.IsVariant (f r) (g s)) :
    SameRules (l.filterMap f) (m.filterMap g) := by
  obtain ⟨l', hperm, hvariants⟩ := h
  refine ⟨l'.filterMap f, hperm.filterMap f, ?_⟩
  clear hperm
  induction hvariants with
  | nil => exact .nil
  | @cons r s l' m hv _ ih =>
    have hrel := hfg r s hv
    rw [List.filterMap_cons, List.filterMap_cons]
    generalize f r = x, g s = y at hrel
    cases hrel with
    | none => exact ih
    | some hxy => exact .cons hxy ih

/-- And so may they be made into lists of rules. -/
theorem SameRules.flatMap (h : SameRules l m) {f g : Rule → List Rule}
    (hfg : ∀ r s, r.IsVariant s → SameRules (f r) (g s)) :
    SameRules (l.flatMap f) (m.flatMap g) := by
  obtain ⟨l', hperm, hvariants⟩ := h
  refine sameRules_iff.mpr (((hperm.flatMap_right f).map _).trans ?_)
  clear hperm
  induction hvariants with
  | nil => exact .nil
  | @cons r s l' m hv _ ih =>
    rw [List.flatMap_cons, List.flatMap_cons, List.map_append, List.map_append]
    exact (sameRules_iff.mp (hfg r s hv)).append ih

theorem SameRules.any_eq (h : SameRules l m) {f g : Rule → Bool}
    (hfg : ∀ r s, r.IsVariant s → f r = g s) : l.any f = m.any g := by
  rw [Bool.eq_iff_iff, List.any_eq_true, List.any_eq_true]
  constructor
  · rintro ⟨r, hr, hf⟩
    obtain ⟨s, hs, hv⟩ := h.exists_isVariant hr
    exact ⟨s, hs, hfg r s hv ▸ hf⟩
  · rintro ⟨s, hs, hg⟩
    obtain ⟨r, hr, hv⟩ := h.symm.exists_isVariant hs
    exact ⟨r, hr, (hfg r s hv.symm).symm ▸ hg⟩

/-! ## Each rule once -/

/-- The distinct canonical forms are the same in another order. -/
theorem SameRules.perm_eraseDups (h : SameRules l m) :
    (l.map Rule.canonical).eraseDups.Perm (m.map Rule.canonical).eraseDups := by
  refine (List.perm_ext_iff_of_nodup (nodup_eraseDups _) (nodup_eraseDups _)).mpr fun c => ?_
  rw [List.mem_eraseDups, List.mem_eraseDups, (sameRules_iff.mp h).mem_iff]

theorem SameRules.length_firstVariants (h : SameRules l m) :
    (Rule.firstVariants l).length = (Rule.firstVariants m).length := by
  rw [← List.length_map (f := Rule.canonical), Rule.map_canonical_firstVariants,
    h.perm_eraseDups.length_eq, ← Rule.map_canonical_firstVariants, List.length_map]

/-- A list without variants of rules of a set is no longer than one that represents the set. -/
theorem Represents.length_le {s : Set Rule} (h : Represents m s) (hl : Rule.NoVariants l)
    (hsub : ∀ r ∈ l, r ∈ s) : l.length ≤ m.length := by
  have hlength : ∀ rules : List Rule, rules.length = (rules.map Rule.canonical).length :=
    fun rules => (List.length_map _).symm
  rw [hlength l, hlength m]
  refine (Rule.noVariants_iff.mp hl).length_le_of_subset fun c hc => ?_
  obtain ⟨r, hr, rfl⟩ := List.mem_map.mp hc
  obtain ⟨r', hr', hv⟩ := h.covers r (hsub r hr)
  exact List.mem_map.mpr ⟨r', hr', hv.canonical_eq⟩

/-- Lists that represent one set consist of the same rules. -/
theorem Represents.sameRules {s : Set Rule} (h : Represents l s) (h' : Represents m s) :
    SameRules l m := by
  have hsub : ∀ {l m : List Rule}, Represents l s → Represents m s → ∀ c,
      c ∈ l.map Rule.canonical → c ∈ m.map Rule.canonical := by
    intro l m h h' c hc
    obtain ⟨r, hr, rfl⟩ := List.mem_map.mp hc
    obtain ⟨r', hr', hv⟩ := h'.covers r (h.mem r hr)
    exact List.mem_map.mpr ⟨r', hr', hv.canonical_eq⟩
  exact sameRules_iff.mpr ((List.perm_ext_iff_of_nodup (Rule.noVariants_iff.mp h.distinct)
    (Rule.noVariants_iff.mp h'.distinct)).mpr fun c => ⟨hsub h h' c, hsub h' h c⟩)

end OntoQuery
