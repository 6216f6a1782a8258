import OntoQuery.Proofs.Resolvent

/-!
# Rules that are reached by resolution

Rewriting and unfolding both start from given rules and make resolution steps; they differ in the
steps that they allow.  A rule that is reached gives no new answers over a set of atoms that is
closed under the definitions it was resolved with (`Reached.answers_subset`).
-/

namespace OntoQuery

/-- Rules that are reached from `roots` by resolution, where `steps` says at which positions a rule
may be resolved, and with which definitions. -/
inductive Reached (roots : List Rule) (steps : Rule → List (Nat × Rule)) : Rule → Prop where
  /-- A rule that resolution starts from. -/
  | root {r : Rule} (h : r ∈ roots) : Reached roots steps r
  /-- A resolvent of a rule that has been reached, with a definition that is renamed apart. -/
  | step {r r' d : Rule} {i : Nat} {g : FreshVars} (h : Reached roots steps r)
      (hs : (i, d) ∈ steps r) (hg : g.Avoids r.vars) (h' : (r.resolve i d g).1 = some r') :
      Reached roots steps r'

namespace Rule

variable {r r' d : Rule} {i : Nat} {g : FreshVars}

theorem IsPlain.bind (h : r.IsPlain) (f : Var → Term) : (r.bind f).IsPlain := by
  rintro b (hb | hb)
  · obtain ⟨a, ha, rfl⟩ := Option.map_eq_some_iff.mp hb
    rw [Atom.isWildcard_bind]
    exact h a (Or.inl ha)
  · rw [bodyAtoms_bind] at hb
    obtain ⟨a, ha, rfl⟩ := List.mem_map.mp hb
    rw [Atom.isWildcard_bind]
    exact h a (Or.inr ha)

/-- Resolution does not introduce wildcards. -/
theorem IsPlain.resolve (hr : r.IsPlain) (hd : d.IsPlain) (h : (r.resolve i d g).1 = some r') :
    r'.IsPlain := by
  obtain ⟨a, head, u, -, -, -, rfl⟩ := resolve_eq_some.mp h
  refine IsPlain.bind ?_ u.lookup
  rintro b (hb | hb)
  · exact hr b (Or.inl hb)
  · rw [bodyAtoms_splice, List.mem_append, List.mem_append] at hb
    rcases hb with (hb | hb) | hb
    · exact hr b (Or.inr (List.mem_of_mem_take hb))
    · exact hd.bind _ b (Or.inr hb)
    · exact hr b (Or.inr (List.mem_of_mem_drop hb))

end Rule

namespace Reached

variable {roots rules : List Rule} {steps : Rule → List (Nat × Rule)} {r : Rule}

/-- The head predicate of a rule that is reached is that of a rule at the start. -/
theorem exists_headPredicate?_eq (h : Reached roots steps r) :
    ∃ r₀ ∈ roots, r.headPredicate? = r₀.headPredicate? := by
  induction h with
  | root h => exact ⟨_, h, rfl⟩
  | step _ _ _ h' ih =>
    rw [Rule.headPredicate?_resolve h']
    exact ih

theorem isPlain (hroots : ∀ r ∈ roots, r.IsPlain)
    (hsteps : ∀ r, ∀ s ∈ steps r, s.2.IsPlain) (h : Reached roots steps r) : r.IsPlain := by
  induction h with
  | root h => exact hroots _ h
  | step _ hs _ h' ih => exact ih.resolve (hsteps _ _ hs) h'

/-- Over atoms that are closed under the definitions, a rule that is reached has only answers of
the rules at the start. -/
theorem answers_subset (hroots : ∀ r ∈ roots, r.IsPlain)
    (hsteps : ∀ r, ∀ s ∈ steps r, s.2 ∈ rules ∧ s.2.IsPlain ∧
      ∀ p, s.2.headPredicate? = some p → p.isBuiltin = false)
    {truth m : Set Atom} (hm : answers rules truth m ⊆ m) (h : Reached roots steps r) {a : Atom}
    {body : List Atom} (hi : r.HasInstance (some a) body) (hb : ∀ b ∈ body, b.Holds truth m) :
    a ∈ answers roots truth m := by
  induction h generalizing a body with
  | root h => exact ⟨_, h, body, hi, hb⟩
  | @step r r' d i g hreached hs hg h' ih =>
    obtain ⟨hd, hplain, hbuiltin⟩ := hsteps r _ hs
    have hr := hreached.isPlain hroots fun r s hs => (hsteps r s hs).2.1
    obtain ⟨pre, c, post, mid, -, hinst, hdef, rfl⟩ := Rule.resolve_sound hr hplain h' hi
    -- the atom that was resolved holds, since the body that replaced it does
    have hc : c ∈ m := hm ⟨d, hd, mid, hdef, fun b hbm =>
      hb b (List.mem_append_left _ (List.mem_append_right _ hbm))⟩
    have hcb : c.isBuiltin = false := hbuiltin _ hdef.headPredicate?_eq
    refine ih hinst fun b hbm => ?_
    rcases List.mem_append.mp hbm with hbm | hbm
    · exact hb b (List.mem_append_left _ (List.mem_append_left _ hbm))
    · rcases List.mem_cons.mp hbm with rfl | hbm
      · exact (Atom.holds_of_not_isBuiltin hcb).mpr hc
      · exact hb b (List.mem_append_right _ hbm)

end Reached

end OntoQuery
