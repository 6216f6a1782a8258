import Mathlib.Data.List.Nodup
import OntoQuery.Proofs.Composition
import OntoQuery.Renaming

/-!
# Renaming a substitution

To rename a substitution is to rename its bound variables and its images.  What comes out is the
substitution that does to renamed terms what the given one does to terms: the square of renaming and
applying commutes.

A renaming tells the variables of its own domain apart, but a variable outside may be the new name
of one inside.  Two bound variables that become one are an error.  If a variable of the term becomes
what a bound variable becomes, nothing is wrong with the renamed substitution, but it binds more in
the renamed term than the given one does in the term.  So the square commutes for the terms whose
variables, together with the bound ones, are told apart.

* `conjugate_cases`: what `Renaming.conjugate` can answer, which is an error that names two bound
  variables that become one, or the renamed substitution (`IsConjugate`).
* `IsConjugate.size_eq`: no binding is lost.
* `IsConjugate.applyTerm_eq`: the square.
* `conjugate_conjugates`: all of it.
-/

namespace OntoQuery

namespace Renaming

variable {m : Renaming} {s r : Substitution}

/-- Whether two bound variables become one. -/
def Merges (m : Renaming) (s : Substitution) : Prop :=
  ∃ x ∈ s.domain, ∃ y ∈ s.domain, x ≠ y ∧ m.applyVar x = m.applyVar y

/-- Whether the bindings of `r` are those of `s` with both sides renamed, without two of them on one
variable. -/
structure IsConjugate (m : Renaming) (s r : Substitution) : Prop where
  /-- The bound variables keep apart. -/
  not_merges : ¬ m.Merges s
  /-- The bindings are the renamed ones. -/
  get?_eq_some_iff : ∀ y u,
    r.get? y = some u ↔ ∃ x t, s.get? x = some t ∧ m.applyVar x = y ∧ m.applyTerm t = u

/-! ## What the answer can be -/

theorem applyTerm_of_isEmpty (h : m.isEmpty) (t : Term) : m.applyTerm t = t :=
  (Term.isReplacement.bind_eq_self_iff _ t).mpr fun x _ => by rw [applyVar_of_isEmpty h]

/-- If nothing is renamed, a substitution is what it becomes. -/
theorem isConjugate_of_isEmpty (h : m.isEmpty) (s : Substitution) : m.IsConjugate s s where
  not_merges := by
    rintro ⟨x, -, y, -, hne, he⟩
    rw [applyVar_of_isEmpty h, applyVar_of_isEmpty h] at he
    exact hne he
  get?_eq_some_iff y u := by
    simp only [applyVar_of_isEmpty h, applyTerm_of_isEmpty h]
    constructor
    · exact fun hu => ⟨y, u, hu, rfl, rfl⟩
    · rintro ⟨x, t, hx, rfl, rfl⟩
      exact hx

/-- The renamed pairs make the renamed substitution if no two of them are on one variable. -/
theorem isConjugate_ofList (h : ¬ m.Merges s) :
    m.IsConjugate s (.ofList (s.toList.map fun p => (m.applyVar p.1, m.applyTerm p.2))) where
  not_merges := h
  get?_eq_some_iff y u := by
    constructor
    · intro hu
      obtain ⟨⟨x, t⟩, hp, he⟩ := List.mem_map.mp (VarMap.mem_of_getElem?_ofList hu)
      obtain ⟨hy, hu⟩ := Prod.mk.inj he
      exact ⟨x, t, Substitution.mem_toList.mp hp, hy, hu⟩
    · rintro ⟨x, t, hx, rfl, rfl⟩
      refine VarMap.getElem?_ofList_of_mem
        (List.mem_map.mpr ⟨(x, t), Substitution.mem_toList.mpr hx, rfl⟩) fun u hu => ?_
      obtain ⟨⟨x', t'⟩, hp, he⟩ := List.mem_map.mp hu
      obtain ⟨hvar, rfl⟩ := Prod.mk.inj he
      have hx' := Substitution.mem_toList.mp hp
      have hxx : x' = x := by
        by_contra hne
        exact h ⟨x', Substitution.exists_get?_iff.mp ⟨t', hx'⟩, x,
          Substitution.exists_get?_iff.mp ⟨t, hx⟩, hne, hvar⟩
      rw [hxx, hx] at hx'
      rw [Option.some.inj hx']

/-- Either two bound variables become one, and the error names them and what they become, or the
answer is the renamed substitution. -/
theorem conjugate_cases (m : Renaming) (s : Substitution) :
    (∃ x ∈ s.domain, ∃ y ∈ s.domain, x ≠ y ∧ m.applyVar x = m.applyVar y ∧
        m.conjugate s = .error (.illegalSubstitution x y (m.applyVar x))) ∨
      ∃ r, m.conjugate s = .ok r ∧ m.IsConjugate s r := by
  by_cases hm : m.isEmpty
  · exact Or.inr ⟨s, by rw [conjugate, if_pos hm], isConjugate_of_isEmpty hm s⟩
  · rw [conjugate, if_neg hm]
    cases hc : collision? (s.domain.map fun x => (x, m.applyVar x)) with
    | some c =>
      obtain ⟨x, y, z⟩ := c
      obtain ⟨hx, hy, hne⟩ := mem_of_collision?_eq_some hc
      obtain ⟨x', hx', he⟩ := List.mem_map.mp hx
      obtain ⟨rfl, rfl⟩ := Prod.mk.inj he
      obtain ⟨y', hy', he⟩ := List.mem_map.mp hy
      obtain ⟨rfl, hvar⟩ := Prod.mk.inj he
      exact Or.inl ⟨x', hx', y', hy', hne, hvar.symm, rfl⟩
    | none =>
      refine Or.inr ⟨_, rfl, isConjugate_ofList ?_⟩
      rintro ⟨x, hx, y, hy, hne, he⟩
      refine hne (collision?_eq_none.mp hc x y (m.applyVar x) ?_ ?_)
      · exact List.mem_map.mpr ⟨x, hx, rfl⟩
      · exact List.mem_map.mpr ⟨y, hy, by rw [he]⟩

/-! ## The renamed substitution -/

theorem IsConjugate.mem_domain_iff (h : m.IsConjugate s r) (y : Var) :
    y ∈ r.domain ↔ ∃ x ∈ s.domain, m.applyVar x = y := by
  simp only [← Substitution.exists_get?_iff, h.get?_eq_some_iff]
  constructor
  · rintro ⟨u, x, t, hx, hy, -⟩
    exact ⟨x, ⟨t, hx⟩, hy⟩
  · rintro ⟨x, ⟨t, hx⟩, hy⟩
    exact ⟨m.applyTerm t, x, t, hx, hy, rfl⟩

/-- No binding is lost. -/
theorem IsConjugate.size_eq (h : m.IsConjugate s r) : r.size = s.size := by
  have hinj : ∀ x ∈ s.domain, ∀ y ∈ s.domain, m.applyVar x = m.applyVar y → x = y := by
    intro x hx y hy he
    by_contra hne
    exact h.not_merges ⟨x, hx, y, hy, hne, he⟩
  have hperm : r.domain.Perm (s.domain.map m.applyVar) := by
    rw [List.perm_ext_iff_of_nodup r.nodup_domain (List.Nodup.map_on hinj s.nodup_domain)]
    intro y
    rw [h.mem_domain_iff, List.mem_map]
  rw [← r.length_domain, hperm.length_eq, List.length_map, s.length_domain]

/-- The renamed substitution does to a renamed variable what the given one does to the variable, if
it is told apart from the bound ones. -/
theorem IsConjugate.lookup_eq (h : m.IsConjugate s r) {x : Var}
    (hx : ∀ y ∈ s.domain, m.applyVar y = m.applyVar x → y = x) :
    r.lookup (m.applyVar x) = m.applyTerm (s.lookup x) := by
  cases hs : s.get? x with
  | some t =>
    have hr := (h.get?_eq_some_iff (m.applyVar x) (m.applyTerm t)).mpr ⟨x, t, hs, rfl, rfl⟩
    rw [Substitution.lookup, Substitution.lookup, hr, hs, Option.getD_some, Option.getD_some]
  | none =>
    have hr : r.get? (m.applyVar x) = none := by
      by_contra hsome
      obtain ⟨u, hu⟩ := Option.ne_none_iff_exists'.mp hsome
      obtain ⟨y, t, hy, he, -⟩ := (h.get?_eq_some_iff _ _).mp hu
      obtain rfl := hx y (Substitution.exists_get?_iff.mp ⟨t, hy⟩) he
      exact absurd (hs.symm.trans hy) (by simp)
    rw [Substitution.lookup, Substitution.lookup, hr, hs, Option.getD_none, Option.getD_none]
    rfl

/-- Renaming and then applying the renamed substitution is applying the given one and then
renaming. -/
theorem IsConjugate.applyTerm_eq (h : m.IsConjugate s r) {t : Term}
    (ht : Set.InjOn m.applyVar {x | x ∈ t.vars ∨ x ∈ s.domain}) :
    r.applyTerm (m.applyTerm t) = m.applyTerm (s.applyTerm t) := by
  rw [Substitution.applyTerm, applyTerm, Substitution.applyTerm, applyTerm, Term.bind_bind,
    Term.bind_bind]
  exact Term.bind_congr fun x hx =>
    h.lookup_eq fun y hy he => ht (Or.inr hy) (Or.inl hx) he

/-- **To rename a substitution is to conjugate it.**  It is an error exactly if two bound variables
become one.  Otherwise the answer has as many bindings as the given substitution, and on every term
whose variables the renaming tells apart from each other and from the bound ones, renaming and then
applying the answer is the same as applying the given substitution and then renaming. -/
theorem conjugate_conjugates (m : Renaming) (s : Substitution) :
    ((∃ x y z, m.conjugate s = .error (.illegalSubstitution x y z)) ↔ m.Merges s) ∧
      (¬ m.Merges s → ∃ r, m.conjugate s = .ok r ∧ r.size = s.size ∧
        ∀ t : Term, Set.InjOn m.applyVar {x | x ∈ t.vars ∨ x ∈ s.domain} →
          r.applyTerm (m.applyTerm t) = m.applyTerm (s.applyTerm t)) := by
  rcases conjugate_cases m s with ⟨x, hx, y, hy, hne, he, herror⟩ | ⟨r, hr, hconj⟩
  · have hmerges : m.Merges s := ⟨x, hx, y, hy, hne, he⟩
    exact ⟨iff_of_true ⟨x, y, _, herror⟩ hmerges, fun h => absurd hmerges h⟩
  · refine ⟨iff_of_false ?_ hconj.not_merges, fun _ =>
      ⟨r, hr, hconj.size_eq, fun t => hconj.applyTerm_eq⟩⟩
    rintro ⟨x, y, z, herror⟩
    exact absurd (hr.symm.trans herror) (by simp)

/-- A swap of `?x` and `?y`, where `?x` is bound to a term with `?y`, and `?w` to `?x`. -/
theorem conjugate_conjugates_swap :
    ∃ m s r, ofList [(⟨"x"⟩, ⟨"y"⟩), (⟨"y"⟩, ⟨"x"⟩)] = .ok m ∧
      s = .ofList [(⟨"x"⟩, .app "f" [.var ⟨"y"⟩]), (⟨"w"⟩, .var ⟨"x"⟩)] ∧ ¬ m.Merges s ∧
      m.conjugate s = .ok r ∧
      r.applyTerm (m.applyTerm (.app "g" [.var ⟨"x"⟩, .var ⟨"z"⟩])) =
        m.applyTerm (s.applyTerm (.app "g" [.var ⟨"x"⟩, .var ⟨"z"⟩])) := by
  obtain ⟨m, hm⟩ : ∃ m, ofList [(⟨"x"⟩, ⟨"y"⟩), (⟨"y"⟩, ⟨"x"⟩)] = .ok m := ⟨_, rfl⟩
  obtain ⟨s, hs⟩ : ∃ s, s = Substitution.ofList [(⟨"x"⟩, .app "f" [.var ⟨"y"⟩]),
      (⟨"w"⟩, .var ⟨"x"⟩)] := ⟨_, rfl⟩
  obtain ⟨hx, hz, hw⟩ : m.applyVar ⟨"x"⟩ = ⟨"y"⟩ ∧ m.applyVar ⟨"z"⟩ = ⟨"z"⟩ ∧
      m.applyVar ⟨"w"⟩ = ⟨"w"⟩ := by
    obtain rfl := Except.ok.inj hm
    decide
  have hdomain : s.domain = [⟨"w"⟩, ⟨"x"⟩] := by
    rw [hs]
    decide
  have hmerges : ¬ m.Merges s := by
    simp [Merges, hdomain, hx, hw]
  obtain ⟨r, hr, -, hsquare⟩ := (conjugate_conjugates m s).2 hmerges
  refine ⟨m, s, r, hm, hs, hmerges, hr, hsquare _ fun a ha b hb he => ?_⟩
  simp only [hdomain, Term.vars_app, Term.varsList_cons, Term.vars_var, Term.varsList_nil,
    List.mem_append, List.mem_cons, List.not_mem_nil, Set.mem_ofPred_eq, or_false] at ha hb
  rcases ha with (rfl | rfl) | rfl | rfl <;> rcases hb with (rfl | rfl) | rfl | rfl <;>
    simp [hx, hz, hw] at he ⊢

end Renaming

end OntoQuery
