import OntoQuery.Distinct
import OntoQuery.Substitution

/-!
# Unification

A unifier of two terms is a substitution that makes them equal.  `unify` looks
for a most general one by working through a list of equations between terms.  An
equation `x = t` binds `x` and removes it from all other equations, unless `x`
occurs in `t`; an equation between two applications of one symbol is replaced by
the equations between their arguments, of which the last is solved first.

The order matters for the answer, because of two variables either may be bound
to the other: it is the left one that is bound.

Each step removes a variable from the equations, or keeps their variables and
makes them smaller, so the search ends.
-/

namespace OntoQuery

/-- Two terms that are to be made equal. -/
abbrev Equation := Term × Term

namespace Equation

/-- The variables of a list of equations, with repetition. -/
def vars (eqs : List Equation) : List Var := eqs.flatMap fun e => e.1.vars ++ e.2.vars

/-- The number of symbols in a list of equations. -/
def size : List Equation → Nat
  | [] => 0
  | e :: eqs => e.1.size + e.2.size + size eqs

/-- The equations between the members of two lists. -/
def ofArgs (ss ts : List Term) : List Equation := (ss.zip ts).reverse

/-- The replacement of one variable by a term. -/
def single (x : Var) (t : Term) (y : Var) : Term := if y = x then t else .var y

/-- The equations with a variable replaced by a term. -/
def replace (x : Var) (t : Term) (eqs : List Equation) : List Equation :=
  eqs.map fun e => (e.1.bind (single x t), e.2.bind (single x t))

theorem mem_vars {eqs : List Equation} {x : Var} :
    x ∈ vars eqs ↔ ∃ e ∈ eqs, x ∈ e.1.vars ∨ x ∈ e.2.vars := by
  simp [vars]

@[simp] theorem vars_cons (e : Equation) (eqs : List Equation) :
    vars (e :: eqs) = e.1.vars ++ e.2.vars ++ vars eqs := by
  simp [vars]

theorem size_append (eqs eqs' : List Equation) : size (eqs ++ eqs') = size eqs + size eqs' := by
  induction eqs with
  | nil => simp [size]
  | cons e eqs ih => simp only [List.cons_append, size, ih]; omega

theorem size_reverse (eqs : List Equation) : size eqs.reverse = size eqs := by
  induction eqs with
  | nil => rfl
  | cons e eqs ih => simp only [List.reverse_cons, size_append, size, ih]; omega

/-- The equations between arguments are no larger than the arguments. -/
theorem size_ofArgs_le (ss ts : List Term) :
    size (ofArgs ss ts) ≤ Term.sizes ss + Term.sizes ts := by
  rw [ofArgs, size_reverse]
  induction ss generalizing ts with
  | nil => simp [size]
  | cons s ss ih =>
    cases ts with
    | nil => simp [size]
    | cons t ts =>
      have := ih ts
      simp only [List.zip_cons_cons, size, Term.sizes]
      omega

theorem vars_ofArgs_subset (ss ts : List Term) :
    vars (ofArgs ss ts) ⊆ Term.varsList ss ++ Term.varsList ts := by
  intro x hx
  obtain ⟨e, he, hx⟩ := mem_vars.mp hx
  have hz := List.of_mem_zip (List.mem_reverse.mp he)
  rw [List.mem_append, Term.mem_varsList, Term.mem_varsList]
  exact hx.imp (fun h => ⟨_, hz.1, h⟩) (fun h => ⟨_, hz.2, h⟩)

/-- A variable that is replaced by a term without it is gone. -/
theorem vars_bind_single {x y : Var} {s t : Term} (ht : x ∉ t.vars)
    (hy : y ∈ (s.bind (single x t)).vars) : y ≠ x ∧ (y ∈ s.vars ∨ y ∈ t.vars) := by
  obtain ⟨z, hz, hyz⟩ := Term.mem_vars_bind.mp hy
  unfold single at hyz
  split at hyz
  · exact ⟨fun h => ht (h ▸ hyz), Or.inr hyz⟩
  · rename_i hne
    rw [Term.vars_var, List.mem_singleton] at hyz
    subst hyz
    exact ⟨hne, Or.inl hz⟩

theorem vars_replace {x y : Var} {t : Term} {eqs : List Equation} (ht : x ∉ t.vars)
    (hy : y ∈ vars (replace x t eqs)) : y ≠ x ∧ (y ∈ vars eqs ∨ y ∈ t.vars) := by
  obtain ⟨e', he', hy⟩ := mem_vars.mp hy
  obtain ⟨e, he, rfl⟩ := List.mem_map.mp he'
  rcases hy with hy | hy
  · have h := vars_bind_single ht hy
    exact ⟨h.1, h.2.imp (fun h => mem_vars.mpr ⟨e, he, Or.inl h⟩) id⟩
  · have h := vars_bind_single ht hy
    exact ⟨h.1, h.2.imp (fun h => mem_vars.mpr ⟨e, he, Or.inr h⟩) id⟩

/-! ## The search ends -/

/-- The measure of a list of equations: how many variables are left, and how
large the equations are. -/
def measure (eqs : List Equation) : Nat × Nat := ((vars eqs).eraseDups.length, size eqs)

theorem measure_lt_of_size {eqs eqs' : List Equation} (hv : vars eqs ⊆ vars eqs')
    (hs : size eqs < size eqs') : Prod.Lex (· < ·) (· < ·) (measure eqs) (measure eqs') := by
  rcases Nat.lt_or_eq_of_le (length_eraseDups_le hv) with h | h
  · exact Prod.Lex.left _ _ h
  · unfold measure
    rw [h]
    exact Prod.Lex.right _ hs

theorem measure_tail_lt (e : Equation) (eqs : List Equation) :
    Prod.Lex (· < ·) (· < ·) (measure eqs) (measure (e :: eqs)) := by
  refine measure_lt_of_size (fun x hx => ?_) ?_
  · rw [vars_cons]
    exact List.mem_append_right _ hx
  · have := e.1.size_pos
    simp only [size]
    omega

theorem measure_replace_lt {x : Var} {t : Term} {eqs : List Equation} {e : Equation}
    (ht : x ∉ t.vars) (hx : x ∈ e.1.vars ++ e.2.vars) (hv : t.vars ⊆ e.1.vars ++ e.2.vars) :
    Prod.Lex (· < ·) (· < ·) (measure (replace x t eqs)) (measure (e :: eqs)) := by
  refine Prod.Lex.left _ _ (length_eraseDups_lt (x := x) (fun y hy => ?_) ?_ ?_)
  · rw [vars_cons]
    rcases (vars_replace ht hy).2 with h | h
    · exact List.mem_append_right _ h
    · exact List.mem_append_left _ (hv h)
  · rw [vars_cons]
    exact List.mem_append_left _ hx
  · exact fun h => (vars_replace ht h).1 rfl

theorem measure_ofArgs_lt (f g : String) (ss ts : List Term) (eqs : List Equation) :
    Prod.Lex (· < ·) (· < ·) (measure (ofArgs ss ts ++ eqs))
      (measure ((.app f ss, .app g ts) :: eqs)) := by
  refine measure_lt_of_size (fun x hx => ?_) ?_
  · rw [vars, List.flatMap_append, List.mem_append] at hx
    rw [vars_cons]
    rcases hx with hx | hx
    · exact List.mem_append_left _ (vars_ofArgs_subset ss ts hx)
    · exact List.mem_append_right _ hx
  · have := size_ofArgs_le ss ts
    simp only [size_append, size, Term.size]
    omega

end Equation

/-- Solves a list of equations after the bindings of `u`, which binds none of
their variables. -/
def solve : List Equation → Substitution → Option Substitution
  | [], u => some u
  | (s, t) :: eqs, u =>
    if s = t then
      solve eqs u
    else
      match s, t with
      | .var x, t =>
        if x ∈ t.vars then none
        else solve (Equation.replace x t eqs) ((Substitution.singleton x t).compose u)
      | s, .var y =>
        if y ∈ s.vars then none
        else solve (Equation.replace y s eqs) ((Substitution.singleton y s).compose u)
      | .app f ss, .app g ts =>
        if f = g ∧ ss.length = ts.length then solve (Equation.ofArgs ss ts ++ eqs) u
        else none
      | _, _ => none
termination_by eqs => Equation.measure eqs
decreasing_by
  · exact Equation.measure_tail_lt _ _
  · exact Equation.measure_replace_lt ‹_› (by simp) (by simp)
  · exact Equation.measure_replace_lt ‹_› (by simp) (by simp)
  · exact Equation.measure_ofArgs_lt _ _ _ _ _

/-- The most general substitution that makes two terms equal. -/
def unify (s t : Term) : Option Substitution := solve [(s, t)] .empty

/-- The most general substitution that makes the terms of two atoms equal, if the
atoms have one predicate. -/
def unifyAtoms (a b : Atom) : Option Substitution :=
  if a.predicate = b.predicate then
    solve (Equation.ofArgs a.args b.args) .empty
  else
    none

end OntoQuery
