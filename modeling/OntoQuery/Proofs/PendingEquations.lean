import OntoQuery.Proofs.Agenda
import OntoQuery.Proofs.Composition
import OntoQuery.Proofs.Unifier

/-!
# Unification ends

`solve` replaces a variable in all equations that are left as soon as it is bound, and this makes
the equations themselves show why the search ends.  The same search can be made with a stack of
equations that stay as they are (`Equation.stack`): the bindings that have been collected are
applied to an equation when it is taken from the stack.  Nothing on such a stack gets smaller.  A
turn may leave more equations than it takes, and a binding that is collected makes the equations
larger in which its variable occurs, when their turn comes.

What gets smaller with each turn is what the bindings make of the stack: a variable is gone from it,
or no variable is new in it and it has fewer symbols.  For this the arguments that a turn leaves, to
which the bindings have been applied, must not change when the bindings are applied to them again,
so no bound variable may occur in the term of a binding.  This is a part of `Solving`, and the
occurs check keeps it so.

* `Substitution.applyEquations`: what the bindings make of the equations on the stack.
* `Equation.step_cases`: what a turn does, and how `solve` does the same.
* `Equation.stack_ends`: whatever is on the stack in the beginning, the loop ends, with what `solve`
  answers.
-/

namespace OntoQuery

/-! ## Replacement in equations -/

theorem Equation.isReplacement :
    IsReplacement vars fun f => List.map fun e => (e.1.bind f, e.2.bind f) := by
  have hpair : IsReplacement (fun e : Equation => e.1.vars ++ e.2.vars)
      fun f e => (e.1.bind f, e.2.bind f) :=
    { bind_var := fun e => Prod.ext (Term.bind_var_eq_self _) (Term.bind_var_eq_self _)
      bind_bind := fun f g e => Prod.ext (Term.bind_bind f g _) (Term.bind_bind f g _)
      bind_eq_iff := fun f g e => by
        simp only [Prod.mk.injEq, Term.isReplacement.bind_eq_iff, List.forall_mem_append] }
  exact hpair.list

namespace Substitution

/-- Applies a substitution to both sides of an equation. -/
def applyEquation (u : Substitution) (e : Equation) : Equation :=
  (u.applyTerm e.1, u.applyTerm e.2)

/-- Applies a substitution to each of a list of equations. -/
def applyEquations (u : Substitution) (eqs : List Equation) : List Equation :=
  eqs.map u.applyEquation

theorem applyEquations_append (u : Substitution) (eqs eqs' : List Equation) :
    u.applyEquations (eqs ++ eqs') = u.applyEquations eqs ++ u.applyEquations eqs' :=
  List.map_append

theorem acts_applyEquations : Acts applyEquations := .of_isReplacement Equation.isReplacement

/-- What a new binding makes of equations is a replacement in what the others make of them. -/
theorem applyEquations_compose_singleton (x : Var) (t : Term) (u : Substitution)
    (eqs : List Equation) :
    ((singleton x t).compose u).applyEquations eqs =
      Equation.replace x t (u.applyEquations eqs) := by
  rw [acts_applyEquations.apply_compose, applyEquations, Equation.replace]
  refine List.map_congr_left fun e _ => ?_
  rw [applyEquation, applyTerm, applyTerm, lookup_singleton]

/-- Equations without bound variables stay as they are. -/
theorem applyEquations_eq_self {u : Substitution} {eqs : List Equation}
    (h : ∀ x ∈ Equation.vars eqs, u.get? x = none) : u.applyEquations eqs = eqs := by
  refine (Equation.isReplacement.bind_eq_self_iff u.lookup eqs).mpr fun x hx => ?_
  rw [lookup, h x hx, Option.getD_none]

end Substitution

namespace Equation

variable {e : Equation} {eqs new : List Equation} {u u' : Substitution} {xs : List Var} {x : Var}
  {t : Term} {n : Nat} {y : Except Unit Substitution}

/-! ## The stack -/

/-- The variable that an equation binds, on the left if there is one, with the other side. -/
def binding? : Equation → Option (Var × Term)
  | (.var x, t) => some (x, t)
  | (s, .var y) => some (y, s)
  | _ => none

/-- The equations that take the place of one between two applications of a symbol. -/
def arguments? : Equation → Option (List Equation)
  | (.app f ss, .app g ts) =>
    if f = g ∧ ss.length = ts.length then some (ofArgs ss ts) else none
  | _ => none

/-- What is done with an equation, given the bindings that have been collected and that it is free
of: it is dropped, it binds a variable, or it leaves equations between arguments. -/
def step (u : Substitution) (e : Equation) : Except Unit (List Equation × Substitution) :=
  if e.1 = e.2 then .ok ([], u)
  else
    match binding? e with
    | some (x, t) =>
      if x ∈ t.vars then .error () else .ok ([], (Substitution.singleton x t).compose u)
    | none => (arguments? e).elim (.error ()) fun new => .ok (new, u)

/-- Unification as a loop over a stack of equations.  In each turn the bindings that have been
collected are applied to an equation. -/
def stack : Agenda Equation Substitution Unit where
  turn u e := step u (u.applyEquation e)
  join new rest := new ++ rest

/-! ## What a turn does -/

theorem binding?_eq_some (h : e.binding? = some (x, t)) :
    e = (.var x, t) ∨ e = (t, .var x) ∧ ∀ z, t ≠ .var z := by
  obtain ⟨s, r⟩ := e
  cases s with
  | var z =>
    obtain ⟨rfl, rfl⟩ := Prod.mk.inj (Option.some.inj h)
    exact Or.inl rfl
  | iri | value | app =>
    cases r with
    | var z =>
      obtain ⟨rfl, rfl⟩ := Prod.mk.inj (Option.some.inj h)
      exact Or.inr ⟨rfl, nofun⟩
    | iri | value | app => exact absurd h nofun

theorem arguments?_eq_some (h : e.arguments? = some new) :
    ∃ f g ss ts, e = (.app f ss, .app g ts) ∧ new = ofArgs ss ts := by
  unfold arguments? at h
  split at h
  · next f ss g ts =>
    split at h
    · exact ⟨f, g, ss, ts, rfl, (Option.some.inj h).symm⟩
    · exact absurd h nofun
  · exact absurd h nofun

theorem vars_of_binding? (h : e.binding? = some (x, t)) :
    x ∈ e.1.vars ++ e.2.vars ∧ t.vars ⊆ e.1.vars ++ e.2.vars := by
  rcases binding?_eq_some h with rfl | ⟨rfl, -⟩ <;> simp

theorem solve_cons_of_binding? (hne : e.1 ≠ e.2) (h : e.binding? = some (x, t))
    (eqs : List Equation) (u : Substitution) :
    solve (e :: eqs) u =
      if x ∈ t.vars then none
      else solve (replace x t eqs) ((Substitution.singleton x t).compose u) := by
  rcases binding?_eq_some h with rfl | ⟨rfl, ht⟩
  · exact solve_cons_var_left hne eqs u
  · exact solve_cons_var_right ht eqs u

theorem solve_cons_of_arguments? (hne : e.1 ≠ e.2) (h : e.binding? = none) (eqs : List Equation)
    (u : Substitution) :
    solve (e :: eqs) u = (e.arguments?).elim none fun new => solve (new ++ eqs) u := by
  obtain ⟨s, t⟩ := e
  cases s with
  | var x => exact absurd h nofun
  | iri i =>
    cases t with
    | var y => exact absurd h nofun
    | iri | value | app => exact solve_cons_clash hne nofun nofun nofun eqs u
  | value l =>
    cases t with
    | var y => exact absurd h nofun
    | iri | value | app => exact solve_cons_clash hne nofun nofun nofun eqs u
  | app f ss =>
    cases t with
    | var y => exact absurd h nofun
    | iri | value => exact solve_cons_clash hne nofun nofun nofun eqs u
    | app g ts =>
      rw [solve_cons_app hne, arguments?]
      split <;> rfl

/-- The bindings have been applied to the arguments of an equation that is taken from the stack, and
to apply them again changes nothing. -/
theorem applyEquations_ofArgs {f g : String} {ss ts : List Term}
    (h : Solving xs ((.app f ss, .app g ts) :: eqs) u) :
    u.applyEquations (ofArgs ss ts) = ofArgs ss ts := by
  refine Substitution.applyEquations_eq_self fun x hx => h.unbound x ?_
  rw [vars_cons]
  exact List.mem_append_left _ (vars_ofArgs_subset ss ts hx)

/-- A turn fails where `solve` fails.  Otherwise it leaves equations of which the bindings make what
`solve` goes on with, and this is smaller than what they made of the equations before. -/
theorem step_cases (h : Solving xs (e :: u.applyEquations eqs) u) :
    (step u e = .error () ∧ solve (e :: u.applyEquations eqs) u = none) ∨
      ∃ new u', step u e = .ok (new, u') ∧
        solve (u'.applyEquations (new ++ eqs)) u' = solve (e :: u.applyEquations eqs) u ∧
        Solving xs (u'.applyEquations (new ++ eqs)) u' ∧
        Prod.Lex (· < ·) (· < ·) (measure (u'.applyEquations (new ++ eqs)))
          (measure (e :: u.applyEquations eqs)) := by
  unfold step
  by_cases heq : e.1 = e.2
  · refine Or.inr ⟨[], u, by rw [if_pos heq], ?_, h.mono (vars_subset_cons _ _),
      measure_tail_lt _ _⟩
    obtain ⟨s, t⟩ := e
    obtain rfl : s = t := heq
    exact (solve_cons_self s _ u).symm
  rw [if_neg heq]
  cases hb : e.binding? with
  | some binding =>
    obtain ⟨x, t⟩ := binding
    obtain ⟨hx, ht⟩ := vars_of_binding? hb
    rw [solve_cons_of_binding? heq hb]
    by_cases hoccurs : x ∈ t.vars
    · exact Or.inl ⟨if_pos hoccurs, if_pos hoccurs⟩
    · have happly := Substitution.applyEquations_compose_singleton x t u eqs
      refine Or.inr ⟨[], _, if_neg hoccurs, ?_⟩
      rw [List.nil_append, happly, if_neg hoccurs]
      exact ⟨rfl, h.bind hoccurs hx ht, measure_replace_lt hoccurs hx ht⟩
  | none =>
    rw [solve_cons_of_arguments? heq hb]
    cases ha : e.arguments? with
    | none => exact Or.inl ⟨rfl, rfl⟩
    | some new =>
      obtain ⟨f, g, ss, ts, rfl, rfl⟩ := arguments?_eq_some ha
      have happly : u.applyEquations (ofArgs ss ts ++ eqs) =
          ofArgs ss ts ++ u.applyEquations eqs := by
        rw [Substitution.applyEquations_append, applyEquations_ofArgs h]
      refine Or.inr ⟨_, u, rfl, ?_⟩
      rw [happly]
      exact ⟨rfl, h.mono (vars_ofArgs_append_subset f g ss ts _), measure_ofArgs_lt f g ss ts _⟩

theorem step_eq_ok (h : Solving xs (e :: u.applyEquations eqs) u)
    (hstep : step u e = .ok (new, u')) :
    solve (u'.applyEquations (new ++ eqs)) u' = solve (e :: u.applyEquations eqs) u ∧
      Solving xs (u'.applyEquations (new ++ eqs)) u' ∧
      Prod.Lex (· < ·) (· < ·) (measure (u'.applyEquations (new ++ eqs)))
        (measure (e :: u.applyEquations eqs)) := by
  rcases step_cases h with ⟨herror, -⟩ | ⟨_, _, hok, hcases⟩
  · exact absurd (herror.symm.trans hstep) (by simp)
  · obtain ⟨rfl, rfl⟩ := Prod.mk.inj (Except.ok.inj (hok.symm.trans hstep))
    exact hcases

theorem step_eq_error {z : Unit} (h : Solving xs (e :: u.applyEquations eqs) u)
    (hstep : step u e = .error z) : solve (e :: u.applyEquations eqs) u = none := by
  rcases step_cases h with ⟨-, hsolve⟩ | ⟨_, _, hok, -⟩
  · exact hsolve
  · exact absurd (hok.symm.trans hstep) (by simp)

/-! ## The loop -/

/-- With bindings whose variables are gone from the equations and from each other's terms, the loop
ends. -/
theorem exists_ends_stack (h : Solving xs (u.applyEquations eqs) u) :
    ∃ n y, stack.Ends n eqs u y := by
  have hlex : WellFounded (Prod.Lex ((· < ·) : Nat → Nat → Prop) ((· < ·) : Nat → Nat → Prop)) :=
    WellFounded.prod_lex Nat.lt_wfRel.wf Nat.lt_wfRel.wf
  refine Agenda.exists_ends_of_wellFounded hlex (fun eqs u => measure (u.applyEquations eqs))
    (P := fun eqs u => Solving xs (u.applyEquations eqs) u) (fun hP hturn => ?_) h
  exact (step_eq_ok hP hturn).2

/-- Bindings with bound variables in their terms could keep it going: an equation comes back as it
was. -/
example :
    let u := Substitution.ofList
      [(⟨"x"⟩, .app "f" [.var ⟨"x"⟩]), (⟨"y"⟩, .app "f" [.var ⟨"y"⟩])]
    stack.turn u (.var ⟨"x"⟩, .var ⟨"y"⟩) = .ok ([(.var ⟨"x"⟩, .var ⟨"y"⟩)], u) := by
  decide

/-- The loop ends with what `solve` answers. -/
theorem toOption_eq_solve_of_ends (h : stack.Ends n eqs u y)
    (hu : Solving xs (u.applyEquations eqs) u) : y.toOption = solve (u.applyEquations eqs) u := by
  induction h with
  | done u =>
    show some u = solve [] u
    rw [solve]
  | stop hturn => exact (step_eq_error hu hturn).symm
  | next hturn _ ih =>
    obtain ⟨hsolve, hu', -⟩ := step_eq_ok hu hturn
    exact (ih hu').trans hsolve

/-- **Unification ends.**  Whatever equations are on the stack, the loop that starts without
bindings ends after a certain number of turns and in a certain way, and this is what `solve` answers
with: the bindings that have been collected, or that the equations have no solution. -/
theorem stack_ends (eqs : List Equation) :
    (∃! e : Nat × Except Unit Substitution, stack.Ends e.1 eqs .empty e.2) ∧
      ∃ n y, stack.Ends n eqs .empty y ∧ y.toOption = solve eqs .empty := by
  have happly : Substitution.empty.applyEquations eqs = eqs :=
    Substitution.acts_applyEquations.apply_empty eqs
  have hstart : Solving (vars eqs) (Substitution.empty.applyEquations eqs) .empty := by
    rw [happly]
    exact Solving.start (List.Subset.refl _)
  obtain ⟨n, y, hends⟩ := exists_ends_stack hstart
  refine ⟨Agenda.existsUnique_of_exists_ends ⟨n, y, hends⟩, n, y, hends, ?_⟩
  rw [toOption_eq_solve_of_ends hends hstart, happly]

end Equation

end OntoQuery
