import OntoQuery.Unification

/-!
# Most general unifiers

A list of equations is looked at through the assignments `f` of terms to variables that *solve* it:
replacing every variable `x` by `f x` makes the two sides of each equation equal.  Each step of
`solve` keeps the set of solutions in the following sense.  The substitution `u` that has been
collected *generalizes* `f` if `f` does not distinguish a variable `x` from the term that `u` puts
in its place, and

    `f` solves the equations that are left, and `u` generalizes `f`

means the same before and after the step.  In the end no equations are left, so the answer
generalizes exactly the solutions of the equations that the search began with.

* `Solving`: what is known of the collected substitution in the middle of the search; it binds
  none of the variables that are left, and none that occurs in one of its images.
* `outcome_solve`: if the search fails, there is no solution, and otherwise the solutions are what
  the answer generalizes.
* `exists_unifyAtoms`, `map_args_eq_of_unifyAtoms`: the same for the arguments of two atoms.
* `unifyAtoms_unifies`: what this means for the atoms themselves, of which one may be a wildcard.
* `unify_isMostGeneral`: the same for two terms.
-/

namespace OntoQuery

namespace Term

theorem size_le_sizes {a : Term} {ts : List Term} (h : a ∈ ts) : a.size ≤ sizes ts := by
  induction ts with
  | nil => simp at h
  | cons t ts ih =>
    rw [sizes]
    rcases List.mem_cons.mp h with rfl | h
    · omega
    · have := ih h
      omega

/-- An argument is smaller than its application, also after a replacement. -/
theorem size_bind_lt (f : Var → Term) (g : String) {a : Term} {args : List Term} (h : a ∈ args) :
    (a.bind f).size < ((Term.app g args).bind f).size := by
  have hle : (a.bind f).size ≤ sizes (args.map (bind f)) := size_le_sizes (List.mem_map_of_mem h)
  rw [bind_app, size]
  omega

end Term

namespace Equation

variable {f : Var → Term} {x : Var} {t : Term}

/-! ## Solutions -/

/-- Whether an assignment of terms to variables makes the two sides of every equation equal. -/
def Solves (f : Var → Term) (eqs : List Equation) : Prop :=
  ∀ e ∈ eqs, e.1.bind f = e.2.bind f

@[simp] theorem solves_nil (f : Var → Term) : Solves f [] := by
  intro e he
  exact absurd he (by simp)

@[simp] theorem solves_cons (f : Var → Term) (e : Equation) (eqs : List Equation) :
    Solves f (e :: eqs) ↔ e.1.bind f = e.2.bind f ∧ Solves f eqs :=
  List.forall_mem_cons

theorem solves_append (f : Var → Term) (eqs eqs' : List Equation) :
    Solves f (eqs ++ eqs') ↔ Solves f eqs ∧ Solves f eqs' :=
  List.forall_mem_append

/-- The equations between two lists of arguments are solved by what makes the lists equal. -/
theorem solves_ofArgs (f : Var → Term) {ss ts : List Term} (h : ss.length = ts.length) :
    Solves f (ofArgs ss ts) ↔ ss.map (Term.bind f) = ts.map (Term.bind f) := by
  have hrev : Solves f (ofArgs ss ts) ↔ Solves f (ss.zip ts) := by
    simp only [Solves, ofArgs, List.mem_reverse]
  rw [hrev]
  clear hrev
  induction ss generalizing ts with
  | nil =>
    rw [List.length_nil, eq_comm, List.length_eq_zero_iff] at h
    subst h
    simp
  | cons s ss ih =>
    cases ts with
    | nil => simp at h
    | cons t ts =>
      have htail : Solves f (ss.zip ts) ↔ ss.map (Term.bind f) = ts.map (Term.bind f) :=
        ih (Nat.succ_inj.mp h)
      rw [List.zip_cons_cons, solves_cons, htail, List.map_cons, List.map_cons, List.cons.injEq]

/-! ## Replacing a variable -/

/-- An assignment that does not distinguish `x` from `t` does not notice that `x` is replaced. -/
theorem bind_bind_single (h : f x = t.bind f) (s : Term) :
    (s.bind (single x t)).bind f = s.bind f := by
  rw [Term.bind_bind]
  refine Term.bind_congr fun y _ => ?_
  unfold single
  split
  · next hy => rw [hy, h]
  · rfl

theorem solves_replace (h : f x = t.bind f) (eqs : List Equation) :
    Solves f (replace x t eqs) ↔ Solves f eqs := by
  simp only [Solves, replace, List.forall_mem_map, bind_bind_single h]

/-- A term that contains a variable is at least as large as the variable, after any replacement. -/
theorem size_le_size_bind (f : Var → Term) (h : x ∈ t.vars) : (f x).size ≤ (t.bind f).size := by
  induction t using Term.ind with
  | var y =>
    rw [Term.vars_var, List.mem_singleton] at h
    exact Nat.le_of_eq (by rw [h, Term.bind_var])
  | iri i => simp at h
  | value l => simp at h
  | app g args ih =>
    rw [Term.vars_app, Term.mem_varsList] at h
    obtain ⟨a, ha, hx⟩ := h
    exact Nat.le_of_lt (Nat.lt_of_le_of_lt (ih a ha hx) (Term.size_bind_lt f g ha))

/-- The occurs check misses nothing: a variable never becomes equal to a larger term around it. -/
theorem bind_ne_of_mem_vars (f : Var → Term) (h : x ∈ t.vars) (ht : Term.var x ≠ t) :
    f x ≠ t.bind f := by
  cases t with
  | var y =>
    rw [Term.vars_var, List.mem_singleton] at h
    exact absurd (congrArg Term.var h) ht
  | iri i => simp at h
  | value l => simp at h
  | app g args =>
    rw [Term.vars_app, Term.mem_varsList] at h
    obtain ⟨a, ha, hx⟩ := h
    intro he
    have hle : (f x).size ≤ (a.bind f).size := size_le_size_bind f hx
    have hlt := Term.size_bind_lt f g ha
    rw [he] at hle
    omega

end Equation

namespace Substitution

/-! ## Generality -/

/-- Whether an assignment factors through a substitution, by itself: it does not distinguish a
variable from the term that the substitution puts in its place. -/
def Generalizes (u : Substitution) (f : Var → Term) : Prop :=
  ∀ x, (u.lookup x).bind f = f x

theorem generalizes_empty (f : Var → Term) : empty.Generalizes f := by
  intro x
  rw [lookup_empty, Term.bind_var]

theorem lookup_singleton (x : Var) (t : Term) :
    (singleton x t).lookup = Equation.single x t := by
  funext y
  rw [lookup, get?_singleton, Equation.single]
  by_cases h : x = y
  · rw [if_pos h, if_pos h.symm, Option.getD_some]
  · rw [if_neg h, if_neg (Ne.symm h), Option.getD_none]

/-- Composing with the binding of an unbound variable adds one equation to what the substitution
generalizes. -/
theorem generalizes_compose_singleton {u : Substitution} {x : Var} (hu : u.get? x = none) (t : Term)
    (f : Var → Term) :
    ((singleton x t).compose u).Generalizes f ↔ f x = t.bind f ∧ u.Generalizes f := by
  have hlookup : ∀ y, ((singleton x t).compose u).lookup y =
      (u.lookup y).bind (Equation.single x t) := by
    intro y
    rw [lookup_compose, applyTerm, lookup_singleton]
  constructor
  · intro h
    have hx : f x = t.bind f := by
      have hfx := h x
      rw [hlookup, lookup, hu, Option.getD_none, Term.bind_var, Equation.single, if_pos rfl] at hfx
      exact hfx.symm
    refine ⟨hx, fun y => ?_⟩
    have hfy := h y
    rwa [hlookup, Equation.bind_bind_single hx] at hfy
  · rintro ⟨hx, h⟩ y
    rw [hlookup, Equation.bind_bind_single hx]
    exact h y

end Substitution

/-! ## The state of the search -/

/-- What holds when the equations `eqs` are left, `u` has been collected, and all variables are
among `xs`. -/
structure Solving (xs : List Var) (eqs : List Equation) (u : Substitution) : Prop where
  /-- No variable that is left is bound. -/
  unbound : ∀ x ∈ Equation.vars eqs, u.get? x = none
  /-- No bound variable occurs in an image. -/
  idempotent : ∀ x y t, u.binds x → u.get? y = some t → x ∉ t.vars
  /-- The variables that are left are among the given ones. -/
  left_subset : Equation.vars eqs ⊆ xs
  /-- So are the bound variables. -/
  domain_subset : u.domain ⊆ xs
  /-- So are the variables of the images. -/
  range_subset : ∀ x t, u.get? x = some t → t.vars ⊆ xs

namespace Solving

variable {xs : List Var} {eqs eqs' : List Equation} {u : Substitution}

/-- The state before the first step. -/
theorem start (h : Equation.vars eqs ⊆ xs) : Solving xs eqs .empty where
  unbound _ _ := Substitution.get?_empty _
  idempotent _ _ _ _ h := by simp at h
  left_subset := h
  domain_subset x hx := by
    rw [Substitution.mem_domain, Substitution.binds, Substitution.get?_empty] at hx
    exact absurd hx (by simp)
  range_subset _ _ h := by simp at h

/-- A step that only drops or splits equations. -/
theorem mono (h : Solving xs eqs u) (hv : Equation.vars eqs' ⊆ Equation.vars eqs) :
    Solving xs eqs' u where
  unbound x hx := h.unbound x (hv hx)
  idempotent := h.idempotent
  left_subset := fun _ hx => h.left_subset (hv hx)
  domain_subset := h.domain_subset
  range_subset := h.range_subset

/-- What the substitution binds after a variable has been bound. -/
theorem get?_compose_singleton {x y : Var} {s t : Term}
    (h : ((Substitution.singleton x t).compose u).get? y = some s) :
    (∃ s', u.get? y = some s' ∧ s = s'.bind (Equation.single x t)) ∨
      (u.get? y = none ∧ y = x ∧ s = t) := by
  rw [Substitution.get?_compose] at h
  cases hy : u.get? y with
  | some s' =>
    rw [hy, Option.map_some, Option.some_or, Option.some_inj] at h
    exact Or.inl ⟨s', rfl, by rw [← h, Substitution.applyTerm, Substitution.lookup_singleton]⟩
  | none =>
    rw [hy, Option.map_none, Option.none_or, Substitution.get?_singleton] at h
    by_cases hxy : x = y
    · rw [if_pos hxy, Option.some_inj] at h
      exact Or.inr ⟨rfl, hxy.symm, h.symm⟩
    · rw [if_neg hxy] at h
      exact absurd h (by simp)

/-- A step that binds a variable of the first equation. -/
theorem bind {e : Equation} (h : Solving xs (e :: eqs) u) {x : Var} {t : Term} (ht : x ∉ t.vars)
    (hx : x ∈ e.1.vars ++ e.2.vars) (hv : t.vars ⊆ e.1.vars ++ e.2.vars) :
    Solving xs (Equation.replace x t eqs) ((Substitution.singleton x t).compose u) := by
  have hleft : ∀ y ∈ e.1.vars ++ e.2.vars, y ∈ Equation.vars (e :: eqs) := by
    intro y hy
    rw [Equation.vars_cons]
    exact List.mem_append_left _ hy
  have hrest : ∀ y ∈ Equation.vars eqs, y ∈ Equation.vars (e :: eqs) := by
    intro y hy
    rw [Equation.vars_cons]
    exact List.mem_append_right _ hy
  have hreplaced : ∀ y ∈ Equation.vars (Equation.replace x t eqs),
      y ≠ x ∧ y ∈ Equation.vars (e :: eqs) := by
    intro y hy
    have hy' := Equation.vars_replace ht hy
    exact ⟨hy'.1, hy'.2.elim (hrest y) fun hyt => hleft y (hv hyt)⟩
  -- a variable bound now was bound before, or is the new one
  have hbinds : ∀ y, ((Substitution.singleton x t).compose u).binds y → u.binds y ∨ y = x := by
    intro y hy
    obtain ⟨s, hs⟩ := Option.isSome_iff_exists.mp hy
    rcases get?_compose_singleton hs with ⟨s', hs', -⟩ | ⟨-, hyx, -⟩
    · exact Or.inl (by rw [Substitution.binds, hs']; rfl)
    · exact Or.inr hyx
  have hunbound : ∀ y ∈ Equation.vars (e :: eqs), ¬u.binds y := by
    intro y hy hb
    rw [Substitution.binds, h.unbound y hy] at hb
    exact absurd hb (by simp)
  refine ⟨fun y hy => ?_, fun y z s hb hs => ?_, fun y hy => ?_, fun y hy => ?_, fun y s hs => ?_⟩
  · obtain ⟨hyx, hyv⟩ := hreplaced y hy
    rw [Substitution.get?_compose, h.unbound y hyv, Option.map_none, Option.none_or,
      Substitution.get?_singleton, if_neg (Ne.symm hyx)]
  · rcases get?_compose_singleton hs with ⟨s', hs', rfl⟩ | ⟨-, -, rfl⟩
    · intro hy
      obtain ⟨hyx, hys | hyt⟩ := Equation.vars_bind_single ht hy
      · rcases hbinds y hb with hb | hb
        · exact h.idempotent y z s' hb hs' hys
        · exact hyx hb
      · rcases hbinds y hb with hb | hb
        · exact hunbound y (hleft y (hv hyt)) hb
        · exact hyx hb
    · intro hy
      rcases hbinds y hb with hb | hb
      · exact hunbound y (hleft y (hv hy)) hb
      · exact ht (hb ▸ hy)
  · exact h.left_subset (hreplaced y hy).2
  · rcases hbinds y (Substitution.mem_domain.mp hy) with hb | rfl
    · exact h.domain_subset (Substitution.mem_domain.mpr hb)
    · exact h.left_subset (hleft y hx)
  · rcases get?_compose_singleton hs with ⟨s', hs', rfl⟩ | ⟨-, -, rfl⟩
    · intro z hz
      obtain ⟨-, hzs | hzt⟩ := Equation.vars_bind_single ht hz
      · exact h.range_subset y s' hs' hzs
      · exact h.left_subset (hleft z (hv hzt))
    · exact fun z hz => h.left_subset (hleft z (hv hz))

/-- The collected substitution generalizes itself. -/
theorem generalizes_lookup (h : Solving xs eqs u) : u.Generalizes u.lookup := by
  intro x
  cases hx : u.get? x with
  | none => rw [Substitution.lookup, hx, Option.getD_none, Term.bind_var, Substitution.lookup, hx,
      Option.getD_none]
  | some t =>
    have ht : u.lookup x = t := by rw [Substitution.lookup, hx, Option.getD_some]
    rw [ht]
    calc t.bind u.lookup = t.bind Term.var := by
          refine Term.bind_congr fun y hy => ?_
          have hn : u.get? y = none :=
            Option.not_isSome_iff_eq_none.mp fun hb => h.idempotent y x t hb hx hy
          rw [Substitution.lookup, hn, Option.getD_none]
      _ = t := Term.bind_var_eq_self t

end Solving

/-! ## The steps of the search -/

theorem solve_cons_self (t : Term) (eqs : List Equation) (u : Substitution) :
    solve ((t, t) :: eqs) u = solve eqs u := by
  cases t <;> simp [solve]

theorem solve_cons_var_left {x : Var} {t : Term} (h : Term.var x ≠ t) (eqs : List Equation)
    (u : Substitution) :
    solve ((.var x, t) :: eqs) u =
      if x ∈ t.vars then none
      else solve (Equation.replace x t eqs) ((Substitution.singleton x t).compose u) := by
  rw [solve, if_neg h]

theorem solve_cons_var_right {s : Term} {y : Var} (hs : ∀ x, s ≠ .var x) (eqs : List Equation)
    (u : Substitution) :
    solve ((s, .var y) :: eqs) u =
      if y ∈ s.vars then none
      else solve (Equation.replace y s eqs) ((Substitution.singleton y s).compose u) := by
  cases s with
  | var x => exact absurd rfl (hs x)
  | iri i => simp [solve]
  | value l => simp [solve]
  | app g ss => simp [solve]

theorem solve_cons_app {f g : String} {ss ts : List Term} (h : Term.app f ss ≠ .app g ts)
    (eqs : List Equation) (u : Substitution) :
    solve ((.app f ss, .app g ts) :: eqs) u =
      if f = g ∧ ss.length = ts.length then solve (Equation.ofArgs ss ts ++ eqs) u else none := by
  rw [solve, if_neg h]

theorem solve_cons_clash {s t : Term} (h : s ≠ t) (hs : ∀ x, s ≠ .var x) (ht : ∀ y, t ≠ .var y)
    (happ : ∀ f ss g ts, s = .app f ss → t ≠ .app g ts) (eqs : List Equation) (u : Substitution) :
    solve ((s, t) :: eqs) u = none := by
  cases s with
  | var x => exact absurd rfl (hs x)
  | iri i => cases t <;> simp_all [solve]
  | value l => cases t <;> simp_all [solve]
  | app f ss =>
    cases t with
    | var y => exact absurd rfl (ht y)
    | iri i => simp [solve]
    | value l => simp [solve]
    | app g ts => exact absurd rfl (happ f ss g ts rfl)

namespace Equation

theorem vars_subset_cons (e : Equation) (eqs : List Equation) : vars eqs ⊆ vars (e :: eqs) := by
  intro x hx
  rw [vars_cons]
  exact List.mem_append_right _ hx

theorem vars_ofArgs_append_subset (f g : String) (ss ts : List Term) (eqs : List Equation) :
    vars (ofArgs ss ts ++ eqs) ⊆ vars ((.app f ss, .app g ts) :: eqs) := by
  intro x hx
  rw [vars, List.flatMap_append, List.mem_append] at hx
  rcases hx with hx | hx
  · rw [vars_cons]
    exact List.mem_append_left _ (vars_ofArgs_subset ss ts hx)
  · exact vars_subset_cons _ eqs hx

/-- Two applications become equal exactly if their symbols agree and their arguments become
equal. -/
theorem bind_app_eq_bind_app {f : Var → Term} {g k : String} {ss ts : List Term} :
    (Term.app g ss).bind f = (Term.app k ts).bind f ↔
      (g = k ∧ ss.length = ts.length) ∧ ss.map (Term.bind f) = ts.map (Term.bind f) := by
  rw [Term.bind_app, Term.bind_app, Term.app.injEq]
  constructor
  · rintro ⟨hg, ha⟩
    have hlen := congrArg List.length ha
    rw [List.length_map, List.length_map] at hlen
    exact ⟨⟨hg, hlen⟩, ha⟩
  · rintro ⟨⟨hg, -⟩, ha⟩
    exact ⟨hg, ha⟩

/-- Two terms of different kinds, neither of which is a variable, never become equal. -/
theorem bind_ne_of_clash {s t : Term} (h : s ≠ t) (hs : ∀ x, s ≠ .var x) (ht : ∀ y, t ≠ .var y)
    (happ : ∀ f ss g ts, s = .app f ss → t ≠ .app g ts) (f : Var → Term) : s.bind f ≠ t.bind f := by
  cases s with
  | var x => exact absurd rfl (hs x)
  | iri i => cases t <;> simp_all
  | value l => cases t <;> simp_all
  | app g ss =>
    cases t with
    | var y => exact absurd rfl (ht y)
    | iri i => simp
    | value l => simp
    | app k ts => exact absurd rfl (happ g ss k ts rfl)

end Equation

/-! ## The outcome of the search -/

/-- What the outcome of a search says about the equations `eqs` and the substitution `u` that it
began with: there is no solution, or the answer generalizes exactly the solutions that `u`
generalizes. -/
def Outcome (xs : List Var) (eqs : List Equation) (u : Substitution) : Option Substitution → Prop
  | none => ∀ f, ¬Equation.Solves f eqs
  | some w => Solving xs [] w ∧ ∀ f, w.Generalizes f ↔ Equation.Solves f eqs ∧ u.Generalizes f

/-- Equations with the same solutions, for what is generalized by the collected substitution, have
the same outcomes. -/
theorem Outcome.of_iff {xs : List Var} {eqs eqs' : List Equation} {u u' : Substitution}
    {answer : Option Substitution} (h : Outcome xs eqs' u' answer)
    (hsolves : ∀ f, Equation.Solves f eqs → Equation.Solves f eqs')
    (hiff : ∀ f, Equation.Solves f eqs' ∧ u'.Generalizes f ↔
      Equation.Solves f eqs ∧ u.Generalizes f) :
    Outcome xs eqs u answer := by
  cases answer with
  | none => exact fun f hf => h f (hsolves f hf)
  | some w => exact ⟨h.1, fun f => (h.2 f).trans (hiff f)⟩

/-- A step that binds a variable keeps the outcome. -/
theorem Outcome.of_bind {xs : List Var} {e : Equation} {eqs : List Equation} {u : Substitution}
    {answer : Option Substitution} {x : Var} {t : Term} (hu : u.get? x = none)
    (he : ∀ f, e.1.bind f = e.2.bind f ↔ f x = t.bind f)
    (h : Outcome xs (Equation.replace x t eqs) ((Substitution.singleton x t).compose u) answer) :
    Outcome xs (e :: eqs) u answer := by
  refine h.of_iff (fun f hf => ?_) fun f => ?_
  · rw [Equation.solves_cons, he] at hf
    exact (Equation.solves_replace hf.1 eqs).mpr hf.2
  · rw [Equation.solves_cons, he, Substitution.generalizes_compose_singleton hu]
    constructor
    · rintro ⟨hf, hx, hg⟩
      exact ⟨⟨hx, (Equation.solves_replace hx eqs).mp hf⟩, hg⟩
    · rintro ⟨⟨hx, hf⟩, hg⟩
      exact ⟨(Equation.solves_replace hx eqs).mpr hf, hx, hg⟩

/-- The search finds out whether there is a solution, and then generalizes all of them. -/
theorem outcome_solve {xs : List Var} {eqs : List Equation} {u : Substitution}
    (hu : Solving xs eqs u) : Outcome xs eqs u (solve eqs u) := by
  induction eqs, u using solve.induct with
  | case1 u =>
    rw [solve]
    exact ⟨hu, fun f => by simp⟩
  | case2 t eqs u ih =>
    rw [solve_cons_self]
    refine (ih (hu.mono (Equation.vars_subset_cons _ eqs))).of_iff ?_ ?_ <;> simp
  | case3 eqs u x t hx hne =>
    rw [solve_cons_var_left hne, if_pos hx]
    intro f hf
    exact Equation.bind_ne_of_mem_vars f hx hne ((Equation.solves_cons _ _ _).mp hf).1
  | case4 eqs u x t hx hne ih =>
    rw [solve_cons_var_left hne, if_neg hx]
    exact (ih (hu.bind hx (by simp) (by simp))).of_bind (hu.unbound x (by simp)) fun f => Iff.rfl
  | case5 eqs u s y hs hy hne =>
    rw [solve_cons_var_right hs, if_pos hy]
    intro f hf
    exact Equation.bind_ne_of_mem_vars f hy (Ne.symm hne)
      ((Equation.solves_cons _ _ _).mp hf).1.symm
  | case6 eqs u s y hs hy hne ih =>
    rw [solve_cons_var_right hs, if_neg hy]
    exact (ih (hu.bind hy (by simp) (by simp))).of_bind (hu.unbound y (by simp)) fun f => eq_comm
  | case7 eqs u g ss k ts hg hne ih =>
    rw [solve_cons_app hne, if_pos hg]
    have hiff : ∀ f, Equation.Solves f (Equation.ofArgs ss ts ++ eqs) ↔
        Equation.Solves f ((.app g ss, .app k ts) :: eqs) := by
      intro f
      rw [Equation.solves_append, Equation.solves_ofArgs f hg.2, Equation.solves_cons,
        Equation.bind_app_eq_bind_app]
      simp only [hg, and_self, true_and]
    refine (ih (hu.mono (Equation.vars_ofArgs_append_subset g k ss ts eqs))).of_iff
      (fun f => (hiff f).mpr) fun f => ?_
    rw [hiff]
  | case8 eqs u g ss k ts hg hne =>
    rw [solve_cons_app hne, if_neg hg]
    intro f hf
    exact hg (Equation.bind_app_eq_bind_app.mp ((Equation.solves_cons _ _ _).mp hf).1).1
  | case9 s t eqs u hne hs ht happ =>
    rw [solve_cons_clash hne hs ht happ]
    intro f hf
    exact Equation.bind_ne_of_clash hne hs ht happ f ((Equation.solves_cons _ _ _).mp hf).1

/-- The outcome of a search that begins with the empty substitution. -/
theorem outcome_solve_empty (eqs : List Equation) :
    Outcome (Equation.vars eqs) eqs .empty (solve eqs .empty) :=
  outcome_solve (Solving.start (List.Subset.refl _))

theorem Outcome.not_solves {xs : List Var} {eqs : List Equation} {u : Substitution}
    {answer : Option Substitution} (h : Outcome xs eqs u answer) (hn : answer = none)
    (f : Var → Term) : ¬Equation.Solves f eqs := by
  subst hn
  exact h f

theorem Outcome.solving {xs : List Var} {eqs : List Equation} {u w : Substitution}
    {answer : Option Substitution} (h : Outcome xs eqs u answer) (hs : answer = some w) :
    Solving xs [] w := by
  subst hs
  exact h.1

/-- The solutions are what the answer generalizes. -/
theorem Outcome.generalizes_iff {xs : List Var} {eqs : List Equation} {w : Substitution}
    {answer : Option Substitution} (h : Outcome xs eqs .empty answer) (hs : answer = some w)
    (f : Var → Term) : w.Generalizes f ↔ Equation.Solves f eqs := by
  subst hs
  rw [h.2 f]
  exact and_iff_left (Substitution.generalizes_empty f)

/-- The answer is itself a solution. -/
theorem Outcome.solves_lookup {xs : List Var} {eqs : List Equation} {w : Substitution}
    {answer : Option Substitution} (h : Outcome xs eqs .empty answer) (hs : answer = some w) :
    Equation.Solves w.lookup eqs :=
  (h.generalizes_iff hs _).mp (h.solving hs).generalizes_lookup

/-! ## Unification of atoms -/

theorem outcome_unifyAtoms {a b : Atom} (h : a.predicate = b.predicate) :
    Outcome (Equation.vars (Equation.ofArgs a.args b.args)) (Equation.ofArgs a.args b.args) .empty
      (unifyAtoms a b) := by
  rw [unifyAtoms, if_pos h]
  exact outcome_solve_empty _

theorem Atom.length_args_eq {a b : Atom} (h : a.predicate = b.predicate) :
    a.args.length = b.args.length :=
  congrArg Symbol.arity h

/-- Atoms of one predicate whose arguments are made equal by an assignment unify, and the assignment
factors through their unifier. -/
theorem exists_unifyAtoms {a b : Atom} {f : Var → Term} (hp : a.predicate = b.predicate)
    (h : a.args.map (Term.bind f) = b.args.map (Term.bind f)) :
    ∃ u, unifyAtoms a b = some u ∧ u.Generalizes f := by
  have hf : Equation.Solves f (Equation.ofArgs a.args b.args) :=
    (Equation.solves_ofArgs f (Atom.length_args_eq hp)).mpr h
  cases hu : unifyAtoms a b with
  | none => exact absurd hf ((outcome_unifyAtoms hp).not_solves hu f)
  | some u => exact ⟨u, rfl, ((outcome_unifyAtoms hp).generalizes_iff hu f).mpr hf⟩

theorem predicate_eq_of_unifyAtoms {a b : Atom} {u : Substitution} (h : unifyAtoms a b = some u) :
    a.predicate = b.predicate := by
  unfold unifyAtoms at h
  split at h
  · assumption
  · exact absurd h (by simp)

/-- The unifier of two atoms makes their arguments equal. -/
theorem map_args_eq_of_unifyAtoms {a b : Atom} {u : Substitution} (h : unifyAtoms a b = some u) :
    a.args.map (Term.bind u.lookup) = b.args.map (Term.bind u.lookup) := by
  have hp := predicate_eq_of_unifyAtoms h
  exact (Equation.solves_ofArgs _ (Atom.length_args_eq hp)).mp
    ((outcome_unifyAtoms hp).solves_lookup h)

/-- A substitution makes two atoms equal exactly if it makes their terms equal and they differ in
nothing else. -/
theorem Substitution.applyAtom_eq_iff {s : Substitution} {a b : Atom} :
    s.applyAtom a = s.applyAtom b ↔
      a.predicate = b.predicate ∧
        a.args.map (Term.bind s.lookup) = b.args.map (Term.bind s.lookup) ∧
        a.isWildcard = b.isWildcard := by
  rw [applyAtom, applyAtom, Atom.eq_iff, Atom.predicate_bind, Atom.predicate_bind, Atom.args_bind,
    Atom.args_bind, Atom.isWildcard_bind, Atom.isWildcard_bind]

/-- The unifier of two atoms makes them equal, unless just one of them is a wildcard. -/
theorem applyAtom_eq_of_unifyAtoms {a b : Atom} {u : Substitution} (h : unifyAtoms a b = some u)
    (hw : a.isWildcard = b.isWildcard) : u.applyAtom a = u.applyAtom b :=
  Substitution.applyAtom_eq_iff.mpr
    ⟨predicate_eq_of_unifyAtoms h, map_args_eq_of_unifyAtoms h, hw⟩

/-- The unifier of two atoms puts only their variables into terms. -/
theorem mem_vars_lookup_of_unifyAtoms {a b : Atom} {u : Substitution} (h : unifyAtoms a b = some u)
    {x y : Var} (hy : y ∈ (u.lookup x).vars) : y = x ∨ y ∈ a.vars ++ b.vars := by
  have hsolving := (outcome_unifyAtoms (predicate_eq_of_unifyAtoms h)).solving h
  cases hx : u.get? x with
  | none =>
    rw [Substitution.lookup, hx, Option.getD_none, Term.vars_var, List.mem_singleton] at hy
    exact Or.inl hy
  | some t =>
    rw [Substitution.lookup, hx, Option.getD_some] at hy
    exact Or.inr (Equation.vars_ofArgs_subset _ _ (hsolving.range_subset x t hx hy))

/-- The unifier of two atoms binds only their variables. -/
theorem lookup_eq_var_of_unifyAtoms {a b : Atom} {u : Substitution} (h : unifyAtoms a b = some u)
    {x : Var} (hx : x ∉ a.vars ++ b.vars) : u.lookup x = .var x := by
  have hsolving := (outcome_unifyAtoms (predicate_eq_of_unifyAtoms h)).solving h
  refine Substitution.lookup_of_notMem_domain fun hmem => hx ?_
  exact Equation.vars_ofArgs_subset _ _ (hsolving.domain_subset hmem)

/-- A wildcard has no terms, and so has an atom with the same predicate. -/
theorem Atom.args_eq_of_isWildcard_ne {a b : Atom} (hp : a.predicate = b.predicate)
    (hw : a.isWildcard ≠ b.isWildcard) : a.args = b.args := by
  have hlen := length_args_eq hp
  cases a with
  | plain n ts =>
    cases b with
    | plain k us => exact absurd rfl hw
    | wildcard k => exact List.eq_nil_of_length_eq_zero hlen
  | wildcard n =>
    cases b with
    | plain k us => exact (List.eq_nil_of_length_eq_zero hlen.symm).symm
    | wildcard k => rfl

/-- **Unification makes atoms equal**, up to the difference between the wildcard `p(*)` and the atom
`p()`.  No substitution makes these two equal, but they have one predicate and the same terms, and
more is not compared: they unify.  Two atoms that differ otherwise unify exactly if some
substitution makes them equal, and then their unifier does. -/
theorem unifyAtoms_unifies (a b : Atom) :
    ((unifyAtoms a b).isSome ↔
      (∃ s : Substitution, s.applyAtom a = s.applyAtom b) ∨
        (a.predicate = b.predicate ∧ a.isWildcard ≠ b.isWildcard)) ∧
      ∀ u, unifyAtoms a b = some u →
        (u.applyAtom a = u.applyAtom b ↔ a.isWildcard = b.isWildcard) := by
  refine ⟨⟨fun h => ?_, fun h => ?_⟩, fun u hu =>
    ⟨fun he => (Substitution.applyAtom_eq_iff.mp he).2.2, applyAtom_eq_of_unifyAtoms hu⟩⟩
  · obtain ⟨u, hu⟩ := Option.isSome_iff_exists.mp h
    by_cases hw : a.isWildcard = b.isWildcard
    · exact Or.inl ⟨u, applyAtom_eq_of_unifyAtoms hu hw⟩
    · exact Or.inr ⟨predicate_eq_of_unifyAtoms hu, hw⟩
  · -- in both cases the terms of the two atoms become equal
    obtain ⟨s, hp, hargs⟩ : ∃ s : Substitution, a.predicate = b.predicate ∧
        a.args.map (Term.bind s.lookup) = b.args.map (Term.bind s.lookup) := by
      rcases h with ⟨s, hs⟩ | ⟨hp, hw⟩
      · obtain ⟨hp, hargs, -⟩ := Substitution.applyAtom_eq_iff.mp hs
        exact ⟨s, hp, hargs⟩
      · exact ⟨.empty, hp, by rw [Atom.args_eq_of_isWildcard_ne hp hw]⟩
    obtain ⟨u, hu, -⟩ := exists_unifyAtoms hp hargs
    exact Option.isSome_of_eq_some hu

/-- A variable that is met twice, `p(?x, ?x)` and `p(f(?y), ?z)`. -/
theorem unifyAtoms_unifies_repeated :
    ∃ u, unifyAtoms (.plain "p" [.var ⟨"x"⟩, .var ⟨"x"⟩])
        (.plain "p" [.app "f" [.var ⟨"y"⟩], .var ⟨"z"⟩]) = some u ∧
      u.applyAtom (.plain "p" [.var ⟨"x"⟩, .var ⟨"x"⟩]) =
        u.applyAtom (.plain "p" [.app "f" [.var ⟨"y"⟩], .var ⟨"z"⟩]) := by
  have h : unifyAtoms (.plain "p" [.var ⟨"x"⟩, .var ⟨"x"⟩])
      (.plain "p" [.app "f" [.var ⟨"y"⟩], .var ⟨"z"⟩]) =
        some ((Substitution.singleton ⟨"z"⟩ (.app "f" [.var ⟨"y"⟩])).compose
          ((Substitution.singleton ⟨"x"⟩ (.var ⟨"z"⟩)).compose .empty)) := by
    simp [unifyAtoms, Atom.predicate, Atom.name, Atom.arity, Atom.args, solve, Equation.ofArgs,
      Equation.replace, Equation.single]
  exact ⟨_, h, ((unifyAtoms_unifies _ _).2 _ h).mpr rfl⟩

/-- The wildcard `p(*)` and the atom `p()` unify, although no substitution makes them equal. -/
theorem unifyAtoms_wildcard_plain :
    (unifyAtoms (.wildcard "p") (.plain "p" [])).isSome ∧
      ∀ s : Substitution, s.applyAtom (.wildcard "p") ≠ s.applyAtom (.plain "p" []) := by
  refine ⟨?_, fun s => Atom.noConfusion⟩
  obtain ⟨u, hu, -⟩ :=
    exists_unifyAtoms (a := .wildcard "p") (b := .plain "p" []) (f := .var) rfl rfl
  exact Option.isSome_of_eq_some hu

/-! ## Unification of terms -/

theorem Substitution.mem_rangeVars {u : Substitution} {y : Var} :
    y ∈ u.rangeVars ↔ ∃ x t, u.get? x = some t ∧ y ∈ t.vars := by
  rw [rangeVars, List.mem_flatMap]
  constructor
  · rintro ⟨⟨x, t⟩, hp, hy⟩
    exact ⟨x, t, mem_toList.mp hp, hy⟩
  · rintro ⟨x, t, hx, hy⟩
    exact ⟨(x, t), mem_toList.mpr hx, hy⟩

theorem Equation.solves_pair (f : Var → Term) (s t : Term) :
    Solves f [(s, t)] ↔ s.bind f = t.bind f := by
  rw [solves_cons]
  exact and_iff_left (solves_nil f)

theorem Equation.vars_pair (s t : Term) : vars [(s, t)] = s.vars ++ t.vars := by
  rw [vars_cons]
  exact List.append_nil _

/-- **Unification finds a most general unifier.**  It fails exactly if no substitution makes the two
terms equal.  If it succeeds, its answer makes them equal, every substitution that does so factors
through the answer by itself, no bound variable of the answer occurs in one of its images, and all
variables of the answer are variables of the two terms. -/
theorem unify_isMostGeneral (s t : Term) :
    (unify s t = none ↔ ∀ r : Substitution, r.applyTerm s ≠ r.applyTerm t) ∧
      ∀ u, unify s t = some u →
        u.applyTerm s = u.applyTerm t ∧
        (∀ r : Substitution, r.applyTerm s = r.applyTerm t →
          ∀ x, r.lookup x = (r.compose u).lookup x) ∧
        (∀ x ∈ u.domain, x ∉ u.rangeVars) ∧
        ∀ x, x ∈ u.domain ∨ x ∈ u.rangeVars → x ∈ s.vars ∨ x ∈ t.vars := by
  have hout : Outcome (Equation.vars [(s, t)]) [(s, t)] .empty (unify s t) := outcome_solve_empty _
  have hunifies : ∀ u, unify s t = some u → u.applyTerm s = u.applyTerm t := fun u hu =>
    (Equation.solves_pair _ s t).mp (hout.solves_lookup hu)
  refine ⟨⟨fun hn r hr => ?_, fun hr => ?_⟩, fun u hu => ⟨hunifies u hu, fun r hr x => ?_, ?_, ?_⟩⟩
  · exact hout.not_solves hn r.lookup ((Equation.solves_pair _ s t).mpr hr)
  · cases hu : unify s t with
    | none => rfl
    | some u => exact absurd (hunifies u hu) (hr u)
  · have hg : u.Generalizes r.lookup :=
      (hout.generalizes_iff hu _).mpr ((Equation.solves_pair _ s t).mpr hr)
    rw [Substitution.lookup_compose]
    exact (hg x).symm
  · intro x hx hr
    obtain ⟨y, v, hy, hxv⟩ := Substitution.mem_rangeVars.mp hr
    exact (hout.solving hu).idempotent x y v (Substitution.mem_domain.mp hx) hy hxv
  · intro x hx
    rw [← List.mem_append, ← Equation.vars_pair]
    rcases hx with hx | hx
    · exact (hout.solving hu).domain_subset hx
    · obtain ⟨y, v, hy, hxv⟩ := Substitution.mem_rangeVars.mp hx
      exact (hout.solving hu).range_subset y v hy hxv

/-- A variable on both sides, once bound to an application that contains another one:
`f(?x, g(?y))` and `f(g(?z), ?x)`. -/
theorem unify_isMostGeneral_shared :
    ∃ u, unify (.app "f" [.var ⟨"x"⟩, .app "g" [.var ⟨"y"⟩]])
        (.app "f" [.app "g" [.var ⟨"z"⟩], .var ⟨"x"⟩]) = some u ∧
      u.applyTerm (.app "f" [.var ⟨"x"⟩, .app "g" [.var ⟨"y"⟩]]) =
        u.applyTerm (.app "f" [.app "g" [.var ⟨"z"⟩], .var ⟨"x"⟩]) ∧
      ∀ x ∈ u.domain, x ∉ u.rangeVars := by
  have h : unify (.app "f" [.var ⟨"x"⟩, .app "g" [.var ⟨"y"⟩]])
      (.app "f" [.app "g" [.var ⟨"z"⟩], .var ⟨"x"⟩]) =
        some ((Substitution.singleton ⟨"y"⟩ (.var ⟨"z"⟩)).compose
          ((Substitution.singleton ⟨"x"⟩ (.app "g" [.var ⟨"y"⟩])).compose .empty)) := by
    simp [unify, solve, Equation.ofArgs, Equation.replace, Equation.single]
  obtain ⟨hunifies, -, hidem, -⟩ := (unify_isMostGeneral _ _).2 _ h
  exact ⟨_, h, hunifies, hidem⟩

end OntoQuery
