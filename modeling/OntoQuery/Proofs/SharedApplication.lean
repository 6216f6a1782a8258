import OntoQuery.Proofs.Composition
import OntoQuery.Substitution.Sharing

/-!
# Application that shares is replacement

Application that keeps what does not change gives the same term as plain replacement, and it leaves
a term as it is exactly if no variable of the term is bound.

Both follow from one equation, which says when there is a new term and what it is: the answer of
`rebuild?` is `s.changed? t.vars (t.bind s.lookup)`.  For an application it is a statement about the
way through the arguments.  When the terms `seen` have been passed, the copy made so far is
`s.changed? (varsList seen) (seen.map (bind s.lookup))`: there is none while no bound variable has
occurred, and then `seen` is its own image, so the copy may begin with `seen` as it is.

* `addToCopy_changed?`: one term more keeps this.
* `rebuildFrom_eq`: so does the rest of the list.
* `rebuild?_eq`, `rebuildAtom?_eq`: the equation for terms and atoms.
* `rebuild?_shares`: what it means for the caller.
-/

namespace OntoQuery

namespace Substitution

variable {s : Substitution}

/-! ## Bound variables that occur -/

/-- Whether one of the variables is bound. -/
def touches (s : Substitution) (xs : List Var) : Bool := xs.any s.binds

/-- The result `a` of replacing the variables `xs`, or `none` if none of them is bound. -/
def changed? {α : Type} (s : Substitution) (xs : List Var) (a : α) : Option α :=
  if s.touches xs then some a else none

theorem touches_append (s : Substitution) (xs ys : List Var) :
    s.touches (xs ++ ys) = (s.touches xs || s.touches ys) :=
  List.any_append

theorem touches_eq_false_iff {xs : List Var} : s.touches xs = false ↔ ∀ x ∈ xs, x ∉ s.domain := by
  simp only [touches, List.any_eq_false, mem_domain]

/-- A thing in which no variable is bound is its own image. -/
theorem bind_lookup_of_touches {α : Type} {vars : α → List Var} {bind : (Var → Term) → α → α}
    (h : IsReplacement vars bind) {a : α} (ha : s.touches (vars a) = false) :
    bind s.lookup a = a := by
  refine (h.bind_eq_self_iff _ a).mpr fun x hx => ?_
  exact lookup_of_notMem_domain (touches_eq_false_iff.mp ha x hx)

theorem touches_of_isEmpty (h : s.isEmpty) (xs : List Var) : s.touches xs = false := by
  rw [touches_eq_false_iff]
  intro x _
  rw [← get?_eq_none_iff, get?, Std.ExtTreeMap.isEmpty_iff.mp h, Std.ExtTreeMap.getElem?_empty]

theorem changed?_of_isEmpty {α : Type} (h : s.isEmpty) (xs : List Var) (a : α) :
    s.changed? xs a = none := by
  rw [changed?, touches_of_isEmpty h, if_neg Bool.false_ne_true]

theorem map_changed? {α β : Type} (f : α → β) (xs : List Var) (a : α) :
    (s.changed? xs a).map f = s.changed? xs (f a) := by
  rw [changed?, changed?, apply_ite (Option.map f), Option.map_some, Option.map_none]

/-! ## The way through a list -/

/-- One term more: the copy of what has been seen becomes the copy of that and the term. -/
theorem addToCopy_changed? (seen rest : List Term) (t : Term) :
    Term.addToCopy (seen ++ t :: rest) seen.length
        (s.changed? (Term.varsList seen) (seen.map (Term.bind s.lookup))) t
        (s.changed? t.vars (t.bind s.lookup)) =
      s.changed? (Term.varsList (seen ++ [t])) ((seen ++ [t]).map (Term.bind s.lookup)) := by
  have hvars : s.touches (Term.varsList (seen ++ [t])) =
      (s.touches (Term.varsList seen) || s.touches t.vars) := by
    rw [Term.varsList_append, touches_append, Term.varsList_cons, Term.varsList_nil,
      List.append_nil]
  simp only [changed?, hvars, List.map_append, List.map_cons, List.map_nil]
  cases hseen : s.touches (Term.varsList seen) with
  | true =>
    cases ht : s.touches t.vars with
    | true => rfl
    | false =>
      rw [bind_lookup_of_touches Term.isReplacement ht]
      rfl
  | false =>
    cases ht : s.touches t.vars with
    | true =>
      -- the copy starts here, with the terms before as they are
      rw [bind_lookup_of_touches Term.isReplacement_list hseen]
      simp [Term.addToCopy]
    | false => rfl

/-- The way through the rest of a list ends with the copy of the whole list. -/
theorem rebuildFrom_eq {rest : List Term}
    (hrest : ∀ t ∈ rest, s.rebuild? t = s.changed? t.vars (t.bind s.lookup)) (seen : List Term) :
    s.rebuildFrom (seen ++ rest) seen.length
        (s.changed? (Term.varsList seen) (seen.map (Term.bind s.lookup))) rest =
      s.changed? (Term.varsList (seen ++ rest)) ((seen ++ rest).map (Term.bind s.lookup)) := by
  induction rest generalizing seen with
  | nil => rw [rebuildFrom, List.append_nil]
  | cons t rest ih =>
    rw [rebuildFrom, hrest t List.mem_cons_self, addToCopy_changed?]
    have hih := ih (fun u hu => hrest u (List.mem_cons_of_mem t hu)) (seen ++ [t])
    rwa [List.append_assoc, List.singleton_append, List.length_append, List.length_singleton] at hih

theorem rebuildList?_eq (ts : List Term)
    (hts : ∀ t ∈ ts, s.rebuild? t = s.changed? t.vars (t.bind s.lookup)) :
    s.rebuildList? ts = s.changed? (Term.varsList ts) (ts.map (Term.bind s.lookup)) :=
  rebuildFrom_eq hts []

/-! ## Terms and atoms -/

/-- A term is rebuilt exactly if a bound variable occurs in it, and then it is replaced. -/
theorem rebuild?_eq (s : Substitution) (t : Term) :
    s.rebuild? t = s.changed? t.vars (t.bind s.lookup) := by
  by_cases hs : s.isEmpty
  · rw [rebuild?.eq_def, if_pos hs, changed?_of_isEmpty hs]
  · induction t using Term.ind with
    | var x =>
      rw [rebuild?.eq_def, if_neg hs, Term.bind_var, Term.vars_var, changed?, touches,
        List.any_cons, List.any_nil, Bool.or_false, binds, lookup]
      change s.get? x = _
      cases s.get? x <;> rfl
    | iri i =>
      rw [rebuild?.eq_def, if_neg hs]
      rfl
    | value l =>
      rw [rebuild?.eq_def, if_neg hs]
      rfl
    | app f args ih =>
      have hargs := congrArg (Option.map (Term.app f)) (rebuildList?_eq args ih)
      rw [map_changed?] at hargs
      rw [rebuild?.eq_def, if_neg hs, Term.bind_app, Term.vars_app]
      exact hargs

theorem rebuildAtom?_eq (s : Substitution) (a : Atom) :
    s.rebuildAtom? a = s.changed? a.vars (a.bind s.lookup) := by
  by_cases hs : s.isEmpty
  · rw [rebuildAtom?.eq_def, if_pos hs, changed?_of_isEmpty hs]
  · rw [rebuildAtom?.eq_def, if_neg hs]
    cases a with
    | plain p ts =>
      have hargs := congrArg (Option.map (Atom.plain p))
        (rebuildList?_eq ts fun t _ => s.rebuild?_eq t)
      rw [map_changed?] at hargs
      exact hargs
    | wildcard p => rfl

/-! ## What the caller sees -/

/-- Whether a way to rebuild things along a substitution shares all it can: it agrees with
replacement of the variables, answers `none`, so that a thing is left as it is, exactly if none of
its variables is bound, and depends only on what its variables are bound to. -/
structure IsSharing {α : Type} (vars : α → List Var) (bind : (Var → Term) → α → α)
    (rebuild? : Substitution → α → Option α) : Prop where
  /-- The result is that of replacing all variables. -/
  getD_eq : ∀ s a, (rebuild? s a).getD a = bind s.lookup a
  /-- Nothing is rebuilt exactly if no variable is bound. -/
  eq_none_iff : ∀ s a, rebuild? s a = none ↔ ∀ x ∈ vars a, x ∉ s.domain
  /-- The bindings of other variables do not matter. -/
  restrict_eq : ∀ s a xs, vars a ⊆ xs → rebuild? (s.restrict xs) a = rebuild? s a

theorem get?_restrict_of_mem {xs : List Var} {x : Var} (hx : x ∈ xs) :
    (s.restrict xs).get? x = s.get? x := by
  rw [get?_restrict, if_pos hx]

theorem IsSharing.of_eq {α : Type} {vars : α → List Var} {bind : (Var → Term) → α → α}
    {rebuild? : Substitution → α → Option α} (hr : IsReplacement vars bind)
    (h : ∀ s a, rebuild? s a = s.changed? (vars a) (bind s.lookup a)) :
    IsSharing vars bind rebuild? where
  getD_eq s a := by
    rw [h, changed?]
    cases ht : s.touches (vars a) with
    | true => rfl
    | false => exact (bind_lookup_of_touches hr ht).symm
  eq_none_iff s a := by
    rw [h, changed?, ← touches_eq_false_iff]
    cases s.touches (vars a) <;> simp
  restrict_eq s a xs hxs := by
    have htouches : (s.restrict xs).touches (vars a) = s.touches (vars a) := by
      rw [Bool.eq_iff_iff, touches, touches, List.any_eq_true, List.any_eq_true]
      refine exists_congr fun x => and_congr_right fun hx => ?_
      rw [binds, binds, get?_restrict_of_mem (hxs hx)]
    have hbind : bind (s.restrict xs).lookup a = bind s.lookup a := by
      refine (hr.bind_eq_iff _ _ a).mpr fun x hx => ?_
      rw [lookup, lookup, get?_restrict_of_mem (hxs hx)]
    rw [h, h, changed?, changed?, htouches, hbind]

/-- **Application that shares is replacement.**  For terms and for atoms the result is that of
replacing every bound variable wherever it occurs; the input is left as it is exactly if none of its
variables is in the domain, bound to itself or not; and a restriction to variables that include all
those of the input gives the same answer, rebuilt or not. -/
theorem rebuild?_shares :
    IsSharing Term.vars Term.bind rebuild? ∧ IsSharing Atom.vars Atom.bind rebuildAtom? :=
  ⟨.of_eq Term.isReplacement rebuild?_eq, .of_eq Atom.isReplacement rebuildAtom?_eq⟩

/-- Terms before and after the first one that changes. -/
example :
    (singleton ⟨"x"⟩ (.var ⟨"x"⟩)).rebuildList? [.iri "a", .app "f" [.var ⟨"y"⟩, .var ⟨"x"⟩],
      .var ⟨"y"⟩] = some [.iri "a", .app "f" [.var ⟨"y"⟩, .var ⟨"x"⟩], .var ⟨"y"⟩] := by
  decide

end Substitution

end OntoQuery
