import OntoQuery.Proofs.Variant
import OntoQuery.Substitution

/-!
# Composition of substitutions

Terms, atoms, rules and programs have in common how variables are replaced in them
(`IsReplacement`), and what holds of replacement alone holds of all four.

Composition makes the substitutions a monoid, and applying them is an action of it.  The laws are
equations between finite maps, and `x ↦ x` counts as a binding, so it does not follow that they hold
once both sides mean the same function: `{?x/?y}` after `{?y/?x}` keeps the binding of `?y` to
itself, and a composition never drops a variable of either domain.

* `Acts`: what it is for a way to apply substitutions to respect composition.  Replacement along a
  substitution does (`Acts.of_isReplacement`).
* `compose_assoc` compares the bindings variable by variable: what the innermost substitution binds
  goes through the other two, and the rest is left to these.
* `compose_monoid`: the laws together.
-/

namespace OntoQuery

/-! ## Replacement -/

/-- Whether `bind` replaces the variables that `vars` lists, and these only. -/
structure IsReplacement {α : Type} (vars : α → List Var) (bind : (Var → Term) → α → α) : Prop where
  /-- Replacing each variable by itself changes nothing. -/
  bind_var : ∀ a, bind Term.var a = a
  /-- Two replacements in a row are one. -/
  bind_bind : ∀ f g a, bind g (bind f a) = bind (fun x => (f x).bind g) a
  /-- Two replacements have one result exactly if they agree on the variables that occur. -/
  bind_eq_iff : ∀ f g a, bind f a = bind g a ↔ ∀ x ∈ vars a, f x = g x

theorem IsReplacement.bind_eq_self_iff {α : Type} {vars : α → List Var}
    {bind : (Var → Term) → α → α} (h : IsReplacement vars bind) (f : Var → Term) (a : α) :
    bind f a = a ↔ ∀ x ∈ vars a, f x = .var x := by
  rw [← h.bind_eq_iff, h.bind_var]

/-- What holds of the members of a list holds of the list. -/
theorem IsReplacement.list {α : Type} {vars : α → List Var} {bind : (Var → Term) → α → α}
    (h : IsReplacement vars bind) :
    IsReplacement (List.flatMap vars) fun f => List.map (bind f) where
  bind_var as := by
    have hid : bind Term.var = id := funext h.bind_var
    rw [hid, List.map_id]
  bind_bind f g as := by
    rw [List.map_map]
    exact List.map_congr_left fun a _ => h.bind_bind f g a
  bind_eq_iff f g as := by
    simp only [List.map_inj_left, h.bind_eq_iff, List.mem_flatMap]
    exact ⟨fun hall x ⟨a, ha, hx⟩ => hall a ha x hx, fun hall a ha x hx => hall x ⟨a, ha, hx⟩⟩

theorem Term.isReplacement : IsReplacement Term.vars Term.bind where
  bind_var := bind_var_eq_self
  bind_bind := bind_bind
  bind_eq_iff _ _ _ := ⟨eq_of_bind_eq, bind_congr⟩

theorem Term.isReplacement_list : IsReplacement varsList fun f => List.map (bind f) := by
  have hvars : varsList = List.flatMap vars := funext varsList_eq_flatMap
  rw [hvars]
  exact Term.isReplacement.list

theorem Atom.isReplacement : IsReplacement Atom.vars Atom.bind where
  bind_var := bind_var_eq_self
  bind_bind := bind_bind
  bind_eq_iff _ _ _ := ⟨eq_of_bind_eq, bind_congr⟩

theorem Rule.isReplacement : IsReplacement Rule.vars Rule.bind where
  bind_var := bind_var_eq_self
  bind_bind := bind_bind
  bind_eq_iff _ _ _ := ⟨eq_of_bind_eq, bind_congr⟩

theorem Program.isReplacement : IsReplacement Program.vars Program.bind where
  bind_var p := congrArg mk (Rule.isReplacement.list.bind_var p.rules)
  bind_bind f g p := congrArg mk (Rule.isReplacement.list.bind_bind f g p.rules)
  bind_eq_iff f g p := by
    rw [bind, bind, mk.injEq]
    exact Rule.isReplacement.list.bind_eq_iff f g p.rules

namespace Substitution

/-! ## The action -/

/-- Whether a way to apply substitutions is an action of their composition: nothing happens without
bindings, and a composition does one thing after the other. -/
structure Acts {α : Type} (apply : Substitution → α → α) : Prop where
  /-- Without bindings nothing is replaced. -/
  apply_empty : ∀ x, apply .empty x = x
  /-- The inner substitution of a composition comes first. -/
  apply_compose : ∀ s t x, apply (s.compose t) x = apply s (apply t x)

/-- Replacement along a substitution is an action. -/
theorem Acts.of_isReplacement {α : Type} {vars : α → List Var} {bind : (Var → Term) → α → α}
    (h : IsReplacement vars bind) : Acts fun s a => bind s.lookup a where
  apply_empty a := by
    have hlookup : empty.lookup = Term.var := funext lookup_empty
    rw [hlookup, h.bind_var]
  apply_compose s t a := by
    have hlookup : (s.compose t).lookup = fun x => (t.lookup x).bind s.lookup :=
      funext (lookup_compose s t)
    rw [hlookup, h.bind_bind]

theorem acts_applyTerm : Acts applyTerm := .of_isReplacement Term.isReplacement

theorem acts_applyAtom : Acts applyAtom := .of_isReplacement Atom.isReplacement

theorem acts_applyRule : Acts applyRule := .of_isReplacement Rule.isReplacement

theorem acts_applyProgram : Acts applyProgram := .of_isReplacement Program.isReplacement

/-! ## The monoid -/

/-- A composition binds what one of the two binds, to itself or not. -/
theorem mem_domain_compose (s t : Substitution) (x : Var) :
    x ∈ (s.compose t).domain ↔ x ∈ s.domain ∨ x ∈ t.domain := by
  simp only [mem_domain, binds, get?_compose, Option.isSome_or, Option.isSome_map, Bool.or_eq_true]
  exact Or.comm

theorem empty_compose (s : Substitution) : empty.compose s = s := by
  ext1 x
  have hempty : empty.applyTerm = id := funext acts_applyTerm.apply_empty
  rw [get?_compose, hempty, Option.map_id, get?_empty, Option.or_none, id]

theorem compose_empty (s : Substitution) : s.compose empty = s := by
  ext1 x
  rw [get?_compose, get?_empty, Option.map_none, Option.none_or]

theorem compose_assoc (a b c : Substitution) :
    (a.compose b).compose c = a.compose (b.compose c) := by
  ext1 x
  rw [get?_compose, get?_compose, get?_compose, get?_compose]
  cases hc : c.get? x with
  | some t =>
    rw [Option.map_some, Option.some_or, Option.map_some, Option.some_or, Option.map_some,
      Option.some_or, acts_applyTerm.apply_compose]
  | none =>
    rw [Option.map_none, Option.none_or, Option.map_none, Option.none_or]

/-- **Substitutions form a monoid that acts on terms, atoms, rules and programs.**  Composition is
associative and the substitution without bindings is its unit on both sides, as finite maps; the
domain of a composition is the union of the domains; and to apply a composition is to apply the
inner substitution and then the outer one. -/
theorem compose_monoid :
    (∀ a b c : Substitution, (a.compose b).compose c = a.compose (b.compose c)) ∧
      (∀ a : Substitution, empty.compose a = a ∧ a.compose empty = a) ∧
      (∀ (a b : Substitution) (x : Var),
        x ∈ (a.compose b).domain ↔ x ∈ a.domain ∨ x ∈ b.domain) ∧
      Acts applyTerm ∧ Acts applyAtom ∧ Acts applyRule ∧ Acts applyProgram :=
  ⟨compose_assoc, fun a => ⟨empty_compose a, compose_empty a⟩, mem_domain_compose,
    acts_applyTerm, acts_applyAtom, acts_applyRule, acts_applyProgram⟩

/-- A binding of a variable to itself is kept. -/
example : ((singleton ⟨"x"⟩ (.var ⟨"y"⟩)).compose (singleton ⟨"y"⟩ (.var ⟨"x"⟩))).toList =
    [(⟨"x"⟩, .var ⟨"y"⟩), (⟨"y"⟩, .var ⟨"y"⟩)] := by
  decide

end Substitution

end OntoQuery
