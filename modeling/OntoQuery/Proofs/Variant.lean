import Mathlib.Data.List.Basic
import Mathlib.Data.Set.Function
import Mathlib.Tactic.Choose
import OntoQuery.Distinct
import OntoQuery.Proofs.Order
import OntoQuery.Proofs.Resolvent
import OntoQuery.RuleSet

/-!
# Variants

Two rules are *variants* if renaming the variables of one, without identifying any, gives the other.
Variants have one canonical form and the same instances, so nothing is lost when they are kept once.

* `isVariant_of_bind`: rules that are instances of each other are variants.  A replacement that can
  be undone puts variables in the place of variables.
* `canonical_eq_iff`: the variants of a rule are the rules with its canonical form, so canonical
  forms decide whether a bijection between their variables makes two rules equal
  (`canonical_decides`).
* `IsVariant.resolve`: variants have variants as resolvents with variants of a definition, whatever
  variables these are renamed to.
* `hasInstance_iff_of_canonical_eq`: variants do not differ in their instances.
* `RuleSet.Records`: a set that answers like a list of rules in which variants count as one.
-/

namespace OntoQuery

/-! ## Replacements that agree -/

namespace Term

/-- Two replacements that give the same term agree on its variables. -/
theorem eq_of_bind_eq {f g : Var → Term} {t : Term} (h : t.bind f = t.bind g) :
    ∀ x ∈ t.vars, f x = g x := by
  induction t using ind with
  | var y =>
    intro x hx
    rw [vars_var, List.mem_singleton] at hx
    rw [hx]
    exact h
  | iri i => simp
  | value l => simp
  | app n args ih =>
    intro x hx
    rw [vars_app, mem_varsList] at hx
    obtain ⟨t, ht, hxt⟩ := hx
    rw [bind_app, bind_app, app.injEq] at h
    exact ih t ht (List.map_inj_left.mp h.2 t ht) x hxt

theorem vars_rename (name : Var → Var) (t : Term) :
    (t.bind fun x => .var (name x)).vars = t.vars.map name := by
  induction t using ind with
  | var x => simp
  | iri i => simp
  | value l => simp
  | app n args ih =>
    rw [bind_app, vars_app, vars_app, varsList_eq_flatMap, varsList_eq_flatMap, List.flatMap_map,
      List.map_flatMap]
    exact List.flatMap_congr fun t ht => ih t ht

end Term

namespace Atom

theorem eq_of_bind_eq {f g : Var → Term} {a : Atom} (h : a.bind f = a.bind g) :
    ∀ x ∈ a.vars, f x = g x := by
  have hargs := congrArg args h
  rw [args_bind, args_bind] at hargs
  intro x hx
  obtain ⟨t, ht, hxt⟩ := Term.mem_varsList.mp hx
  exact Term.eq_of_bind_eq (List.map_inj_left.mp hargs t ht) x hxt

theorem vars_rename (name : Var → Var) (a : Atom) :
    (a.bind fun x => .var (name x)).vars = a.vars.map name := by
  rw [vars, vars, args_bind, Term.varsList_eq_flatMap, Term.varsList_eq_flatMap, List.flatMap_map,
    List.map_flatMap]
  exact List.flatMap_congr fun t _ => t.vars_rename name

/-- Replacing each variable by itself changes nothing. -/
@[simp] theorem bind_var_eq_self (a : Atom) : a.bind Term.var = a := by
  cases a with
  | plain n ts =>
    have hts : ts.map (Term.bind Term.var) = ts.map id :=
      List.map_congr_left fun t _ => t.bind_var_eq_self
    rw [bind_plain, hts, List.map_id]
  | wildcard n => rfl

end Atom

namespace Rule

theorem eq_of_bind_eq {f g : Var → Term} {r : Rule} (h : r.bind f = r.bind g) :
    ∀ x ∈ r.vars, f x = g x := by
  intro x hx
  obtain ⟨a, ha, hxa⟩ := mem_vars.mp hx
  rcases ha with ha | ha
  · have hhead : r.head.map (Atom.bind f) = r.head.map (Atom.bind g) := congrArg head h
    rw [ha, Option.map_some, Option.map_some, Option.some_inj] at hhead
    exact Atom.eq_of_bind_eq hhead x hxa
  · have hbody := congrArg bodyAtoms h
    rw [bodyAtoms_bind, bodyAtoms_bind] at hbody
    exact Atom.eq_of_bind_eq (List.map_inj_left.mp hbody a ha) x hxa

theorem bodyVars_rename (name : Var → Var) (r : Rule) :
    (r.bind fun x => .var (name x)).bodyVars = r.bodyVars.map name := by
  rw [bodyVars, bodyVars, bodyAtoms_bind, List.flatMap_map, List.map_flatMap]
  exact List.flatMap_congr fun a _ => a.vars_rename name

theorem vars_rename (name : Var → Var) (r : Rule) :
    (r.bind fun x => .var (name x)).vars = r.vars.map name := by
  have hhead : (r.bind fun x => .var (name x)).headVars = r.headVars.map name := by
    rw [headVars, headVars, bind]
    cases r.head with
    | none => rfl
    | some a => exact a.vars_rename name
  rw [vars, vars, List.map_append, hhead, bodyVars_rename]

/-- Replacing each variable by itself changes nothing. -/
@[simp] theorem bind_var_eq_self (r : Rule) : r.bind Term.var = r := by
  obtain ⟨head, body⟩ := r
  have hatoms : ∀ as : List Atom, as.map (Atom.bind Term.var) = as := fun as =>
    (List.map_congr_left fun a _ => a.bind_var_eq_self).trans (List.map_id as)
  cases head <;> cases body <;> simp [bind, hatoms]

/-! ## Variants -/

/-- Whether renaming the variables of the first rule, without identifying any, gives the second. -/
def IsVariant (r s : Rule) : Prop :=
  ∃ name : Var → Var, (∀ x ∈ r.vars, ∀ y ∈ r.vars, name x = name y → x = y) ∧
    (r.bind fun x => .var (name x)) = s

variable {r s t : Rule}

/-- Rules that are instances of each other are variants. -/
theorem isVariant_of_bind {f g : Var → Term} (hf : r.bind f = s) (hg : s.bind g = r) :
    r.IsVariant s := by
  -- what can be undone is the replacement by a variable
  have hback : ∀ x ∈ r.vars, (f x).bind g = .var x := by
    refine eq_of_bind_eq (f := fun x => (f x).bind g) ?_
    rw [← bind_bind, hf, hg, bind_var_eq_self]
  have hvar : ∀ x ∈ r.vars, ∃ y, f x = .var y := by
    intro x hx
    have hxg := hback x hx
    cases hfx : f x with
    | var y => exact ⟨y, rfl⟩
    | iri i => simp [hfx] at hxg
    | value l => simp [hfx] at hxg
    | app n args => simp [hfx] at hxg
  choose! name hname using hvar
  refine ⟨name, fun x hx y hy he => ?_, ?_⟩
  · have hxy := hback x hx
    rw [hname x hx, he, ← hname y hy, hback y hy] at hxy
    exact (Term.var.inj hxy).symm
  · rw [← hf]
    exact bind_congr fun x hx => (hname x hx).symm

/-- A variant can be renamed back. -/
theorem IsVariant.exists_bind_eq (h : r.IsVariant s) : ∃ g, s.bind g = r := by
  obtain ⟨name, hname, rfl⟩ := h
  refine ⟨joint name r.vars .var .var, ?_⟩
  rw [bind_bind]
  exact (bind_congr fun x hx => joint_name _ _ hname hx).trans r.bind_var_eq_self

theorem IsVariant.refl (r : Rule) : r.IsVariant r :=
  ⟨id, fun _ _ _ _ h => h, r.bind_var_eq_self⟩

theorem IsVariant.symm (h : r.IsVariant s) : s.IsVariant r := by
  obtain ⟨g, hg⟩ := h.exists_bind_eq
  obtain ⟨name, -, hs⟩ := h
  exact isVariant_of_bind hg hs

theorem IsVariant.trans (h : r.IsVariant s) (h' : s.IsVariant t) : r.IsVariant t := by
  obtain ⟨g, hg⟩ := h.exists_bind_eq
  obtain ⟨g', hg'⟩ := h'.exists_bind_eq
  obtain ⟨name, -, hs⟩ := h
  obtain ⟨name', -, ht⟩ := h'
  refine isVariant_of_bind (f := fun x => (Term.var (name x)).bind fun y => .var (name' y))
    (g := fun x => (g' x).bind g) ?_ ?_
  · rw [← bind_bind, hs, ht]
  · rw [← bind_bind, hg', hg]

/-- Variants are rules for the same predicate. -/
theorem IsVariant.headPredicate?_eq (h : r.IsVariant s) : s.headPredicate? = r.headPredicate? := by
  obtain ⟨name, -, rfl⟩ := h
  exact headPredicate?_bind _ r

/-! ## Canonical forms -/

theorem canonicalName_inj {xs : List Var} {x y : Var} (hx : x ∈ xs)
    (h : (⟨"_c" ++ toString (xs.idxOf x)⟩ : Var) = ⟨"_c" ++ toString (xs.idxOf y)⟩) : x = y := by
  -- canonical names are the candidates of a supply with the stem `c`
  have hidx : xs.idxOf x = xs.idxOf y := FreshVars.candidate_inj (g := { stem := "c" }) h
  exact (List.idxOf_inj hx).mp hidx

/-- A rule is a variant of its canonical form. -/
theorem isVariant_canonical (r : Rule) : r.IsVariant r.canonical :=
  ⟨_, fun _ hx _ _ h => canonicalName_inj (List.mem_eraseDups.mpr hx) h, rfl⟩

/-- Variants have one canonical form. -/
theorem IsVariant.canonical_eq (h : r.IsVariant s) : r.canonical = s.canonical := by
  obtain ⟨name, hname, rfl⟩ := h
  have hvars : (r.bind fun x => .var (name x)).distinctVars = r.distinctVars.map name := by
    rw [distinctVars, vars_rename, eraseDups_map hname, distinctVars]
  simp only [canonical]
  rw [hvars, bind_bind]
  refine bind_congr fun x hx => ?_
  have hmem : x ∈ r.distinctVars := List.mem_eraseDups.mpr hx
  rw [Term.bind_var, idxOf_map _ hmem]
  intro y hy z hz
  exact hname y (List.mem_eraseDups.mp hy) z (List.mem_eraseDups.mp hz)

/-- The variants of a rule are the rules with its canonical form. -/
theorem canonical_eq_iff : r.canonical = s.canonical ↔ r.IsVariant s := by
  refine ⟨fun h => ?_, IsVariant.canonical_eq⟩
  have hr := r.isVariant_canonical
  rw [h] at hr
  exact hr.trans s.isVariant_canonical.symm

instance (r s : Rule) : Decidable (r.IsVariant s) := decidable_of_iff _ canonical_eq_iff

/-- Renaming a rule without identifying variables takes its variables one to one to those of the
variant, of which none is left out. -/
theorem isVariant_iff_bijOn :
    r.IsVariant s ↔ ∃ name : Var → Var, Set.BijOn name {x | x ∈ r.vars} {y | y ∈ s.vars} ∧
      (r.bind fun x => .var (name x)) = s := by
  constructor
  · rintro ⟨name, hname, rfl⟩
    have hvars : ∀ y, y ∈ (r.bind fun x => .var (name x)).vars ↔ ∃ x ∈ r.vars, name x = y := by
      intro y
      rw [vars_rename, List.mem_map]
    exact ⟨name, ⟨fun x hx => (hvars _).mpr ⟨x, hx, rfl⟩, fun x hx y hy => hname x hx y hy,
      fun y hy => (hvars y).mp hy⟩, rfl⟩
  · rintro ⟨name, hbij, hs⟩
    exact ⟨name, fun x hx y hy => hbij.injOn hx hy, hs⟩

/-- **Canonical forms decide equality up to renaming**: two rules have one canonical form exactly if
a bijection from the variables of the first onto those of the second turns the first into the
second.  The canonical form of a rule is its own canonical form. -/
theorem canonical_decides (r s : Rule) :
    (r.canonical = s.canonical ↔
      ∃ name : Var → Var, Set.BijOn name {x | x ∈ r.vars} {y | y ∈ s.vars} ∧
        (r.bind fun x => .var (name x)) = s) ∧
      r.canonical.canonical = r.canonical :=
  ⟨canonical_eq_iff.trans isVariant_iff_bijOn, r.isVariant_canonical.canonical_eq.symm⟩

/-- The canonical names are given out at once, also where they occur in the rule. -/
example : canonical ⟨some (.plain "p" [.var ⟨"_c1"⟩]),
      some [.plain "q" [.app "f" [.var ⟨"_c0"⟩], .var ⟨"_c1"⟩]]⟩ =
    ⟨some (.plain "p" [.var ⟨"_c0"⟩]),
      some [.plain "q" [.app "f" [.var ⟨"_c1"⟩], .var ⟨"_c0"⟩]]⟩ := by
  decide

/-- Variants have the same instances. -/
theorem hasInstance_iff_of_canonical_eq (h : r.canonical = s.canonical)
    {head : Option Atom} {body : List Atom} :
    r.HasInstance head body ↔ s.HasInstance head body := by
  have hvariant := canonical_eq_iff.mp h
  obtain ⟨g, hg⟩ := hvariant.exists_bind_eq
  obtain ⟨name, -, hs⟩ := hvariant
  constructor
  · rw [← hg]
    exact HasInstance.of_bind
  · rw [← hs]
    exact HasInstance.of_bind

/-! ## Resolvents of variants -/

/-- The resolvents of variants with variants of a definition are variants, or there is none in
either case. -/
theorem IsVariant.resolve (h : r.IsVariant s) (i : Nat) {d e : Rule} (hd : d.IsVariant e)
    {g g' : FreshVars} (hg : g.Avoids r.vars) (hg' : g'.Avoids s.vars) :
    Option.Rel IsVariant (r.resolve i d g).1 (s.resolve i e g').1 := by
  obtain ⟨back, hback⟩ := h.exists_bind_eq
  obtain ⟨name, -, hname⟩ := h
  obtain ⟨dback, hdback⟩ := hd.exists_bind_eq
  obtain ⟨dname, -, hdname⟩ := hd
  -- each resolvent is an instance of the other
  have hright : ∀ s', (s.resolve i e g').1 = some s' →
      ∃ r' f, (r.resolve i d g).1 = some r' ∧ r'.bind f = s' := fun s' hs' =>
    resolve_bind hg (hname ▸ hdname ▸ hs')
  have hleft : ∀ r', (r.resolve i d g).1 = some r' →
      ∃ s' f, (s.resolve i e g').1 = some s' ∧ s'.bind f = r' := fun r' hr' =>
    resolve_bind hg' (hback ▸ hdback ▸ hr')
  cases hr' : (r.resolve i d g).1 with
  | none =>
    cases hs' : (s.resolve i e g').1 with
    | none => exact .none
    | some s' =>
      obtain ⟨r', -, he, -⟩ := hright s' hs'
      exact absurd (hr'.symm.trans he) (by simp)
  | some r' =>
    obtain ⟨s', f', hs', hf'⟩ := hleft r' hr'
    obtain ⟨r'', f, hr'', hf⟩ := hright s' hs'
    obtain rfl : r' = r'' := Option.some.inj (hr'.symm.trans hr'')
    rw [hs']
    exact .some (isVariant_of_bind hf hf')

theorem IsVariant.exists_resolve (h : r.IsVariant s) {i : Nat} {d e r' : Rule} (hd : d.IsVariant e)
    {g g' : FreshVars} (hg : g.Avoids r.vars) (hg' : g'.Avoids s.vars)
    (hr' : (r.resolve i d g).1 = some r') :
    ∃ s', (s.resolve i e g').1 = some s' ∧ r'.IsVariant s' := by
  have hrel := h.resolve i hd hg hg'
  rw [hr'] at hrel
  generalize (s.resolve i e g').1 = o at hrel
  cases hrel with
  | some hv => exact ⟨_, rfl, hv⟩

end Rule

namespace RuleSet

/-- Whether a set contains the variants of the rules of a list, and nothing else. -/
def Records (s : RuleSet) (rules : List Rule) : Prop :=
  ∀ r, s.contains r = true ↔ ∃ r' ∈ rules, r'.canonical = r.canonical

theorem records_nil : Records {} [] := by
  intro r
  rw [contains, Std.TreeSet.contains_emptyc]
  simp

/-- After a rule has been added, its variants are there as well. -/
theorem contains_insert {s : RuleSet} {r r' : Rule} :
    (s.insert r).contains r' = true ↔ r.IsVariant r' ∨ s.contains r' = true := by
  rw [contains, RuleSet.insert, Std.TreeSet.contains_insert, Bool.or_eq_true, beq_iff_eq,
    Std.LawfulEqCmp.compare_eq_iff_eq, Rule.canonical_eq_iff]
  exact Iff.rfl

theorem Records.insert {s : RuleSet} {rules : List Rule} (h : s.Records rules) (r : Rule) :
    (s.insert r).Records (rules ++ [r]) := by
  intro r'
  rw [contains_insert, h r', ← Rule.canonical_eq_iff]
  simp only [List.mem_append, List.mem_singleton]
  constructor
  · rintro (he | ⟨r'', hr'', he⟩)
    · exact ⟨r, Or.inr rfl, he⟩
    · exact ⟨r'', Or.inl hr'', he⟩
  · rintro ⟨r'', hr'' | rfl, he⟩
    · exact Or.inr ⟨r'', hr'', he⟩
    · exact Or.inl he

end RuleSet

end OntoQuery
