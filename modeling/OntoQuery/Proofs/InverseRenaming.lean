import OntoQuery.Proofs.Composition
import OntoQuery.Renaming

/-!
# Undoing a renaming

The domain and the image of a renaming may overlap, as in a swap or in a chain `?x ↦ ?y ↦ ?z`.  The
inverse swaps them, and it takes each new name back to the variable that got it.

A variable that is not renamed keeps its name, and then there are two cases.  If no variable is
renamed to it, the inverse leaves it alone.  But if it is the new name of another variable, the two
cannot be told apart after the renaming, and the inverse takes it to the other one.  So exactly the
variables of the image outside the domain are not restored (`inverse_applyVar_eq_self_iff`), and a
term, an atom or a rule is restored exactly if it has none of them.

* `ofList_cases`: a list of pairs makes a renaming, or there are two variables whose last pairs have
  one target, which the error names.
* `inverse_inverse`: the inverse of the inverse.
* `undo_eq_self_iff`: what is restored, for all kinds of replacement at once.
* `inverse_undoes`: all of it.
-/

namespace OntoQuery

namespace Renaming

/-! ## Which pairs make a renaming -/

/-- The target in the last pair of a variable. -/
def lastTarget? (pairs : List (Var × Var)) (x : Var) : Option Var :=
  (pairs.reverse.find? fun p => p.1 = x).map Prod.snd

/-- Either the last pairs of two variables have one target, and the error names them and the target,
or the last pairs make a renaming. -/
theorem ofList_cases (pairs : List (Var × Var)) :
    (∃ x y z, x ≠ y ∧ lastTarget? pairs x = some z ∧ lastTarget? pairs y = some z ∧
        ofList pairs = .error (.illegalSubstitution x y z)) ∨
      ∃ m, ofList pairs = .ok m ∧ ∀ x : Var, m.targets[x]? = lastTarget? pairs x := by
  rw [ofList]
  split
  next x y z hc =>
    obtain ⟨hx, hy, hne⟩ := mem_of_collision?_eq_some hc
    rw [VarMap.mem_toList, VarMap.getElem?_ofList] at hx hy
    exact Or.inl ⟨x, y, z, hne, hx, hy, rfl⟩
  next => exact Or.inr ⟨_, rfl, VarMap.getElem?_ofList pairs⟩

/-- A renaming that is made from pairs takes each variable to the target of its last pair. -/
theorem getElem?_of_ofList {pairs : List (Var × Var)} {m : Renaming} (h : ofList pairs = .ok m)
    (x : Var) : m.targets[x]? = lastTarget? pairs x := by
  rcases ofList_cases pairs with ⟨_, _, _, -, -, -, herror⟩ | ⟨n, hn, htargets⟩
  · exact absurd (h.symm.trans herror) (by simp)
  · obtain rfl := Except.ok.inj (h.symm.trans hn)
    exact htargets x

/-- Pairs make a renaming exactly if the last pairs of distinct variables have distinct targets. -/
theorem exists_ofList_eq_ok_iff {pairs : List (Var × Var)} :
    (∃ m, ofList pairs = .ok m) ↔
      ∀ x y z, lastTarget? pairs x = some z → lastTarget? pairs y = some z → x = y := by
  constructor
  · rintro ⟨m, hm⟩ x y z hx hy
    rw [← getElem?_of_ofList hm] at hx hy
    exact m.injective hx hy
  · intro h
    rcases ofList_cases pairs with ⟨x, y, z, hne, hx, hy, -⟩ | ⟨m, hm, -⟩
    · exact absurd (h x y z hx hy) hne
    · exact ⟨m, hm⟩

/-! ## The inverse -/

theorem inverse_inverse (m : Renaming) : m.inverse.inverse = m := by
  ext1 x
  refine Option.ext fun z => ?_
  rw [getElem?_inverse, getElem?_inverse]

/-- A variable gets its name back unless it is the new name of another one and kept its own. -/
theorem inverse_applyVar_eq_self_iff (m : Renaming) (x : Var) :
    m.inverse.applyVar (m.applyVar x) = x ↔ ¬ (x ∈ m.image ∧ x ∉ m.domain) := by
  by_cases hdom : x ∈ m.domain
  · obtain ⟨z, hz⟩ := mem_domain.mp hdom
    rw [applyVar_of_getElem? hz, applyVar_of_getElem? (getElem?_inverse.mpr hz)]
    exact iff_of_true rfl fun h => h.2 hdom
  · rw [applyVar_of_notMem_domain hdom]
    by_cases himg : x ∈ m.image
    · obtain ⟨y, hy⟩ := mem_image.mp himg
      rw [applyVar_of_getElem? (getElem?_inverse.mpr hy)]
      refine iff_of_false ?_ fun h => h ⟨himg, hdom⟩
      rintro rfl
      exact hdom (mem_domain.mpr ⟨y, hy⟩)
    · rw [applyVar_of_notMem_domain (mt mem_domain_inverse.mp himg)]
      exact iff_of_true rfl fun h => himg h.1

/-- What is restored by the inverse is what has no variable of the image outside the domain. -/
theorem undo_eq_self_iff {α : Type} {vars : α → List Var} {bind : (Var → Term) → α → α}
    (h : IsReplacement vars bind) (m : Renaming) (a : α) :
    bind (fun x => .var (m.inverse.applyVar x)) (bind (fun x => .var (m.applyVar x)) a) = a ↔
      ∀ x ∈ vars a, ¬ (x ∈ m.image ∧ x ∉ m.domain) := by
  rw [h.bind_bind, h.bind_eq_self_iff]
  refine forall₂_congr fun x _ => ?_
  rw [Term.bind_var, Term.var.injEq, inverse_applyVar_eq_self_iff]

/-- **The inverse undoes a renaming** where that is possible.  Pairs of variables make a renaming
exactly if the last pairs of distinct variables have distinct targets, and then each variable is
renamed to the target of its last pair.  The inverse of the inverse of a renaming is the renaming,
and the inverse takes a renamed term, atom or rule back exactly if no variable of it lies in the
image of the renaming but outside its domain. -/
theorem inverse_undoes (pairs : List (Var × Var)) :
    ((∃ m, ofList pairs = .ok m) ↔
        ∀ x y z, lastTarget? pairs x = some z → lastTarget? pairs y = some z → x = y) ∧
      ∀ m, ofList pairs = .ok m →
        (∀ x : Var, m.targets[x]? = lastTarget? pairs x) ∧
        m.inverse.inverse = m ∧
        (∀ t : Term, m.inverse.applyTerm (m.applyTerm t) = t ↔
          ∀ x ∈ t.vars, ¬ (x ∈ m.image ∧ x ∉ m.domain)) ∧
        (∀ a : Atom, m.inverse.applyAtom (m.applyAtom a) = a ↔
          ∀ x ∈ a.vars, ¬ (x ∈ m.image ∧ x ∉ m.domain)) ∧
        (∀ r : Rule, m.inverse.applyRule (m.applyRule r) = r ↔
          ∀ x ∈ r.vars, ¬ (x ∈ m.image ∧ x ∉ m.domain)) :=
  ⟨exists_ofList_eq_ok_iff, fun m hm =>
    ⟨getElem?_of_ofList hm, m.inverse_inverse, undo_eq_self_iff Term.isReplacement m,
      undo_eq_self_iff Atom.isReplacement m, undo_eq_self_iff Rule.isReplacement m⟩⟩

/-- In the chain `?x ↦ ?y ↦ ?z`, of which `?x` had another target first, the variables that are
renamed are restored, and `?z` is not. -/
theorem inverse_undoes_chain :
    ∃ m, ofList [(⟨"x"⟩, ⟨"z"⟩), (⟨"y"⟩, ⟨"z"⟩), (⟨"x"⟩, ⟨"y"⟩)] = .ok m ∧
      m.inverse.applyTerm (m.applyTerm (.app "f" [.var ⟨"x"⟩, .var ⟨"y"⟩])) =
        .app "f" [.var ⟨"x"⟩, .var ⟨"y"⟩] ∧
      m.inverse.applyTerm (m.applyTerm (.var ⟨"z"⟩)) ≠ .var ⟨"z"⟩ := by
  obtain ⟨m, hm⟩ : ∃ m, ofList [(⟨"x"⟩, ⟨"z"⟩), (⟨"y"⟩, ⟨"z"⟩), (⟨"x"⟩, ⟨"y"⟩)] = .ok m :=
    ⟨_, rfl⟩
  obtain ⟨-, -, hterm, -⟩ := (inverse_undoes _).2 m hm
  obtain ⟨himage, hdomain⟩ : m.image = [⟨"y"⟩, ⟨"z"⟩] ∧ m.domain = [⟨"x"⟩, ⟨"y"⟩] := by
    obtain rfl := Except.ok.inj hm
    decide
  refine ⟨m, hm, (hterm _).mpr ?_, fun h => (hterm _).mp h ⟨"z"⟩ ?_ ?_⟩
  · rw [himage, hdomain]
    decide
  · decide
  · rw [himage, hdomain]
    decide

end Renaming

end OntoQuery
