import OntoQuery.Substitution

/-!
# Injective renamings

A renaming is a finite map from variables to variables that sends distinct
variables of its domain to distinct variables.  The condition is part of the
type, so every renaming can be inverted.

* `Renaming.ofList` checks the condition and reports a collision otherwise.
* `Renaming.inverse` swaps the two sides; `getElem?_inverse` says what it maps.
* `Renaming.conjugate` renames both sides of the bindings of a substitution.
-/

namespace OntoQuery

/-- A finite injective map from variables to variables. -/
structure Renaming where
  /-- The variable that each variable of the domain is renamed to. -/
  targets : VarMap Var
  /-- Distinct variables are renamed to distinct variables. -/
  injective : ∀ {x y z : Var}, targets[x]? = some z → targets[y]? = some z → x = y
  deriving DecidableEq

namespace Renaming

@[ext] theorem ext {m n : Renaming} (h : ∀ x : Var, m.targets[x]? = n.targets[x]?) : m = n := by
  obtain ⟨m, hm⟩ := m
  obtain ⟨n, hn⟩ := n
  congr 1
  exact Std.ExtTreeMap.ext_getElem? h

/-- Two variables of a list of pairs that share their second component, and that
component. -/
def collision? (pairs : List (Var × Var)) : Option (Var × Var × Var) :=
  pairs.findSome? fun p =>
    (pairs.find? fun q => p.1 ≠ q.1 ∧ p.2 = q.2).map fun q => (p.1, q.1, p.2)

theorem collision?_eq_none {pairs : List (Var × Var)} :
    collision? pairs = none ↔ ∀ x y z, (x, z) ∈ pairs → (y, z) ∈ pairs → x = y := by
  simp only [collision?, List.findSome?_eq_none_iff, Option.map_eq_none_iff, List.find?_eq_none,
    decide_eq_true_eq, not_and, Prod.forall]
  constructor
  · intro h x y z hx hy
    exact Classical.byContradiction fun hne => h x z hx y z hy hne rfl
  · rintro h x z hx y _ hy hne rfl
    exact hne (h x y z hx hy)

/-- A collision is between two pairs of the list. -/
theorem mem_of_collision?_eq_some {pairs : List (Var × Var)} {x y z : Var}
    (h : collision? pairs = some (x, y, z)) : (x, z) ∈ pairs ∧ (y, z) ∈ pairs ∧ x ≠ y := by
  obtain ⟨p, hp, hmap⟩ := List.exists_of_findSome?_eq_some h
  obtain ⟨q, hq, he⟩ := Option.map_eq_some_iff.mp hmap
  obtain ⟨hne, htarget⟩ : p.1 ≠ q.1 ∧ p.2 = q.2 := by
    simpa using List.find?_some hq
  cases he
  refine ⟨hp, ?_, hne⟩
  rw [htarget]
  exact List.mem_of_find?_eq_some hq

/-- The renaming with the given pairs, of which later ones replace earlier ones.
It is an error if two variables are renamed to one. -/
def ofList (pairs : List (Var × Var)) : Except ModelError Renaming :=
  let targets := VarMap.ofList pairs
  match h : collision? targets.toList with
  | some (x, y, z) => .error (.illegalSubstitution x y z)
  | none => .ok
    { targets := targets
      injective := fun hx hy =>
        collision?_eq_none.mp h _ _ _ (VarMap.mem_toList.mpr hx) (VarMap.mem_toList.mpr hy) }

/-- The pairs of a renaming, sorted by the renamed variable. -/
def toList (m : Renaming) : List (Var × Var) := m.targets.toList

/-- The renamed variables, sorted. -/
def domain (m : Renaming) : List Var := m.toList.map Prod.fst

/-- The new names, in the order of the variables that get them. -/
def image (m : Renaming) : List Var := m.toList.map Prod.snd

/-- The number of renamed variables. -/
def size (m : Renaming) : Nat := m.targets.size

/-- Whether no variable is renamed. -/
def isEmpty (m : Renaming) : Bool := m.targets.isEmpty

/-- The new name of a variable, which is the old one outside the domain. -/
def applyVar (m : Renaming) (x : Var) : Var := m.targets[x]?.getD x

/-- Renames the variables of a term. -/
def applyTerm (m : Renaming) (t : Term) : Term := t.bind fun x => .var (m.applyVar x)

/-- Renames the variables of an atom. -/
def applyAtom (m : Renaming) (a : Atom) : Atom := a.bind fun x => .var (m.applyVar x)

/-- Renames the variables of a rule. -/
def applyRule (m : Renaming) (r : Rule) : Rule := r.bind fun x => .var (m.applyVar x)

/-- Renames the variables of a program. -/
def applyProgram (m : Renaming) (p : Program) : Program := p.bind fun x => .var (m.applyVar x)

/-- A renaming is a substitution by variables. -/
def toSubstitution (m : Renaming) : Substitution := ⟨m.targets.map fun _ y => .var y⟩

/-- A renaming is written like the substitution that it is. -/
def text (m : Renaming) : String := m.toSubstitution.text

theorem mem_domain {m : Renaming} {x : Var} : x ∈ m.domain ↔ ∃ z, m.targets[x]? = some z := by
  simp only [domain, toList, List.mem_map, Prod.exists, VarMap.mem_toList, exists_and_right,
    exists_eq_right]

theorem mem_image {m : Renaming} {z : Var} : z ∈ m.image ↔ ∃ x : Var, m.targets[x]? = some z := by
  simp only [image, toList, List.mem_map, Prod.exists, VarMap.mem_toList, exists_eq_right]

theorem applyVar_of_getElem? {m : Renaming} {x z : Var} (h : m.targets[x]? = some z) :
    m.applyVar x = z := by
  rw [applyVar, h, Option.getD_some]

/-- A variable outside the domain keeps its name. -/
theorem applyVar_of_notMem_domain {m : Renaming} {x : Var} (h : x ∉ m.domain) :
    m.applyVar x = x := by
  rw [mem_domain, ← Option.isSome_iff_exists, Option.not_isSome_iff_eq_none] at h
  rw [applyVar, h, Option.getD_none]

theorem applyVar_of_isEmpty {m : Renaming} (h : m.isEmpty) (x : Var) : m.applyVar x = x := by
  rw [applyVar, Std.ExtTreeMap.isEmpty_iff.mp h, Std.ExtTreeMap.getElem?_empty, Option.getD_none]

theorem get?_toSubstitution (m : Renaming) (x : Var) :
    m.toSubstitution.get? x = m.targets[x]?.map Term.var := by
  simp [toSubstitution, Substitution.get?, Std.ExtTreeMap.getElem?_map]

/-! ## The inverse -/

/-- The pairs of a renaming, read from right to left. -/
def swapped (m : Renaming) : List (Var × Var) := m.toList.map Prod.swap

theorem mem_swapped {m : Renaming} {x z : Var} :
    (z, x) ∈ m.swapped ↔ m.targets[x]? = some z := by
  rw [← VarMap.mem_toList, swapped, List.mem_map]
  constructor
  · rintro ⟨p, hp, he⟩
    have hp' : p = (x, z) := by rw [← Prod.swap_swap p, he]; rfl
    rwa [hp'] at hp
  · exact fun h => ⟨(x, z), h, rfl⟩

theorem getElem?_swapped {m : Renaming} {x z : Var} :
    (VarMap.ofList m.swapped)[z]? = some x ↔ m.targets[x]? = some z := by
  rw [← mem_swapped]
  constructor
  · exact VarMap.mem_of_getElem?_ofList
  · intro h
    exact VarMap.getElem?_ofList_of_mem h fun y hy =>
      m.injective (mem_swapped.mp hy) (mem_swapped.mp h)

/-- The renaming that undoes a renaming. -/
def inverse (m : Renaming) : Renaming where
  targets := VarMap.ofList m.swapped
  injective := fun hx hy => by
    rw [getElem?_swapped] at hx hy
    exact Option.some.inj (hx.symm.trans hy)

theorem getElem?_inverse {m : Renaming} {x z : Var} :
    m.inverse.targets[z]? = some x ↔ m.targets[x]? = some z :=
  getElem?_swapped

theorem mem_domain_inverse {m : Renaming} {x : Var} : x ∈ m.inverse.domain ↔ x ∈ m.image := by
  simp only [mem_domain, mem_image, getElem?_inverse]

/-! ## Renaming a substitution -/

/-- Renames the bound variables and the images of a substitution, which is left as
it is if nothing is renamed.  It is an error if two bound variables become one. -/
def conjugate (m : Renaming) (s : Substitution) : Except ModelError Substitution :=
  if m.isEmpty then .ok s
  else
    match collision? (s.domain.map fun x => (x, m.applyVar x)) with
    | some (x, y, z) => .error (.illegalSubstitution x y z)
    | none => .ok (.ofList (s.toList.map fun p => (m.applyVar p.1, m.applyTerm p.2)))

end Renaming

end OntoQuery
