import OntoQuery.VarMap
import OntoQuery.Program

/-!
# Substitutions

A substitution is a finite map from variables to terms.  Two substitutions are
equal exactly when they bind the same variables to the same terms
(`Substitution.ext`); an identity binding `x ↦ x` counts, so `{?x/?x}` is not the
empty substitution.

`Substitution.lookup` reads a substitution as a total function, and applying it
to a term, an atom, a rule or a program is replacement along that function.

* `get?_ofList`: of several bindings of one variable the last one counts.
* `get?_compose`: what `s.compose t` binds, which is what first `t` and then `s`
  does.
* `get?_restrict`: a restriction keeps the bindings of the given variables.
-/

namespace OntoQuery

/-- A finite map from variables to terms. -/
structure Substitution where
  /-- The term that each variable of the domain is bound to. -/
  bindings : VarMap Term
  deriving DecidableEq

namespace Substitution

/-- The term that a variable is bound to. -/
def get? (s : Substitution) (x : Var) : Option Term := s.bindings[x]?

@[ext] theorem ext {s t : Substitution} (h : ∀ x, s.get? x = t.get? x) : s = t := by
  obtain ⟨s⟩ := s
  obtain ⟨t⟩ := t
  congr 1
  exact Std.ExtTreeMap.ext_getElem? h

/-- The substitution without bindings. -/
def empty : Substitution := ⟨∅⟩

instance : Inhabited Substitution := ⟨empty⟩

/-- Binds a variable, replacing an earlier binding of it. -/
def insert (s : Substitution) (x : Var) (t : Term) : Substitution := ⟨s.bindings.insert x t⟩

/-- The substitution with one binding. -/
def singleton (x : Var) (t : Term) : Substitution := empty.insert x t

/-- The substitution with the given bindings, of which later ones replace
earlier ones. -/
def ofList (pairs : List (Var × Term)) : Substitution := ⟨VarMap.ofList pairs⟩

/-- The bindings, sorted by variable. -/
def toList (s : Substitution) : List (Var × Term) := s.bindings.toList

/-- The number of bound variables. -/
def size (s : Substitution) : Nat := s.bindings.size

/-- Whether no variable is bound. -/
def isEmpty (s : Substitution) : Bool := s.bindings.isEmpty

/-- The bound variables, sorted. -/
def domain (s : Substitution) : List Var := s.toList.map Prod.fst

/-- The variables of the images, with repetition, in the order of the bindings. -/
def rangeVars (s : Substitution) : List Var := s.toList.flatMap fun p => p.2.vars

/-- Whether a variable is bound. -/
def binds (s : Substitution) (x : Var) : Bool := (s.get? x).isSome

/-- The substitution as a total function: a variable that is not bound stands for
itself. -/
def lookup (s : Substitution) (x : Var) : Term := (s.get? x).getD (.var x)

/-- Applies a substitution to a term. -/
def applyTerm (s : Substitution) (t : Term) : Term := t.bind s.lookup

/-- Applies a substitution to an atom. -/
def applyAtom (s : Substitution) (a : Atom) : Atom := a.bind s.lookup

/-- Applies a substitution to a rule. -/
def applyRule (s : Substitution) (r : Rule) : Rule := r.bind s.lookup

/-- Applies a substitution to a program. -/
def applyProgram (s : Substitution) (p : Program) : Program := p.bind s.lookup

/-- The substitution that first applies `t` and then `s`. -/
def compose (s t : Substitution) : Substitution :=
  ⟨s.bindings ∪ t.bindings.map fun _ u => s.applyTerm u⟩

/-- The bindings of the given variables. -/
def restrict (s : Substitution) (xs : List Var) : Substitution :=
  ⟨s.bindings.filter fun x _ => x ∈ xs⟩

/-- The written form of a substitution. -/
def text (s : Substitution) : String :=
  "\x7b" ++ String.intercalate ", " (s.toList.map fun p => p.1.text ++ "/" ++ p.2.text) ++ "\x7d"

/-! ## What the operations bind -/

@[simp] theorem get?_empty (x : Var) : empty.get? x = none := by
  simp [get?, empty]

@[simp] theorem lookup_empty (x : Var) : empty.lookup x = .var x := by
  rw [lookup, get?_empty, Option.getD_none]

theorem get?_insert (s : Substitution) (x y : Var) (t : Term) :
    (s.insert x t).get? y = if x = y then some t else s.get? y := by
  simp [get?, insert, Std.ExtTreeMap.getElem?_insert]

theorem get?_singleton (x y : Var) (t : Term) :
    (singleton x t).get? y = if x = y then some t else none := by
  simp [singleton, get?_insert]

/-- The last binding of a variable counts. -/
theorem get?_ofList (pairs : List (Var × Term)) (x : Var) :
    (ofList pairs).get? x = (pairs.reverse.find? fun p => p.1 = x).map Prod.snd :=
  VarMap.getElem?_ofList pairs x

theorem mem_toList {s : Substitution} {x : Var} {t : Term} :
    (x, t) ∈ s.toList ↔ s.get? x = some t := by
  exact VarMap.mem_toList

theorem mem_domain {s : Substitution} {x : Var} : x ∈ s.domain ↔ s.binds x := by
  simp only [domain, List.mem_map, Prod.exists, mem_toList, binds, Option.isSome_iff_exists,
    exists_and_right, exists_eq_right]

theorem get?_eq_none_iff {s : Substitution} {x : Var} : s.get? x = none ↔ x ∉ s.domain := by
  rw [mem_domain, binds, Option.not_isSome_iff_eq_none]

theorem exists_get?_iff {s : Substitution} {x : Var} : (∃ t, s.get? x = some t) ↔ x ∈ s.domain := by
  rw [mem_domain, binds, Option.isSome_iff_exists]

/-- A variable that is not bound stands for itself. -/
theorem lookup_of_notMem_domain {s : Substitution} {x : Var} (h : x ∉ s.domain) :
    s.lookup x = .var x := by
  rw [lookup, get?_eq_none_iff.mpr h, Option.getD_none]

theorem domain_eq_keys (s : Substitution) : s.domain = s.bindings.keys :=
  Std.ExtTreeMap.map_fst_toList_eq_keys

theorem nodup_domain (s : Substitution) : s.domain.Nodup := by
  rw [domain_eq_keys]
  exact Std.ExtTreeMap.nodup_keys

theorem length_domain (s : Substitution) : s.domain.length = s.size := by
  rw [domain_eq_keys]
  exact Std.ExtTreeMap.length_keys

theorem get?_compose (s t : Substitution) (x : Var) :
    (s.compose t).get? x = ((t.get? x).map s.applyTerm).or (s.get? x) := by
  simp [compose, get?, Std.ExtTreeMap.getElem?_union, Std.ExtTreeMap.getElem?_map]

theorem get?_restrict (s : Substitution) (xs : List Var) (x : Var) :
    (s.restrict xs).get? x = if x ∈ xs then s.get? x else none := by
  simp only [restrict, get?, Std.ExtTreeMap.getElem?_filter']
  cases s.bindings[x]? <;> by_cases h : x ∈ xs <;> simp [h]

theorem lookup_compose (s t : Substitution) (x : Var) :
    (s.compose t).lookup x = s.applyTerm (t.lookup x) := by
  simp only [lookup, get?_compose]
  cases h : t.get? x with
  | some u => simp
  | none => simp [applyTerm, lookup]

end Substitution

end OntoQuery
