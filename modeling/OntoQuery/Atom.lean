import OntoQuery.ModelError

/-!
# Atoms

An atom is a predicate applied to terms.  The head of a rule may also be the
*wildcard* atom `p(*)`, which stands for "`p` of all variables of the body".  A
wildcard has no terms, so it counts as an atom of arity zero, but it differs
from the ordinary atom `p()`.

Replacing variables in an atom keeps its predicate (`Atom.predicate_bind`), and
whether it is a wildcard (`Atom.isWildcard_bind`).
-/

namespace OntoQuery

/-- A predicate applied to terms, or to all variables of a rule body. -/
inductive Atom where
  /-- The atom `name(args)`. -/
  | plain (name : String) (args : List Term)
  /-- The atom `name(*)`. -/
  | wildcard (name : String)
  deriving DecidableEq, Inhabited, Repr

namespace Atom

/-- Applies a predicate to terms, whose number must be its arity. -/
def ofSymbol (p : Symbol) (args : List Term) : Except ModelError Atom :=
  if args.length = p.arity then
    .ok (.plain p.name args)
  else
    .error (.arityMismatch .atom p.name p.arity args.length)

/-- The name of the predicate. -/
def name : Atom → String
  | plain n _ => n
  | wildcard n => n

/-- The terms of an atom; a wildcard has none. -/
def args : Atom → List Term
  | plain _ ts => ts
  | wildcard _ => []

/-- Whether the atom is a wildcard. -/
def isWildcard : Atom → Bool
  | plain _ _ => false
  | wildcard _ => true

/-- The number of terms. -/
def arity (a : Atom) : Nat := a.args.length

/-- The predicate of an atom. -/
def predicate (a : Atom) : Symbol := ⟨a.name, a.arity⟩

/-- Whether the predicate is built in. -/
def isBuiltin (a : Atom) : Bool := a.predicate.isBuiltin

/-- The variables of an atom, from left to right and with repetition. -/
def vars (a : Atom) : List Var := Term.varsList a.args

/-- Whether no variable occurs in the atom. -/
def isGround (a : Atom) : Bool := a.vars.isEmpty

/-- The written form of an atom. -/
def text : Atom → String
  | plain n ts => n ++ "(" ++ String.intercalate ", " (ts.map Term.text) ++ ")"
  | wildcard n => n ++ "(*)"

/-- Atoms are ordered by predicate, then by terms; a wildcard follows the
ordinary atom without terms. -/
def compare (a b : Atom) : Ordering :=
  (Ord.compare a.predicate b.predicate).then <|
    (Term.compareList a.args b.args).then <|
      match a.isWildcard, b.isWildcard with
      | false, true => .lt
      | true, false => .gt
      | _, _ => .eq

instance : Ord Atom := ⟨Atom.compare⟩

/-- Replaces every variable `x` by `f x`. -/
def bind (f : Var → Term) : Atom → Atom
  | plain n ts => plain n (ts.map (Term.bind f))
  | wildcard n => wildcard n

@[simp] theorem bind_plain (f : Var → Term) (n : String) (ts : List Term) :
    (plain n ts).bind f = plain n (ts.map (Term.bind f)) := rfl

@[simp] theorem bind_wildcard (f : Var → Term) (n : String) :
    (wildcard n).bind f = wildcard n := rfl

@[simp] theorem args_bind (f : Var → Term) (a : Atom) :
    (a.bind f).args = a.args.map (Term.bind f) := by
  cases a <;> rfl

@[simp] theorem predicate_bind (f : Var → Term) (a : Atom) :
    (a.bind f).predicate = a.predicate := by
  cases a <;> simp [predicate, arity, bind, name, args]

@[simp] theorem isBuiltin_bind (f : Var → Term) (a : Atom) :
    (a.bind f).isBuiltin = a.isBuiltin := by
  simp [isBuiltin]

@[simp] theorem isWildcard_bind (f : Var → Term) (a : Atom) :
    (a.bind f).isWildcard = a.isWildcard := by
  cases a <;> rfl

/-- An atom is its predicate and its terms, apart from the difference between
`p(*)` and `p()`. -/
theorem eq_iff {a b : Atom} :
    a = b ↔ a.predicate = b.predicate ∧ a.args = b.args ∧ a.isWildcard = b.isWildcard := by
  refine ⟨fun h => h ▸ ⟨rfl, rfl, rfl⟩, fun ⟨hp, hargs, hw⟩ => ?_⟩
  have hn : a.name = b.name := congrArg Symbol.name hp
  cases a <;> cases b <;> simp_all [name, args, isWildcard]

/-- Replacement depends only on the variables that occur. -/
theorem bind_congr {f g : Var → Term} {a : Atom} (h : ∀ x ∈ a.vars, f x = g x) :
    a.bind f = a.bind g := by
  cases a with
  | plain n ts =>
    simp only [bind_plain, plain.injEq, true_and]
    exact List.map_congr_left fun t ht =>
      Term.bind_congr fun x hx => h x (Term.mem_varsList.mpr ⟨t, ht, hx⟩)
  | wildcard n => rfl

/-- Two replacements in a row are one. -/
theorem bind_bind (f g : Var → Term) (a : Atom) :
    (a.bind f).bind g = a.bind fun x => (f x).bind g := by
  cases a with
  | plain n ts => simp [Term.bind_bind]
  | wildcard n => rfl

end Atom

end OntoQuery
