import OntoQuery.Term

/-!
# Errors of the rule model

These are raised where a term, an atom, a renaming or a rule is built or checked.
Each error has a numeric code, a message, and sometimes a note with advice.
-/

namespace OntoQuery

/-- What can be wrong with a component of a rule. -/
inductive ModelError where
  /-- A symbol was given the wrong number of arguments. -/
  | arityMismatch (kind : ComponentKind) (symbol : String) (expected found : Nat)
  /-- A renaming maps two variables to one. -/
  | illegalSubstitution (first second target : Var)
  /-- A head variable does not occur in the body. -/
  | unsafeHeadVariable (x : Var)
  /-- A fact contains a variable. -/
  | factNonGround (x : Var)
  deriving DecidableEq, Inhabited, Repr

namespace ModelError

/-- The number of an error. -/
def code : ModelError → Nat
  | arityMismatch .. => 101
  | illegalSubstitution .. => 102
  | unsafeHeadVariable _ => 103
  | factNonGround _ => 104

/-- Advice on how to avoid an error. -/
def note? : ModelError → Option String
  | arityMismatch .. => none
  | illegalSubstitution .. =>
    some "a renaming must map distinct variables to distinct variables"
  | unsafeHeadVariable _ => some "every variable in the head must occur in some body atom"
  | factNonGround _ => none

/-- The text of an error. -/
def message : ModelError → String
  | arityMismatch kind symbol expected found =>
    kind.text ++ " `" ++ symbol ++ "` expects " ++ toString expected ++ " arguments but " ++
      toString found ++ " were given"
  | illegalSubstitution first second target =>
    "renaming is not injective: `" ++ first.text ++ "` and `" ++ second.text ++
      "` are both mapped to `" ++ target.text ++ "`"
  | unsafeHeadVariable x => "unsafe variable used in rule head: `" ++ x.text ++ "`"
  | factNonGround x => "non-ground term used in fact: `" ++ x.text ++ "`"

end ModelError

/-- Applies a function symbol to arguments, whose number must be its arity. -/
def Term.ofSymbol (f : Symbol) (args : List Term) : Except ModelError Term :=
  if args.length = f.arity then
    .ok (.app f.name args)
  else
    .error (.arityMismatch .function f.name f.arity args.length)

end OntoQuery
