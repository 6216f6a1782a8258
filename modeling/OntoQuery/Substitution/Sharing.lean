import OntoQuery.Substitution

/-!
# Application that keeps what does not change

`Substitution.applyTerm` copies the whole term.  `Substitution.rebuild?` copies
only where a bound variable occurs: it answers `none` when the term contains no
variable of the domain, and then the term itself is the result.

A list of terms is gone through from left to right.  As long as no term has
changed there is no copy of the list.  The first term that changes starts one,
with the terms before it as they are, and from then on every term is added to the
copy, changed or not (`addToCopy`).

Whether a term is rebuilt depends on the domain alone, so a term is rebuilt under
an identity binding too.
-/

namespace OntoQuery

/-- Takes the term `t` at position `i` of a list into the copy of the list that
has been made so far, if there is one.  The term has become `t'?`, where `none` is
no change; a first change starts the copy. -/
def Term.addToCopy (ts : List Term) (i : Nat) (copy? : Option (List Term)) (t : Term)
    (t'? : Option Term) : Option (List Term) :=
  match copy?, t'? with
  | some copy, t'? => some (copy ++ [t'?.getD t])
  | none, some t' => some (ts.take i ++ [t'])
  | none, none => none

namespace Substitution

mutual

/-- The term with all bound variables replaced, or `none` if it has none. -/
def rebuild? (s : Substitution) (t : Term) : Option Term :=
  if s.isEmpty then none
  else
    match t with
    | .var x => s.get? x
    | .iri _ => none
    | .value _ => none
    | .app f args => (rebuildFrom s args 0 none args).map (Term.app f)

/-- Goes through the rest of the list `ts` from position `i` on, with the copy
that has been made so far. -/
def rebuildFrom (s : Substitution) (ts : List Term) (i : Nat) (copy? : Option (List Term)) :
    List Term → Option (List Term)
  | [] => copy?
  | t :: rest => rebuildFrom s ts (i + 1) (Term.addToCopy ts i copy? t (rebuild? s t)) rest

end

/-- The list of terms with all bound variables replaced, or `none` if there are
none in it. -/
def rebuildList? (s : Substitution) (ts : List Term) : Option (List Term) :=
  rebuildFrom s ts 0 none ts

/-- The atom with all bound variables replaced, or `none` if it has none. -/
def rebuildAtom? (s : Substitution) (a : Atom) : Option Atom :=
  if s.isEmpty then none
  else
    match a with
    | .plain p ts => (s.rebuildList? ts).map (Atom.plain p)
    | .wildcard _ => none

end Substitution

end OntoQuery
