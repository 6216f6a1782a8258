import OntoQuery.FreshVars
import OntoQuery.Unification

/-!
# Resolution and canonical forms

A resolution step replaces one body atom of a rule by the body of a definition
whose head unifies with the atom.  The definition is renamed apart before, with
variables from a supply, so that the two rules share no variable.

Two rules that differ in the names of their variables only are *variants*.  The
canonical form of a rule numbers its variables in the order of their first
occurrence, head first, and so is the same for all variants.
-/

namespace OntoQuery

namespace Rule

/-- The rule with the body atom at position `i` replaced by the body of the
definition `d`, after unification of that atom with the head of `d`.  There is no
such rule if there is no such atom, or if the two do not unify.  The supply loses
the variables by which `d` is renamed apart in either case. -/
def resolve (r : Rule) (i : Nat) (d : Rule) (g : FreshVars) : Option Rule × FreshVars :=
  match r.bodyAtoms[i]? with
  | none => (none, g)
  | some atom =>
    let (m, g') := g.renamingFor d.vars
    let d' := m.applyRule d
    let resolvent := d'.head.bind fun head =>
      (unifyAtoms head atom).map fun u =>
        u.applyRule
          { head := r.head
            body := some (r.bodyAtoms.take i ++ d'.bodyAtoms ++ r.bodyAtoms.drop (i + 1)) }
    (resolvent, g')

/-- The resolvents of a rule at position `i` with those of a list of definitions
that unify, in order. -/
def resolveAll (r : Rule) (i : Nat) : List Rule → FreshVars → List Rule × FreshVars
  | [], g => ([], g)
  | d :: ds, g =>
    let (resolvent, g') := r.resolve i d g
    let (resolvents, g'') := r.resolveAll i ds g'
    (resolvent.toList ++ resolvents, g'')

/-- The rule with its variables numbered in the order of their first
occurrence. -/
def canonical (r : Rule) : Rule :=
  let xs := r.distinctVars
  r.bind fun x => .var ⟨"_c" ++ toString (xs.idxOf x)⟩

end Rule

end OntoQuery
