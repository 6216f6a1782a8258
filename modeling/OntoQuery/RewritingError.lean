import OntoQuery.Program

/-!
# Errors of rewriting and unfolding

Rewriting stops with an error when a bound is hit, when definitions are
recursive, or when there is nothing to rewrite.  The first two may carry the
rules that were found before.
-/

namespace OntoQuery

/-- What is bounded. -/
inductive Bound where
  /-- The number of resolution steps applied to one rule. -/
  | depth
  /-- The number of rules. -/
  | rules
  deriving DecidableEq, Inhabited, Repr

namespace Bound

/-- The word for what is bounded. -/
def text : Bound → String
  | depth => "depth"
  | rules => "rule count"

end Bound

/-- Why rewriting or unfolding stopped. -/
inductive RewritingError where
  /-- A bound was hit. -/
  | boundExceeded (bound : Bound) (limit : Nat) (found : Option Program)
  /-- The definitions of these predicates are recursive. -/
  | cycleDetected (predicates : List Symbol) (found : Option Program)
  /-- No rule of the query has a head of this name. -/
  | targetNotDefined (name : String)
  deriving DecidableEq, Inhabited, Repr

namespace RewritingError

/-- The number of an error. -/
def code : RewritingError → Nat
  | boundExceeded .. => 301
  | cycleDetected .. => 302
  | targetNotDefined _ => 303

/-- Advice on how to avoid an error. -/
def note? : RewritingError → Option String
  | boundExceeded .. => some "the bounds can be raised in the rewriting parameters"
  | cycleDetected .. => some "recursive mappings cannot be unfolded into a finite query"
  | targetNotDefined _ => none

/-- The text of an error. -/
def message : RewritingError → String
  | boundExceeded bound limit _ =>
    "rewriting exceeded the " ++ bound.text ++ " bound of " ++ toString limit
  | cycleDetected predicates _ =>
    "recursive definitions reachable from the query: " ++
      String.intercalate ", " (predicates.map fun p => "`" ++ p.text ++ "`")
  | targetNotDefined name => "query does not define predicate `" ++ name ++ "`"

/-- The rules that were found before the error, if they were kept. -/
def found? : RewritingError → Option Program
  | boundExceeded _ _ found => found
  | cycleDetected _ found => found
  | targetNotDefined _ => none

/-- The program that a computation hands out: its result, or what its error carries. -/
def program? : Except RewritingError Program → Option Program
  | .ok p => some p
  | .error e => e.found?

end RewritingError

end OntoQuery
