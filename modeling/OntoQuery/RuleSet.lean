import Std.Data.TreeSet
import OntoQuery.Resolution

/-!
# Sets of rules up to variable names

A set of rules that does not tell variants apart: it stores canonical forms, in
the order of rules.
-/

namespace OntoQuery

/-- A set of rules in which variants count as one. -/
structure RuleSet where
  /-- The canonical forms of the members. -/
  forms : Std.TreeSet Rule := ∅

namespace RuleSet

/-- The set without rules. -/
instance : Inhabited RuleSet := ⟨{}⟩

/-- Whether the set has a variant of a rule. -/
def contains (s : RuleSet) (r : Rule) : Bool := s.forms.contains r.canonical

/-- Adds a rule and all its variants. -/
def insert (s : RuleSet) (r : Rule) : RuleSet := ⟨s.forms.insert r.canonical⟩

end RuleSet

end OntoQuery
