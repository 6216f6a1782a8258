import OntoQuery.Rule

/-!
# Programs

A program is a sequence of rules.  The order of the rules carries no meaning for
evaluation, but it is kept, so that what is computed from a program is
reproducible.
-/

namespace OntoQuery

/-- An ordered sequence of rules. -/
structure Program where
  /-- The rules, in order. -/
  rules : List Rule
  deriving DecidableEq, Inhabited, Repr

namespace Program

/-- The number of rules. -/
def size (p : Program) : Nat := p.rules.length

/-- Whether the program has no rules. -/
def isEmpty (p : Program) : Bool := p.rules.isEmpty

/-- Adds a rule at the end. -/
def push (p : Program) (r : Rule) : Program := ⟨p.rules ++ [r]⟩

/-- Adds rules at the end. -/
def append (p : Program) (rs : List Rule) : Program := ⟨p.rules ++ rs⟩

/-- Puts a rule in the place of the one at position `i` and returns the old one.
If there is none, the program stays as it is. -/
def replace (p : Program) (i : Nat) (r : Rule) : Option Rule × Program :=
  (p.rules[i]?, ⟨p.rules.set i r⟩)

/-- Takes out the rule at position `i`, if there is one. -/
def remove (p : Program) (i : Nat) : Option Rule × Program :=
  (p.rules[i]?, ⟨p.rules.eraseIdx i⟩)

/-- Keeps the rules that satisfy a test. -/
def filter (p : Program) (keep : Rule → Bool) : Program := ⟨p.rules.filter keep⟩

/-- The rules whose head has the given predicate. -/
def rulesWithHead (p : Program) (s : Symbol) : List Rule :=
  p.rules.filter fun r => r.headPredicate? = some s

/-- The distinct head predicates, in the order of their first occurrence. -/
def headPredicates (p : Program) : List Symbol :=
  (p.rules.filterMap Rule.headPredicate?).eraseDups

/-- The variables of all rules, with repetition. -/
def vars (p : Program) : List Var := p.rules.flatMap Rule.vars

/-- Checks every rule and reports the first error. -/
def validate (p : Program) : Except ModelError Unit := p.rules.forM Rule.validate

/-- Replaces every variable `x` by `f x`. -/
def bind (f : Var → Term) (p : Program) : Program := ⟨p.rules.map (Rule.bind f)⟩

/-- The written form of a program, one rule a line. -/
def text (p : Program) : String := String.join (p.rules.map fun r => r.text ++ "\n")

end Program

end OntoQuery
