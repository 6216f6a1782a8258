import OntoQuery.Json

/-!
# Settings

The settings bound how far rules are rewritten and unfolded and say what happens
when a bound is hit.

Settings are stored as a JSON object with one field for each of them
(`Settings.text`).  When they are read, missing fields have their default values
and unknown fields are ignored, but a field that is present must have the right
type: a count is a number without fraction and exponent below 2⁶⁴.  An array is
read as the values of the fields in their order.
-/

namespace OntoQuery

/-- What to do when definitions are recursive or a bound is hit. -/
inductive CyclePolicy where
  /-- Give up and report the error alone. -/
  | abort
  /-- Go on up to the bounds and report the error with the rules found so far. -/
  | keepPartial
  deriving DecidableEq, Inhabited, Repr

namespace CyclePolicy

/-- The name of a policy. -/
def name : CyclePolicy → String
  | abort => "abort"
  | keepPartial => "partial"

/-- The policy of a name. -/
def ofName? : String → Option CyclePolicy
  | "abort" => some abort
  | "partial" => some keepPartial
  | _ => none

/-- Reads a policy: its name, or an object whose only field has that name and no
content. -/
def ofJson? : Json → Option CyclePolicy
  | .string s => ofName? s
  | .object [(s, .null)] => ofName? s
  | _ => none

end CyclePolicy

/-- The settings of rewriting, unfolding and plan optimization. -/
structure Settings where
  /-- The greatest number of resolution steps applied to one rule. -/
  maxDepth : Nat := 32
  /-- The greatest number of rules produced by one rewriting or unfolding. -/
  maxRules : Nat := 10000
  /-- What the names of generated variables start with. -/
  freshStem : String := "v"
  /-- The reaction to recursive definitions and exceeded bounds. -/
  cyclePolicy : CyclePolicy := .abort
  /-- Whether plans are optimized. -/
  optimizePlan : Bool := true
  /-- The greatest number of changes that optimization makes to one plan. -/
  maxOptimizationSteps : Nat := 1000
  deriving DecidableEq, Repr

namespace Settings

/-- The default settings. -/
instance : Inhabited Settings := ⟨{}⟩

/-- The settings as a JSON object. -/
def toJson (s : Settings) : Json :=
  .object
    [("max_depth", .nat s.maxDepth),
     ("max_rules", .nat s.maxRules),
     ("fresh_prefix", .string s.freshStem),
     ("cycle_policy", .string s.cyclePolicy.name),
     ("optimize_plan", .bool s.optimizePlan),
     ("max_optimization_steps", .nat s.maxOptimizationSteps)]

/-- The stored form of settings. -/
def text (s : Settings) : String := s.toJson.text

/-- Reads a count. -/
def count? : Json → Option Nat
  | .number digits =>
    match digits.toList with
    | [] => none
    | ds =>
      if ds.all Char.isDigit then
        let n := Nat.ofDigitChars 10 ds 0
        if n < UInt64.size then some n else none
      else
        none
  | _ => none

/-- Reads a text. -/
def string? : Json → Option String
  | .string s => some s
  | _ => none

/-- Reads a truth value. -/
def bool? : Json → Option Bool
  | .bool b => some b
  | _ => none

/-- Reads one value, with a default for a missing one. -/
def valueOr {α : Type} (default : α) (read : Json → Option α) : Option Json → Option α
  | none => some default
  | some v => read v

/-- Reads settings from their values, any of which may be missing. -/
def ofValues? (maxDepth maxRules freshStem cyclePolicy optimizePlan maxSteps : Option Json) :
    Option Settings := do
  let dflt : Settings := {}
  let maxDepth ← valueOr dflt.maxDepth count? maxDepth
  let maxRules ← valueOr dflt.maxRules count? maxRules
  let freshStem ← valueOr dflt.freshStem string? freshStem
  let cyclePolicy ← valueOr dflt.cyclePolicy CyclePolicy.ofJson? cyclePolicy
  let optimizePlan ← valueOr dflt.optimizePlan bool? optimizePlan
  let maxSteps ← valueOr dflt.maxOptimizationSteps count? maxSteps
  some
    { maxDepth := maxDepth
      maxRules := maxRules
      freshStem := freshStem
      cyclePolicy := cyclePolicy
      optimizePlan := optimizePlan
      maxOptimizationSteps := maxSteps }

/-- Reads settings from an object or an array. -/
def ofJson? (v : Json) : Option Settings :=
  match v with
  | .object _ =>
    ofValues? (v.field? "max_depth") (v.field? "max_rules") (v.field? "fresh_prefix")
      (v.field? "cycle_policy") (v.field? "optimize_plan") (v.field? "max_optimization_steps")
  | .array items =>
    if items.length ≤ 6 then
      ofValues? items[0]? items[1]? items[2]? items[3]? items[4]? items[5]?
    else
      none
  | _ => none

end Settings

end OntoQuery
