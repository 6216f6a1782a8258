import OntoQuery.Distinct
import OntoQuery.Program

/-!
# Dependencies between predicates

A rule makes its head predicate depend on the predicates of its body, built-in
ones apart.  The dependencies of a set of rules form a directed graph.

* `DependencyGraph.reach` collects what can be reached from given predicates by
  visiting one predicate after another; it ends because each visit leaves one
  predicate less to be visited.
* `DependencyGraph.cycles` lists the recursive components that can be reached.  A
  component is the set of all predicates that depend on a predicate and that it
  depends on, and it is recursive if that predicate depends on itself.
-/

namespace OntoQuery

/-- A directed graph of predicates. -/
structure DependencyGraph where
  /-- The predicates that occur. -/
  nodes : List Symbol := []
  /-- Which predicate directly depends on which. -/
  edges : List (Symbol × Symbol) := []
  deriving DecidableEq, Repr

namespace DependencyGraph

/-- The graph without predicates. -/
instance : Inhabited DependencyGraph := ⟨{}⟩

/-- Adds an entry to a list unless it is there. -/
def insertNew {α : Type} [DecidableEq α] (a : α) (l : List α) : List α :=
  if a ∈ l then l else l ++ [a]

/-- Adds a dependency. -/
def addEdge (g : DependencyGraph) (p q : Symbol) : DependencyGraph where
  nodes := insertNew q g.nodes
  edges := insertNew (p, q) g.edges

/-- Adds the dependencies of a rule.  A rule without a head has none. -/
def addRule (g : DependencyGraph) (r : Rule) : DependencyGraph :=
  match r.headPredicate? with
  | none => g
  | some p =>
    ((r.bodyAtoms.filter fun a => !a.isBuiltin).map Atom.predicate).foldl (fun g q => g.addEdge p q)
      { g with nodes := insertNew p g.nodes }

/-- The dependencies of a list of rules. -/
def ofRules (rs : List Rule) : DependencyGraph := rs.foldl addRule {}

/-- The predicates that a predicate directly depends on. -/
def successors (g : DependencyGraph) (p : Symbol) : List Symbol :=
  (g.edges.filter fun e => e.1 = p).map Prod.snd

/-- The predicates that have not been visited. -/
def unvisited (g : DependencyGraph) (visited : List Symbol) : List Symbol :=
  g.nodes.filter fun q => q ∉ visited

theorem length_unvisited_cons_lt {g : DependencyGraph} {visited : List Symbol} {p : Symbol}
    (hp : p ∈ g.nodes) (hv : p ∉ visited) :
    (g.unvisited (p :: visited)).length < (g.unvisited visited).length := by
  unfold unvisited
  generalize g.nodes = nodes at hp
  induction nodes with
  | nil => simp at hp
  | cons q nodes ih =>
    have hle : (nodes.filter fun q => q ∉ p :: visited).length ≤
        (nodes.filter fun q => q ∉ visited).length := by
      rw [← List.countP_eq_length_filter, ← List.countP_eq_length_filter]
      exact List.countP_mono_left fun x _ hx => by simp_all
    by_cases hq : q = p
    · subst hq
      simp only [List.filter_cons, List.mem_cons, true_or, not_true_eq_false, decide_false, hv,
        not_false_eq_true, decide_true, if_true, List.length_cons]
      simp only [List.mem_cons] at hle
      exact Nat.lt_succ_of_le (by simpa using hle)
    · have := ih (by simpa [Ne.symm hq] using hp)
      by_cases hqv : q ∈ visited <;> simp_all

/-- Visits the predicates of the first list and all that can be reached from
them; the second list holds those that have been visited. -/
def visit (g : DependencyGraph) : List Symbol → List Symbol → List Symbol
  | [], visited => visited
  | p :: pending, visited =>
    if _h : p ∈ g.nodes ∧ p ∉ visited then
      g.visit (g.successors p ++ pending) (p :: visited)
    else
      g.visit pending visited
termination_by pending visited => ((g.unvisited visited).length, pending.length)
decreasing_by
  · exact Prod.Lex.left _ _ (length_unvisited_cons_lt _h.1 _h.2)
  · exact Prod.Lex.right _ (Nat.lt_succ_self _)

/-- The predicates that can be reached from those of a list that are in the
graph, themselves included. -/
def reach (g : DependencyGraph) (ps : List Symbol) : List Symbol := g.visit ps []

/-- Sorts predicates. -/
def sort (ps : List Symbol) : List Symbol := ps.mergeSort fun p q => (p.compare q).isLE

/-- The predicates that can be reached, in order. -/
def reachable (g : DependencyGraph) (ps : List Symbol) : List Symbol := sort (g.reach ps)

/-- Whether a predicate depends on itself. -/
def isRecursive (g : DependencyGraph) (p : Symbol) : Bool := p ∈ g.reach (g.successors p)

/-- The graph with all dependencies turned around. -/
def reverse (g : DependencyGraph) : DependencyGraph := { g with edges := g.edges.map Prod.swap }

/-- The predicates that depend on a predicate and that it depends on, in order. -/
def component (g : DependencyGraph) (p : Symbol) : List Symbol :=
  let dependents := g.reverse.reach [p]
  sort ((g.reach [p]).filter fun q => q ∈ dependents)

/-- The recursive components that can be reached, each in order, and in the order
of their first predicates. -/
def cycles (g : DependencyGraph) (ps : List Symbol) : List (List Symbol) :=
  (((g.reachable ps).filter g.isRecursive).map g.component).eraseDups

end DependencyGraph

end OntoQuery
