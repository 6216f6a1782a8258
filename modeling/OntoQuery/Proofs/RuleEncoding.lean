import OntoQuery.Proofs.ReachablePlan
import OntoQuery.Proofs.RulePlans

/-!
# Rules can be read off their plan

The plan of a list of rules says no more and no less than the rules.  Each rule has a projection of
its own below the union at the root, and from the operators that are found when one goes through the
nodes from there, the head, the data atoms and the conditions of the rule come back, in their order.

Which lists have a plan is decided rule by rule, in the order of the list.

* `Rule.Plannable`, `Rule.Refused`: what a rule needs, and the errors of the rules that lack it.
  Each rule has a tree or is refused (`Plan.exists_ruleTree_iff`, `Plan.ruleTree_eq_error`).
* `Plan.exists_ruleTrees_iff`, `Plan.ruleTrees_eq_error`: of a list all rules have to be plannable,
  and the first one that is not is to blame.
* `Rule.Encodes`: what the operators below the projection of a rule have to do with its body.
  `Plan.operators_bodyTree` lists these operators, and `Rule.encodes_bodyOperators` reads them.
* `PlanStore.ofRules_encodes`: all of this of plans in arenas.
-/

namespace OntoQuery

/-! ## Rules that have a plan -/

namespace Rule

/-- Whether a rule has a plan below a union of an arity: it needs a head without wildcard, of that
arity, and something to be looked up. -/
structure Plannable (arity : Nat) (r : Rule) : Prop where
  /-- The head is no wildcard and has the arity. -/
  head : ∃ head, r.head = some head ∧ head.isWildcard = false ∧ head.arity = arity
  /-- Some body atom is not built in. -/
  data : ∃ a ∈ r.bodyAtoms, a.isBuiltin = false

/-- Why a rule has no plan below a union of an arity.  What comes first in this list is looked at
first. -/
inductive Refused (arity : Nat) (r : Rule) : PlanError → Prop where
  /-- There is no head. -/
  | noHead (h : r.head = none) : Refused arity r (.unsupportedRule r)
  /-- The head is a wildcard. -/
  | wildcard {head : Atom} (h : r.head = some head) (hw : head.isWildcard = true) :
      Refused arity r (.unsupportedRule r)
  /-- The head has another arity. -/
  | arity {head : Atom} (h : r.head = some head) (hw : head.isWildcard = false)
      (hne : head.arity ≠ arity) : Refused arity r (.unionArityMismatch arity head.arity)
  /-- All body atoms are built in. -/
  | noData {head : Atom} (h : r.head = some head) (hw : head.isWildcard = false)
      (harity : head.arity = arity) (hb : ∀ a ∈ r.bodyAtoms, a.isBuiltin = true) :
      Refused arity r (.unsupportedRule r)

/-- The arity of the head of the first rule, where there is one. -/
def firstArity (rs : List Rule) : Nat := (rs.head?.bind Rule.head).elim 0 Atom.arity

end Rule

namespace Plan

variable {arity i : Nat} {r : Rule} {rs : List Rule} {e : PlanError}

/-- A rule is planned, or refused for the first reason that applies. -/
theorem ruleTree_cases (arity i : Nat) (r : Rule) :
    (r.Plannable arity ∧ ∃ t, ruleTree arity i r = .ok t) ∨
      ∃ e, r.Refused arity e ∧ ruleTree arity i r = .error e := by
  unfold ruleTree
  cases hr : r.head with
  | none => exact Or.inr ⟨_, .noHead hr, rfl⟩
  | some head =>
    cases head with
    | wildcard name => exact Or.inr ⟨_, .wildcard hr rfl, rfl⟩
    | plain name args =>
      by_cases harity : (Atom.plain name args).arity = arity
      · simp only [harity, ne_eq, not_true_eq_false, if_false, List.partition_eq_filter_filter]
        by_cases hdata : r.bodyAtoms.filter (not ∘ Atom.isBuiltin) = []
        · refine Or.inr ⟨_, .noData hr rfl harity fun a ha => ?_, if_pos (by rw [hdata]; rfl)⟩
          simpa using List.filter_eq_nil_iff.mp hdata a ha
        · obtain ⟨a, ha⟩ := List.exists_mem_of_ne_nil _ hdata
          obtain ⟨ha, hb⟩ := List.mem_filter.mp ha
          exact Or.inl ⟨⟨⟨_, hr, rfl, harity⟩, a, ha, by simpa using hb⟩, _,
            if_neg (by simpa using hdata)⟩
      · exact Or.inr ⟨_, .arity hr rfl harity, if_pos harity⟩

end Plan

namespace Rule

variable {arity : Nat} {r : Rule} {rs : List Rule} {e e' : PlanError}

theorem Plannable.not_refused (h : r.Plannable arity) : ¬ r.Refused arity e := by
  obtain ⟨⟨head, hhead, hplain, harity⟩, a, ha, hb⟩ := h
  intro hr
  cases hr with
  | noHead h => exact nomatch h.symm.trans hhead
  | wildcard h hw =>
    obtain rfl := Option.some.inj (h.symm.trans hhead)
    exact nomatch hw.symm.trans hplain
  | arity h _ hne =>
    obtain rfl := Option.some.inj (h.symm.trans hhead)
    exact hne harity
  | noData _ _ _ hall => exact nomatch (hall a ha).symm.trans hb

/-- There is one reason to refuse a rule. -/
theorem Refused.unique (h : r.Refused arity e) (h' : r.Refused arity e') : e = e' := by
  cases h <;> cases h' <;> simp_all

/-- Whether an error is that of the first rule in a list that has no plan. -/
def FirstRefused (arity : Nat) (rs : List Rule) (e : PlanError) : Prop :=
  ∃ before r after, rs = before ++ r :: after ∧ (∀ q ∈ before, q.Plannable arity) ∧
    r.Refused arity e

theorem not_firstRefused_nil : ¬ FirstRefused arity [] e := by
  rintro ⟨before, r, after, h, -⟩
  exact absurd h (by simp)

/-- The first rule is refused, or it is not and one of the others is. -/
theorem firstRefused_cons :
    FirstRefused arity (r :: rs) e ↔
      r.Refused arity e ∨ r.Plannable arity ∧ FirstRefused arity rs e := by
  constructor
  · rintro ⟨before, q, after, heq, hbefore, hq⟩
    rcases List.cons_eq_append_iff.mp heq with ⟨rfl, hcons⟩ | ⟨before', rfl, rfl⟩
    · obtain ⟨rfl, -⟩ := List.cons.inj hcons
      exact Or.inl hq
    · obtain ⟨hr, hbefore⟩ := List.forall_mem_cons.mp hbefore
      exact Or.inr ⟨hr, before', q, after, rfl, hbefore, hq⟩
  · rintro (hr | ⟨hr, before, q, after, rfl, hbefore, hq⟩)
    · exact ⟨[], r, rs, rfl, by simp, hr⟩
    · exact ⟨r :: before, q, after, rfl, List.forall_mem_cons.mpr ⟨hr, hbefore⟩, hq⟩

end Rule

namespace Plan

open Rule (FirstRefused firstArity firstRefused_cons not_firstRefused_nil)

variable {arity i : Nat} {r : Rule} {rs : List Rule} {e : PlanError}

theorem exists_ruleTree_iff : (∃ t, ruleTree arity i r = .ok t) ↔ r.Plannable arity := by
  rcases ruleTree_cases arity i r with ⟨hr, t, ht⟩ | ⟨e, he, herror⟩
  · exact ⟨fun _ => hr, fun _ => ⟨t, ht⟩⟩
  · exact ⟨fun ⟨t, ht⟩ => (nomatch ht.symm.trans herror), fun hr => absurd he hr.not_refused⟩

theorem ruleTree_eq_error : ruleTree arity i r = .error e ↔ r.Refused arity e := by
  rcases ruleTree_cases arity i r with ⟨hr, t, ht⟩ | ⟨e', he, herror⟩
  · exact ⟨fun h => (nomatch ht.symm.trans h), fun h => absurd h hr.not_refused⟩
  · rw [herror, Except.error.injEq]
    exact ⟨fun h => h ▸ he, he.unique⟩

/-- A list of rules has trees if every rule has one. -/
theorem exists_ruleTrees_iff :
    (∃ trees, ruleTrees arity i rs = .ok trees) ↔ ∀ r ∈ rs, r.Plannable arity := by
  induction rs generalizing i with
  | nil => exact ⟨fun _ => by simp, fun _ => ⟨_, rfl⟩⟩
  | cons r rs ih =>
    rw [List.forall_mem_cons, ← exists_ruleTree_iff (i := i), ruleTrees]
    constructor
    · rintro ⟨trees, h⟩
      obtain ⟨t, ht, hrest⟩ := bind_eq_ok.mp h
      obtain ⟨trees', htrees, -⟩ := bind_eq_ok.mp hrest
      exact ⟨⟨t, ht⟩, ih.mp ⟨trees', htrees⟩⟩
    · rintro ⟨⟨t, ht⟩, hrs⟩
      obtain ⟨trees', htrees⟩ := ih.mpr hrs
      exact ⟨_, bind_eq_ok.mpr ⟨t, ht, bind_eq_ok.mpr ⟨trees', htrees, rfl⟩⟩⟩

/-- If it has none, the first rule that has none is to blame. -/
theorem ruleTrees_eq_error : ruleTrees arity i rs = .error e ↔ FirstRefused arity rs e := by
  induction rs generalizing i with
  | nil => exact iff_of_false (by simp [ruleTrees]) not_firstRefused_nil
  | cons r rs ih =>
    rw [firstRefused_cons, ← ruleTree_eq_error (i := i), ← exists_ruleTree_iff (i := i), ruleTrees,
      bind_eq_error]
    refine or_congr Iff.rfl ?_
    constructor
    · rintro ⟨t, ht, hrest⟩
      obtain htrees | ⟨trees, -, hpure⟩ := bind_eq_error.mp hrest
      · exact ⟨⟨t, ht⟩, ih.mp htrees⟩
      · exact absurd hpure (by simp [pure, Except.pure])
    · rintro ⟨⟨t, ht⟩, hrs⟩
      exact ⟨t, ht, bind_eq_error.mpr (Or.inl (ih.mpr hrs))⟩

/-- What is left to be done once the arity is known. -/
theorem ofRules_cons {first : Rule} {head : Atom} (h : first.head = some head) (rest : List Rule) :
    ofRules (first :: rest) = (ruleTrees (firstArity (first :: rest)) 1 (first :: rest)).map
      fun trees => ⟨.node 0 (.union (firstArity (first :: rest))) trees.1, trees.2⟩ := by
  have harity : firstArity (first :: rest) = head.arity := by
    rw [firstArity, List.head?_cons, Option.bind_some, h]
    rfl
  rw [ofRules, h, harity]
  rfl

/-- Without a head of the first rule, this rule is refused. -/
theorem ofRules_cons_of_noHead {first : Rule} (h : first.head = none) (rest : List Rule) :
    ofRules (first :: rest) = .error (.unsupportedRule first) := by
  rw [ofRules, h]

/-- The plan of a list of rules is a union of the trees for the rules, of the arity of the first. -/
theorem exists_trees_of_firstArity {p : Plan} (h : ofRules rs = .ok p) :
    ∃ trees next, ruleTrees (firstArity rs) 1 rs = .ok (trees, next) ∧
      p = ⟨.node 0 (.union (firstArity rs)) trees, next⟩ := by
  match rs with
  | [] => exact nomatch h
  | first :: rest =>
    cases hfirst : first.head with
    | none => exact nomatch (ofRules_cons_of_noHead hfirst rest).symm.trans h
    | some head =>
      rw [ofRules_cons hfirst] at h
      cases htrees : ruleTrees (firstArity (first :: rest)) 1 (first :: rest) with
      | error e => exact absurd h (by simp [htrees, Except.map])
      | ok trees =>
        rw [htrees] at h
        exact ⟨trees.1, trees.2, rfl, (Except.ok.inj h).symm⟩

theorem exists_ofRules_iff :
    (∃ p, ofRules rs = .ok p) ↔ rs ≠ [] ∧ ∀ r ∈ rs, r.Plannable (firstArity rs) := by
  match rs with
  | [] => simp [ofRules]
  | first :: rest =>
    cases hfirst : first.head with
    | none =>
      rw [ofRules_cons_of_noHead hfirst]
      refine iff_of_false (by simp) fun h => ?_
      exact absurd (.noHead hfirst) (h.2 first (List.mem_cons_self ..)).not_refused
    | some head =>
      rw [ofRules_cons hfirst, ← exists_ruleTrees_iff (i := 1)]
      cases ruleTrees (firstArity (first :: rest)) 1 (first :: rest) <;> simp [Except.map]

theorem ofRules_eq_error :
    ofRules rs = .error e ↔ rs = [] ∧ e = .noRules ∨ FirstRefused (firstArity rs) rs e := by
  match rs with
  | [] => simp [ofRules, not_firstRefused_nil, eq_comm]
  | first :: rest =>
    have hne : ¬ (first :: rest = [] ∧ e = .noRules) := by simp
    rw [or_iff_right hne]
    cases hfirst : first.head with
    | none =>
      have hrefused : first.Refused (firstArity (first :: rest)) (.unsupportedRule first) :=
        .noHead hfirst
      rw [ofRules_cons_of_noHead hfirst, firstRefused_cons, Except.error.injEq]
      constructor
      · rintro rfl
        exact Or.inl hrefused
      · rintro (h | ⟨h, -⟩)
        · exact hrefused.unique h
        · exact absurd hrefused h.not_refused
    | some head =>
      rw [ofRules_cons hfirst, ← ruleTrees_eq_error (i := 1)]
      cases ruleTrees (firstArity (first :: rest)) 1 (first :: rest) <;> simp [Except.map]

end Plan

/-! ## What is read off a plan -/

/-- Whether the operators below a projection onto a head say what a rule says. -/
structure Rule.Encodes (r : Rule) (head : Atom) (below : List Operator) : Prop where
  /-- The projection is onto the head of the rule. -/
  head : r.head = some head
  /-- The data operators fetch the atoms that are not built in, in their order. -/
  data : below.filterMap Operator.atom? = r.bodyAtoms.filter (not ∘ Atom.isBuiltin)
  /-- The conditions are the atoms that are built in, in their order. -/
  conditions : below.flatMap Operator.conditions = r.bodyAtoms.filter Atom.isBuiltin
  /-- There is no filter if nothing is built in, and one otherwise. -/
  filters : (below.countP fun op => op.kind = .filter) =
    if r.bodyAtoms.filter Atom.isBuiltin = [] then 0 else 1
  /-- There is one join if there are several data operators, and none otherwise. -/
  joins : (below.countP fun op => op.kind = .join) =
    if 2 ≤ (r.bodyAtoms.filter (not ∘ Atom.isBuiltin)).length then 1 else 0
  /-- Joins have no conditions, and there are no other operators. -/
  layers : ∀ op ∈ below, op.kind = .data ∨ op.kind = .filter ∨ op = .join []

namespace PlanTree

/-- The operators of a tree in pre-order. -/
def operators (t : PlanTree) : List Operator := t.labels fun _ op => op

theorem operators_node (i : NodeId) (op : Operator) (children : List PlanTree) :
    (node i op children).operators = op :: children.flatMap operators :=
  labels_node _ i op children

end PlanTree

namespace Plan

open PlanTree

/-- The operators for a body in pre-order. -/
def bodyOperators (conditions atoms : List Atom) : List Operator :=
  (if conditions = [] then [] else [.filter conditions]) ++
    (if 2 ≤ atoms.length then [.join []] else []) ++ atoms.map .data

theorem operators_dataLeaves (i : NodeId) (atoms : List Atom) :
    (dataLeaves i atoms).flatMap operators = atoms.map .data := by
  induction atoms generalizing i with
  | nil => rfl
  | cons a atoms ih =>
    rw [dataLeaves, List.flatMap_cons, ih, leaf, operators_node, List.map_cons]
    rfl

theorem operators_dataTree (i : NodeId) {atoms : List Atom} (h : atoms ≠ []) :
    (dataTree i atoms).flatMap operators = bodyOperators [] atoms := by
  match atoms with
  | [a] => exact operators_dataLeaves i [a]
  | a :: b :: rest =>
    rw [dataTree, List.flatMap_singleton, operators_node, operators_dataLeaves, bodyOperators,
      if_pos (by simp)]
    · rfl
    · exact fun c => by simp

theorem operators_bodyTree (i : NodeId) (conditions : List Atom) {atoms : List Atom}
    (h : atoms ≠ []) : (bodyTree i conditions atoms).flatMap operators =
      bodyOperators conditions atoms := by
  match conditions with
  | [] => exact operators_dataTree i h
  | c :: conditions =>
    rw [bodyTree, List.flatMap_singleton, operators_node, operators_dataTree (i + 1) h]
    · rfl
    · exact fun h => nomatch h

variable (conditions atoms : List Atom)

theorem atoms_bodyOperators :
    (bodyOperators conditions atoms).filterMap Operator.atom? = atoms := by
  have hdata : (atoms.map Operator.data).filterMap Operator.atom? = atoms := by
    rw [List.filterMap_map]
    exact List.filterMap_some
  rw [bodyOperators, List.filterMap_append, List.filterMap_append, hdata]
  split_ifs <;> rfl

theorem conditions_bodyOperators :
    (bodyOperators conditions atoms).flatMap Operator.conditions = conditions := by
  have hdata : (atoms.map Operator.data).flatMap Operator.conditions = [] := by
    rw [List.flatMap_eq_nil_iff, List.forall_mem_map]
    exact fun _ _ => rfl
  rw [bodyOperators, List.flatMap_append, List.flatMap_append, hdata, List.append_nil]
  split_ifs with hconditions <;> simp [hconditions, Operator.conditions]

/-- Data operators are of no other kind. -/
theorem countP_map_data {k : OperatorKind} (hk : k ≠ .data) :
    ((atoms.map Operator.data).countP fun op => op.kind = k) = 0 := by
  rw [List.countP_eq_zero, List.forall_mem_map]
  exact fun a _ hkind => hk (of_decide_eq_true hkind).symm

theorem filters_bodyOperators :
    ((bodyOperators conditions atoms).countP fun op => op.kind = .filter) =
      if conditions = [] then 0 else 1 := by
  rw [bodyOperators, List.countP_append, List.countP_append, countP_map_data atoms (by decide)]
  split_ifs <;> rfl

theorem joins_bodyOperators :
    ((bodyOperators conditions atoms).countP fun op => op.kind = .join) =
      if 2 ≤ atoms.length then 1 else 0 := by
  rw [bodyOperators, List.countP_append, List.countP_append, countP_map_data atoms (by decide)]
  split_ifs <;> rfl

theorem layers_bodyOperators :
    ∀ op ∈ bodyOperators conditions atoms, op.kind = .data ∨ op.kind = .filter ∨ op = .join [] := by
  intro op hop
  rw [bodyOperators, List.mem_append, List.mem_append] at hop
  rcases hop with (hop | hop) | hop
  · split_ifs at hop
    · exact absurd hop (by simp)
    · exact Or.inr (Or.inl (List.mem_singleton.mp hop ▸ rfl))
  · split_ifs at hop
    · exact Or.inr (Or.inr (List.mem_singleton.mp hop))
    · exact absurd hop (by simp)
  · obtain ⟨a, -, rfl⟩ := List.mem_map.mp hop
    exact Or.inl rfl

end Plan

/-- The operators for the body of a rule say what the rule says. -/
theorem Rule.encodes_bodyOperators {r : Rule} {head : Atom} (h : r.head = some head) :
    r.Encodes head (Plan.bodyOperators (r.bodyAtoms.filter Atom.isBuiltin)
      (r.bodyAtoms.filter (not ∘ Atom.isBuiltin))) where
  head := h
  data := Plan.atoms_bodyOperators _ _
  conditions := Plan.conditions_bodyOperators _ _
  filters := Plan.filters_bodyOperators _ _
  joins := Plan.joins_bodyOperators _ _
  layers := Plan.layers_bodyOperators _ _

namespace PlanStore

/-- The operators of a node and of what is below it, in pre-order. -/
def operatorsFrom (s : PlanStore) (k : Arena.Key) : Option (List Operator) := do
  return (← s.walk [k]).filterMap fun l => (s.get? l).map PlanNode.op

theorem Shows.operatorsFrom_eq {s : PlanStore} {p : Plan} {t : PlanTree} (h : s.Shows p)
    (ht : t ∈ p.nodes) : s.operatorsFrom (s.keyOf t) = some t.operators := by
  have hwalk := h.walk_eq [t] (List.forall_mem_singleton.mpr ht)
  rw [List.map_singleton] at hwalk
  unfold operatorsFrom
  rw [hwalk]
  show some (((PlanTree.walk [t]).map s.keyOf).filterMap _) = some (t.nodes.map PlanTree.op)
  rw [List.filterMap_map, ← List.filterMap_eq_map]
  refine congrArg some (List.filterMap_congr fun u hu => ?_)
  obtain ⟨q, hq⟩ := h.exists_keeps (PlanTree.mem_nodes_trans ht hu)
  show (s.get? (s.keyOf u)).map PlanNode.op = _
  rw [hq.get?_eq]
  rfl

/-- Whether there is a projection under a key from which a rule can be read off. -/
def Projects (s : PlanStore) (r : Rule) (k : Arena.Key) : Prop :=
  ∃ head below, s.operatorsFrom k = some (.projection head :: below) ∧ r.Encodes head below

/-- The trees for several rules are projections from which these rules can be read off. -/
theorem forall₂_projects {s : PlanStore} {p : Plan} {arity i next : NodeId} {rs : List Rule}
    {trees : List PlanTree} (h : s.Shows p) (htrees : ∀ t ∈ trees, t ∈ p.nodes)
    (hrules : Plan.ruleTrees arity i rs = .ok (trees, next)) :
    List.Forall₂ s.Projects rs (trees.map s.keyOf) := by
  induction rs generalizing i trees with
  | nil =>
    obtain ⟨rfl, -⟩ := Prod.mk.inj (Except.ok.inj hrules)
    exact .nil
  | cons r rs ih =>
    rw [Plan.ruleTrees] at hrules
    obtain ⟨t, ht, hrest⟩ := bind_eq_ok.mp hrules
    obtain ⟨⟨trees', next'⟩, htrees', heq⟩ := bind_eq_ok.mp hrest
    obtain ⟨rfl, rfl⟩ := Prod.mk.inj (Except.ok.inj heq)
    obtain ⟨htp, hrestp⟩ := List.forall_mem_cons.mp htrees
    refine .cons ?_ (ih hrestp htrees')
    obtain ⟨head, hhead, -, hdata, rfl⟩ := Plan.exists_of_ruleTree_eq_ok ht
    refine ⟨head, _, ?_, Rule.encodes_bodyOperators hhead⟩
    rw [h.operatorsFrom_eq htp, PlanTree.operators_node, Plan.operators_bodyTree _ _ hdata]

/-- **A plan of rules says what the rules say.**  A list of rules has a plan exactly if there are
rules and each of them has a head without wildcard, of the arity of the first head, and a body atom
that is not built in; otherwise the error is that of the first rule of which this is not true.  The
plan is valid and consists of a union of that arity and below it one projection for each rule, in
the order of the rules, from which the rule can be read off. -/
theorem ofRules_encodes (tag : Nat) (rs : List Rule) :
    ((∃ s, ofRules tag rs = .ok s) ↔
      rs ≠ [] ∧ ∀ r ∈ rs, r.Plannable (Rule.firstArity rs)) ∧
    (∀ e, ofRules tag rs = .error e ↔
      rs = [] ∧ e = .noRules ∨ Rule.FirstRefused (Rule.firstArity rs) rs e) ∧
    ∀ s, ofRules tag rs = .ok s → s.validate = some (.ok ()) ∧
      ∃ ks, s.get? s.root = some ⟨.union (Rule.firstArity rs), ks, none⟩ ∧
        List.Forall₂ s.Projects rs ks := by
  rw [ofRules_eq]
  refine ⟨?_, fun e => ?_, fun s hs => ?_⟩
  · rw [← Plan.exists_ofRules_iff]
    cases Plan.ofRules rs <;> simp [Except.map]
  · rw [← Plan.ofRules_eq_error]
    cases Plan.ofRules rs <;> simp [Except.map]
  · cases hp : Plan.ofRules rs with
    | error e => exact absurd hs (by simp [hp, Except.map])
    | ok p =>
      rw [hp] at hs
      obtain rfl := Except.ok.inj hs
      have hshows := shows_ofPlan tag (Plan.ofRules_eq_ok hp).1
      refine ⟨?_, ?_⟩
      · rw [hshows.validate_eq, Plan.ofRules_validate hp (List.Subset.refl _)]
      · obtain ⟨trees, next, htrees, rfl⟩ := Plan.exists_trees_of_firstArity hp
        refine ⟨_, hshows.root_eq ▸ hshows.keeps.get?_eq,
          forall₂_projects hshows (fun t ht => ?_) htrees⟩
        exact PlanTree.mem_nodes_of_mem_children ht

/-- Two rules for the same predicate, one with two data atoms and one with a condition. -/
def twoWays : List Rule :=
  [⟨some (.plain "p" [.var ⟨"x"⟩, .var ⟨"y"⟩]),
      some [.plain "q" [.var ⟨"x"⟩], .plain "r" [.var ⟨"y"⟩]]⟩,
    ⟨some (.plain "p" [.var ⟨"x"⟩, .var ⟨"y"⟩]),
      some [.plain "NEQ" [.var ⟨"x"⟩, .var ⟨"y"⟩], .plain "s" [.var ⟨"x"⟩, .var ⟨"y"⟩]]⟩]

/-- Each of the two has its projection, the first one over a join and the second one over a
filter. -/
theorem ofRules_encodes_twoWays :
    ∃ s k l, ofRules 0 twoWays = .ok s ∧ s.validate = some (.ok ()) ∧
      s.get? s.root = some ⟨.union 2, [k, l], none⟩ ∧ List.Forall₂ s.Projects twoWays [k, l] := by
  obtain ⟨s, hs⟩ : ∃ s, ofRules 0 twoWays = .ok s := by
    rw [ofRules_eq]
    exact ⟨_, rfl⟩
  obtain ⟨hvalid, ks, hroot, hprojects⟩ := (ofRules_encodes 0 twoWays).2.2 s hs
  obtain ⟨k, l, rfl⟩ := List.length_eq_two.mp hprojects.length_eq.symm
  exact ⟨s, k, l, hs, hvalid, hroot, hprojects⟩

end PlanStore

end OntoQuery
