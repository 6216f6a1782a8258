import OntoQuery.Plan.OfRules
import OntoQuery.Proofs.LeastModel
import OntoQuery.Proofs.PlanNodes
import OntoQuery.Proofs.Success

/-!
# What plans mean

A valuation *satisfies* a tree of operators over given facts, where the truth of conditions is given
as well: a data node if the instance of its atom is a fact, a join or a filter if all children and
all conditions hold, a union if one of its children does, and a projection if some valuation that
agrees on the variables of the head satisfies what is below.  The *answers* of a tree are the
instances of the heads of those projections that are reached through unions only.

* `Simplifies`: one tree may replace another one.  Data, joins and filters make up the bodies of
  rules, unions and projections stand above them, and this layering is kept as well.
* `simplifies_congr`: operators keep the relation.
* `ofRules_eq_ok`: the plan of a list of rules has the answers of the rules.
-/

namespace OntoQuery

namespace PlanTree

/-! ## Satisfaction -/

mutual

/-- Whether a valuation satisfies a tree. -/
def Holds (truth facts : Set Atom) : PlanTree → Valuation → Prop
  | .node _ (.data a) _, v => a.bind v ∈ facts
  | .node _ (.join conditions) children, v =>
    (∀ c ∈ conditions, c.bind v ∈ truth) ∧ AllHold truth facts children v
  | .node _ (.filter conditions) children, v =>
    (∀ c ∈ conditions, c.bind v ∈ truth) ∧ AllHold truth facts children v
  | .node _ (.union _) children, v => SomeHolds truth facts children v
  | .node _ (.projection head) children, v =>
    ∃ w : Valuation, (∀ x ∈ head.vars, w x = v x) ∧ AllHold truth facts children w

/-- Whether a valuation satisfies all trees of a list. -/
def AllHold (truth facts : Set Atom) : List PlanTree → Valuation → Prop
  | [], _ => True
  | t :: ts, v => Holds truth facts t v ∧ AllHold truth facts ts v

/-- Whether a valuation satisfies a tree of a list. -/
def SomeHolds (truth facts : Set Atom) : List PlanTree → Valuation → Prop
  | [], _ => False
  | t :: ts, v => Holds truth facts t v ∨ SomeHolds truth facts ts v

end

section

variable {truth facts : Set Atom} {v : Valuation}

theorem allHold_iff {ts : List PlanTree} :
    AllHold truth facts ts v ↔ ∀ t ∈ ts, t.Holds truth facts v := by
  induction ts with
  | nil => simp [AllHold]
  | cons t ts ih => rw [AllHold, ih, List.forall_mem_cons]

theorem someHolds_iff {ts : List PlanTree} :
    SomeHolds truth facts ts v ↔ ∃ t ∈ ts, t.Holds truth facts v := by
  induction ts with
  | nil => simp [SomeHolds]
  | cons t ts ih => rw [SomeHolds, ih, List.exists_mem_cons_iff]

variable {i : NodeId} {children : List PlanTree}

theorem holds_data {a : Atom} :
    (node i (.data a) children).Holds truth facts v ↔ a.bind v ∈ facts := by
  rw [Holds]

theorem holds_join {conditions : List Atom} :
    (node i (.join conditions) children).Holds truth facts v ↔
      (∀ c ∈ conditions, c.bind v ∈ truth) ∧ ∀ t ∈ children, t.Holds truth facts v := by
  rw [Holds, allHold_iff]

theorem holds_filter {conditions : List Atom} :
    (node i (.filter conditions) children).Holds truth facts v ↔
      (∀ c ∈ conditions, c.bind v ∈ truth) ∧ ∀ t ∈ children, t.Holds truth facts v := by
  rw [Holds, allHold_iff]

theorem holds_union {n : Nat} :
    (node i (.union n) children).Holds truth facts v ↔
      ∃ t ∈ children, t.Holds truth facts v := by
  rw [Holds, someHolds_iff]

theorem holds_projection {head : Atom} :
    (node i (.projection head) children).Holds truth facts v ↔
      ∃ w : Valuation, (∀ x ∈ head.vars, w x = v x) ∧ ∀ t ∈ children, t.Holds truth facts w := by
  simp only [Holds, allHold_iff]

end

/-! ## Answers -/

/-- The answers of a tree: what the heads of projections become that are reached from the top
through unions only, under valuations that satisfy what is below them. -/
inductive Answers (truth facts : Set Atom) : PlanTree → List Term → Prop where
  /-- An answer of a child of a union. -/
  | union {i : NodeId} {n : Nat} {children : List PlanTree} {t : PlanTree} {ts : List Term}
      (ht : t ∈ children) (h : Answers truth facts t ts) :
      Answers truth facts (.node i (.union n) children) ts
  /-- The terms of the head of a projection. -/
  | projection {i : NodeId} {head : Atom} {children : List PlanTree} (v : Valuation)
      (h : ∀ t ∈ children, t.Holds truth facts v) :
      Answers truth facts (.node i (.projection head) children) (head.args.map (Term.bind v))

section

variable {truth facts : Set Atom} {ts : List Term} {i : NodeId} {children : List PlanTree}

theorem answers_union {n : Nat} :
    (node i (.union n) children).Answers truth facts ts ↔
      ∃ t ∈ children, t.Answers truth facts ts := by
  constructor
  · intro h
    cases h with
    | union ht h => exact ⟨_, ht, h⟩
  · rintro ⟨t, ht, h⟩
    exact .union ht h

theorem answers_projection {head : Atom} :
    (node i (.projection head) children).Answers truth facts ts ↔
      ∃ v : Valuation, (∀ t ∈ children, t.Holds truth facts v) ∧
        head.args.map (Term.bind v) = ts := by
  constructor
  · intro h
    cases h with
    | projection v h => exact ⟨v, h, rfl⟩
  · rintro ⟨v, h, rfl⟩
    exact .projection v h

end

/-! ## The layers of a plan -/

/-- Trees for bodies of rules: no union and no projection occurs in them. -/
inductive IsBody : PlanTree → Prop where
  /-- An operator that does not fix the number of its terms. -/
  | node {i : NodeId} {op : Operator} {children : List PlanTree} (hop : op.outputArity? = none)
      (h : ∀ t ∈ children, IsBody t) : IsBody (.node i op children)

/-- Trees for queries: unions of projections of bodies, where unions may stand below unions. -/
inductive IsQuery : PlanTree → Prop where
  /-- A union of queries. -/
  | union {i : NodeId} {n : Nat} {children : List PlanTree} (h : ∀ t ∈ children, IsQuery t) :
      IsQuery (.node i (.union n) children)
  /-- A projection of a body. -/
  | projection {i : NodeId} {head : Atom} {children : List PlanTree}
      (h : ∀ t ∈ children, IsBody t) : IsQuery (.node i (.projection head) children)

/-- Whether a tree may be replaced by another one: it has the same meaning, and the layers of the
plan stay what they are. -/
structure Simplifies (t t' : PlanTree) : Prop where
  /-- The same valuations satisfy both. -/
  holds : ∀ truth facts v, t.Holds truth facts v ↔ t'.Holds truth facts v
  /-- Bodies are replaced by bodies. -/
  isBody : t.IsBody → t'.IsBody
  /-- Queries are replaced by queries. -/
  isQuery : t.IsQuery → t'.IsQuery
  /-- Queries are replaced by queries with the same answers. -/
  answers : t.IsQuery → ∀ truth facts ts, t.Answers truth facts ts ↔ t'.Answers truth facts ts

theorem Simplifies.refl (t : PlanTree) : t.Simplifies t :=
  ⟨fun _ _ _ => Iff.rfl, fun h => h, fun h => h, fun _ _ _ _ => Iff.rfl⟩

theorem Simplifies.trans {t t' t'' : PlanTree} (h : t.Simplifies t') (h' : t'.Simplifies t'') :
    t.Simplifies t'' :=
  ⟨fun truth facts v => (h.holds truth facts v).trans (h'.holds truth facts v),
    fun hb => h'.isBody (h.isBody hb), fun hq => h'.isQuery (h.isQuery hq),
    fun hq truth facts ts =>
      (h.answers hq truth facts ts).trans (h'.answers (h.isQuery hq) truth facts ts)⟩

/-- In lists whose members correspond to each other, each member has a counterpart. -/
theorem exists_of_forall₂ {α β : Type} {R : α → β → Prop} {l : List α} {l' : List β}
    (h : List.Forall₂ R l l') :
    (∀ a ∈ l, ∃ b ∈ l', R a b) ∧ ∀ b ∈ l', ∃ a ∈ l, R a b := by
  induction h with
  | nil => simp
  | cons hab _ ih =>
    constructor
    · intro a ha
      rcases List.mem_cons.mp ha with rfl | ha
      · exact ⟨_, List.mem_cons_self .., hab⟩
      · obtain ⟨b, hb, hr⟩ := ih.1 a ha
        exact ⟨b, List.mem_cons_of_mem _ hb, hr⟩
    · intro b hb
      rcases List.mem_cons.mp hb with rfl | hb
      · exact ⟨_, List.mem_cons_self .., hab⟩
      · obtain ⟨a, ha, hr⟩ := ih.2 b hb
        exact ⟨a, List.mem_cons_of_mem _ ha, hr⟩

theorem forall_iff_of_forall₂ {α β : Type} {R : α → β → Prop} {P : α → Prop} {Q : β → Prop}
    {l : List α} {l' : List β} (h : List.Forall₂ R l l')
    (hPQ : ∀ a ∈ l, ∀ b, R a b → (P a ↔ Q b)) : (∀ a ∈ l, P a) ↔ ∀ b ∈ l', Q b := by
  obtain ⟨hright, hleft⟩ := exists_of_forall₂ h
  constructor
  · intro hl b hb
    obtain ⟨a, ha, hr⟩ := hleft b hb
    exact (hPQ a ha b hr).mp (hl a ha)
  · intro hl' a ha
    obtain ⟨b, hb, hr⟩ := hright a ha
    exact (hPQ a ha b hr).mpr (hl' b hb)

theorem exists_iff_of_forall₂ {α β : Type} {R : α → β → Prop} {P : α → Prop} {Q : β → Prop}
    {l : List α} {l' : List β} (h : List.Forall₂ R l l')
    (hPQ : ∀ a ∈ l, ∀ b, R a b → (P a ↔ Q b)) : (∃ a ∈ l, P a) ↔ ∃ b ∈ l', Q b := by
  obtain ⟨hright, hleft⟩ := exists_of_forall₂ h
  constructor
  · rintro ⟨a, ha, hp⟩
    obtain ⟨b, hb, hr⟩ := hright a ha
    exact ⟨b, hb, (hPQ a ha b hr).mp hp⟩
  · rintro ⟨b, hb, hq⟩
    obtain ⟨a, ha, hr⟩ := hleft b hb
    exact ⟨a, ha, (hPQ a ha b hr).mpr hq⟩

/-- Every operator may have its children replaced. -/
theorem simplifies_congr (i : NodeId) (op : Operator) (cs cs' : List PlanTree)
    (h : List.Forall₂ Simplifies cs cs') : (node i op cs).Simplifies (.node i op cs') := by
  obtain ⟨-, hleft⟩ := exists_of_forall₂ h
  have hall : ∀ truth facts v,
      (∀ t ∈ cs, t.Holds truth facts v) ↔ ∀ t ∈ cs', t.Holds truth facts v := fun truth facts v =>
    forall_iff_of_forall₂ h fun t _ t' hs => hs.holds truth facts v
  have hbody : (∀ t ∈ cs, t.IsBody) → ∀ t ∈ cs', t.IsBody := by
    intro hcs t' ht'
    obtain ⟨t, ht, hs⟩ := hleft t' ht'
    exact hs.isBody (hcs t ht)
  refine ⟨fun truth facts v => ?_, fun hb => ?_, fun hq => ?_, fun hq truth facts ts => ?_⟩
  · cases op with
    | data a => rw [holds_data, holds_data]
    | join conditions => rw [holds_join, holds_join, hall]
    | filter conditions => rw [holds_filter, holds_filter, hall]
    | union n =>
      rw [holds_union, holds_union]
      exact exists_iff_of_forall₂ h fun t _ t' hs => hs.holds truth facts v
    | projection head =>
      rw [holds_projection, holds_projection]
      exact exists_congr fun w => and_congr_right fun _ => hall truth facts w
  · cases hb with
    | node hop hcs => exact .node hop (hbody hcs)
  · cases hq with
    | union hcs =>
      refine .union fun t' ht' => ?_
      obtain ⟨t, ht, hs⟩ := hleft t' ht'
      exact hs.isQuery (hcs t ht)
    | projection hcs => exact .projection (hbody hcs)
  · cases hq with
    | union hcs =>
      rw [answers_union, answers_union]
      exact exists_iff_of_forall₂ h fun t ht t' hs => hs.answers (hcs t ht) truth facts ts
    | projection hcs =>
      rw [answers_projection, answers_projection]
      exact exists_congr fun w => and_congr_left fun _ => hall truth facts w

end PlanTree

/-! ## The plan of a list of rules -/

namespace Plan

/-- Whether trees have the numbers from a given one on. -/
def NumberedFrom (i : NodeId) (ts : List PlanTree) : Prop :=
  ts.flatMap PlanTree.ids = List.range' i (PlanTree.sizes ts)

theorem NumberedFrom.node {i : NodeId} {children : List PlanTree}
    (h : NumberedFrom (i + 1) children) (op : Operator) :
    NumberedFrom i [.node i op children] := by
  have hsize : PlanTree.sizes [.node i op children] = PlanTree.sizes children + 1 := by
    rw [PlanTree.sizes, PlanTree.sizes, PlanTree.size]
    omega
  rw [NumberedFrom, hsize, List.flatMap_singleton, PlanTree.ids_node, List.range'_succ]
  exact congrArg (i :: ·) h

theorem NumberedFrom.cons {i : NodeId} {t : PlanTree} {ts : List PlanTree}
    (ht : NumberedFrom i [t]) (hts : NumberedFrom (i + t.size) ts) : NumberedFrom i (t :: ts) := by
  have hsize : PlanTree.sizes [t] = t.size := by
    rw [PlanTree.sizes, PlanTree.sizes]
    omega
  rw [NumberedFrom, List.flatMap_singleton, hsize] at ht
  rw [NumberedFrom, List.flatMap_cons, ht, hts, PlanTree.sizes]
  exact List.range'_append_1

variable (truth facts : Set Atom)

/-- What trees for a part of a body have to do with it: their numbers go up from a given one, they
are made for bodies, and they are satisfied where that part holds. -/
structure Represents (i : NodeId) (ts : List PlanTree) (part : Valuation → Prop) : Prop where
  numbered : NumberedFrom i ts
  isBody : ∀ t ∈ ts, t.IsBody
  holds : ∀ v, (∀ t ∈ ts, t.Holds truth facts v) ↔ part v

theorem dataLeaves_represents (i : NodeId) (atoms : List Atom) :
    Represents truth facts i (dataLeaves i atoms) fun v => ∀ a ∈ atoms, a.bind v ∈ facts := by
  induction atoms generalizing i with
  | nil => exact ⟨rfl, by simp [dataLeaves], by simp [dataLeaves]⟩
  | cons a atoms ih =>
    obtain ⟨hnumbered, hbody, hholds⟩ := ih (i + 1)
    have hnone : NumberedFrom (i + 1) [] := rfl
    rw [dataLeaves]
    refine ⟨(hnone.node (.data a)).cons hnumbered, fun t ht => ?_, fun v => ?_⟩
    · rcases List.mem_cons.mp ht with rfl | ht
      · exact .node rfl fun t ht => absurd ht (by simp)
      · exact hbody t ht
    · rw [List.forall_mem_cons, List.forall_mem_cons, hholds, PlanTree.leaf, PlanTree.holds_data]

theorem dataTree_represents (i : NodeId) (atoms : List Atom) :
    Represents truth facts i (dataTree i atoms) fun v => ∀ a ∈ atoms, a.bind v ∈ facts := by
  unfold dataTree
  split
  · exact dataLeaves_represents truth facts i _
  · obtain ⟨hnumbered, hbody, hholds⟩ :=
      dataLeaves_represents truth facts (i + 1) atoms
    refine ⟨hnumbered.node _, fun t ht => ?_, fun v => ?_⟩
    · rw [List.mem_singleton.mp ht]
      exact .node rfl hbody
    · rw [List.forall_mem_singleton, PlanTree.holds_join, hholds]
      simp

theorem bodyTree_represents (i : NodeId) (conditions data : List Atom) :
    Represents truth facts i (bodyTree i conditions data) fun v =>
      (∀ c ∈ conditions, c.bind v ∈ truth) ∧ ∀ a ∈ data, a.bind v ∈ facts := by
  unfold bodyTree
  split
  · obtain ⟨hnumbered, hbody, hholds⟩ := dataTree_represents truth facts i data
    refine ⟨hnumbered, hbody, fun v => ?_⟩
    rw [hholds]
    simp
  · obtain ⟨hnumbered, hbody, hholds⟩ :=
      dataTree_represents truth facts (i + 1) data
    refine ⟨hnumbered.node _, fun t ht => ?_, fun v => ?_⟩
    · rw [List.mem_singleton.mp ht]
      exact .node rfl hbody
    · rw [List.forall_mem_singleton, PlanTree.holds_filter, hholds]

variable {truth facts}

/-- A body holds if its built-in atoms are true and its other atoms are facts. -/
theorem holds_partition {r : Rule} {v : Valuation} :
    ((∀ c ∈ r.bodyAtoms.filter Atom.isBuiltin, c.bind v ∈ truth) ∧
      ∀ a ∈ r.bodyAtoms.filter (not ∘ Atom.isBuiltin), a.bind v ∈ facts) ↔
        ∀ b ∈ r.bodyAtoms.map (Atom.bind v), b.Holds truth facts := by
  rw [List.forall_mem_map]
  constructor
  · rintro ⟨hconditions, hdata⟩ b hb
    cases hbb : b.isBuiltin with
    | true =>
      rw [Atom.holds_of_isBuiltin (by rw [Atom.isBuiltin_bind, hbb])]
      exact hconditions b (List.mem_filter.mpr ⟨hb, hbb⟩)
    | false =>
      rw [Atom.holds_of_not_isBuiltin (by rw [Atom.isBuiltin_bind, hbb])]
      exact hdata b (List.mem_filter.mpr ⟨hb, by simp [hbb]⟩)
  · intro h
    refine ⟨fun c hc => ?_, fun a ha => ?_⟩
    · obtain ⟨hc, hcb⟩ := List.mem_filter.mp hc
      exact (Atom.holds_of_isBuiltin (by rw [Atom.isBuiltin_bind, hcb])).mp (h c hc)
    · obtain ⟨ha, hab⟩ := List.mem_filter.mp ha
      have hab : a.isBuiltin = false := by simpa using hab
      exact (Atom.holds_of_not_isBuiltin (by rw [Atom.isBuiltin_bind, hab])).mp (h a ha)

/-- The tree for a rule is a projection onto its head, which must have the right arity, and there are
data atoms below it. -/
theorem exists_of_ruleTree_eq_ok {arity : Nat} {i : NodeId} {r : Rule} {t : PlanTree}
    (h : ruleTree arity i r = .ok t) :
    ∃ head, r.head = some head ∧ head.arity = arity ∧
      r.bodyAtoms.filter (not ∘ Atom.isBuiltin) ≠ [] ∧
      t = .node i (.projection head) (bodyTree (i + 1) (r.bodyAtoms.filter Atom.isBuiltin)
        (r.bodyAtoms.filter (not ∘ Atom.isBuiltin))) := by
  unfold ruleTree at h
  cases hr : r.head with
  | none => simp [hr] at h
  | some head =>
    cases head with
    | wildcard name => simp [hr] at h
    | plain name args =>
      simp only [hr, List.partition_eq_filter_filter] at h
      split at h
      · exact absurd h (by simp)
      · next harity =>
        split at h
        · exact absurd h (by simp)
        · next hdata =>
          exact ⟨_, rfl, Decidable.not_not.mp harity, by simpa using hdata,
            (Except.ok.inj h).symm⟩

/-- The tree for a rule has the answers of the rule. -/
theorem ruleTree_eq_ok {arity : Nat} {i : NodeId} {r : Rule} {t : PlanTree}
    (h : ruleTree arity i r = .ok t) :
    NumberedFrom i [t] ∧ t.IsQuery ∧
      ∀ truth facts ts, t.Answers truth facts ts ↔ ∃ a ∈ answers [r] truth facts, a.args = ts := by
  obtain ⟨head, hr, -, -, rfl⟩ := exists_of_ruleTree_eq_ok h
  obtain ⟨hnumbered, hbody, -⟩ := bodyTree_represents ∅ ∅ (i + 1)
    (r.bodyAtoms.filter Atom.isBuiltin) (r.bodyAtoms.filter (not ∘ Atom.isBuiltin))
  refine ⟨hnumbered.node _, .projection hbody, fun truth facts ts => ?_⟩
  rw [PlanTree.answers_projection]
  constructor
  · rintro ⟨v, hv, rfl⟩
    rw [(bodyTree_represents _ _ _ _ _).holds, holds_partition] at hv
    refine ⟨head.bind v, ⟨r, List.mem_singleton_self r, _, ⟨v, ?_, rfl⟩, hv⟩, Atom.args_bind v head⟩
    rw [hr, Option.map_some]
  · rintro ⟨a, ⟨s, hs, body, ⟨v, hhead, rfl⟩, hv⟩, rfl⟩
    rw [List.mem_singleton.mp hs] at hhead hv
    rw [hr, Option.map_some, Option.some_inj] at hhead
    refine ⟨v, ?_, ?_⟩
    · rw [(bodyTree_represents _ _ _ _ _).holds, holds_partition]
      exact hv
    · rw [← hhead, Atom.args_bind]

/-- So have the trees for several rules. -/
theorem ruleTrees_eq_ok {arity : Nat} {i next : NodeId} {rs : List Rule} {trees : List PlanTree}
    (h : ruleTrees arity i rs = .ok (trees, next)) :
    NumberedFrom i trees ∧ next = i + PlanTree.sizes trees ∧ (∀ t ∈ trees, t.IsQuery) ∧
      ∀ truth facts ts, (∃ t ∈ trees, t.Answers truth facts ts) ↔
        ∃ a ∈ answers rs truth facts, a.args = ts := by
  induction rs generalizing i next trees with
  | nil =>
    obtain ⟨rfl, rfl⟩ := Prod.mk.inj (Except.ok.inj h)
    exact ⟨rfl, rfl, by simp, by simp [answers]⟩
  | cons r rs ih =>
    rw [ruleTrees] at h
    obtain ⟨t, ht, hrest⟩ := bind_eq_ok.mp h
    obtain ⟨⟨rest, last⟩, hts, heq⟩ := bind_eq_ok.mp hrest
    obtain ⟨rfl, rfl⟩ := Prod.mk.inj (Except.ok.inj heq)
    obtain ⟨hnumbered, hquery, hanswers⟩ := ruleTree_eq_ok ht
    obtain ⟨hnumbered', hnext, hquery', hanswers'⟩ := ih hts
    refine ⟨hnumbered.cons hnumbered', ?_, fun s hs => ?_, fun truth facts ts => ?_⟩
    · rw [hnext, PlanTree.sizes, Nat.add_assoc]
    · rcases List.mem_cons.mp hs with rfl | hs
      · exact hquery
      · exact hquery' s hs
    · rw [List.exists_mem_cons_iff, hanswers, hanswers', ← exists_or]
      refine exists_congr fun a => ?_
      rw [mem_answers_cons r rs, or_and_right]

/-- The plan of a list of rules is the union of their trees. -/
theorem exists_of_ofRules_eq_ok {rs : List Rule} {p : Plan} (h : ofRules rs = .ok p) :
    rs ≠ [] ∧ ∃ arity trees next, ruleTrees arity 1 rs = .ok (trees, next) ∧
      p = ⟨.node 0 (.union arity) trees, next⟩ := by
  unfold ofRules at h
  split at h
  · exact absurd h (by simp)
  · rename_i first rest
    cases hfirst : first.head with
    | none => simp [hfirst] at h
    | some head =>
      simp only [hfirst] at h
      obtain ⟨⟨trees, next⟩, htrees, heq⟩ := bind_eq_ok.mp h
      exact ⟨List.cons_ne_nil _ _, _, trees, next, htrees, (Except.ok.inj heq).symm⟩

/-- The plan of a list of rules is numbered and layered, and has the answers of the rules. -/
theorem ofRules_eq_ok {rs : List Rule} {p : Plan} (h : ofRules rs = .ok p) :
    p.Numbered ∧ p.root.IsQuery ∧
      ∀ truth facts ts, p.root.Answers truth facts ts ↔
        ∃ a ∈ answers rs truth facts, a.args = ts := by
  obtain ⟨-, arity, trees, next, htrees, rfl⟩ := exists_of_ofRules_eq_ok h
  obtain ⟨hnumbered, hnext, hquery, hanswers⟩ := ruleTrees_eq_ok htrees
  have hids : (PlanTree.node 0 (.union arity) trees).ids =
      List.range' 0 (PlanTree.sizes trees + 1) := by
    rw [PlanTree.ids_node, List.range'_succ]
    exact congrArg (0 :: ·) hnumbered
  refine ⟨⟨?_, fun i hi => ?_⟩, .union hquery, fun truth facts ts => ?_⟩
  · rw [hids]
    exact List.nodup_range'
  · rw [hids, List.mem_range'_1, Nat.zero_add] at hi
    rw [hnext, Nat.add_comm]
    exact hi.2
  · rw [PlanTree.answers_union]
    exact hanswers truth facts ts

end Plan

end OntoQuery
