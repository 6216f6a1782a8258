import Mathlib.Order.Bounds.Basic
import OntoQuery.Program

/-!
# Least models of rules

A *valuation* assigns a ground term to every variable, and makes an instance of a rule: a ground
head, if the rule has a head, and a list of ground body atoms.

Two sets of atoms say what holds: `truth` decides the built-in atoms and `facts` all others.  The
*answers* of rules are the heads of those instances whose body atoms all hold.  The *least model*
of rules over given facts contains the facts and, with the body of an instance, also its head.

* `isLeast_leastModel`: the least model is the least set of atoms that contains the facts and all
  answers of the rules over it.
* `mem_leastModel_iff`: everything in it is a fact or such an answer.

Nothing asks the sets to be ground.  Instances are, so atoms with variables play no part.
-/

namespace OntoQuery

/-- An assignment of ground terms to variables. -/
structure Valuation where
  /-- The term that a variable stands for. -/
  value : Var → Term
  /-- It is ground. -/
  ground : ∀ x, (value x).isGround

namespace Valuation

instance : CoeFun Valuation fun _ => Var → Term := ⟨value⟩

instance : Inhabited Valuation := ⟨⟨fun _ => .iri "", fun _ => rfl⟩⟩

theorem isGround_bind (v : Valuation) (t : Term) : (t.bind v).isGround := by
  rw [Term.isGround, List.isEmpty_iff, List.eq_nil_iff_forall_not_mem]
  intro y hy
  obtain ⟨x, -, hyx⟩ := Term.mem_vars_bind.mp hy
  have hx : (v x).vars = [] := List.isEmpty_iff.mp (v.ground x)
  rw [hx] at hyx
  exact absurd hyx (by simp)

/-- The valuation that replaces variables first and evaluates the result. -/
def after (v : Valuation) (f : Var → Term) : Valuation where
  value x := (f x).bind v
  ground x := v.isGround_bind (f x)

end Valuation

/-! ## Instances -/

namespace Rule

/-- Whether some valuation takes the head and the body of a rule to the given ones. -/
def HasInstance (r : Rule) (head : Option Atom) (body : List Atom) : Prop :=
  ∃ v : Valuation, r.head.map (Atom.bind v) = head ∧ r.bodyAtoms.map (Atom.bind v) = body

/-- The instances after a replacement of variables are instances before it. -/
theorem HasInstance.of_bind {r : Rule} {f : Var → Term} {head : Option Atom} {body : List Atom}
    (h : (r.bind f).HasInstance head body) : r.HasInstance head body := by
  obtain ⟨v, hh, hb⟩ := h
  refine ⟨v.after f, ?_, ?_⟩
  · rw [← hh, bind, Option.map_map]
    congr 1
    funext a
    exact (Atom.bind_bind f v a).symm
  · rw [← hb, bodyAtoms_bind, List.map_map]
    congr 1
    funext a
    exact (Atom.bind_bind f v a).symm

/-- The predicate of a head is that of its instances. -/
theorem HasInstance.headPredicate?_eq {r : Rule} {a : Atom} {body : List Atom}
    (h : r.HasInstance (some a) body) : r.headPredicate? = some a.predicate := by
  obtain ⟨v, hh, -⟩ := h
  obtain ⟨b, hb, rfl⟩ := Option.map_eq_some_iff.mp hh
  rw [headPredicate?, hb, Option.map_some, Atom.predicate_bind]

/-- The atom at a position of the body of an instance has the predicate of the body atom there. -/
theorem HasInstance.exists_getElem? {r : Rule} {head : Option Atom} {pre post : List Atom}
    {a : Atom} (h : r.HasInstance head (pre ++ a :: post)) :
    ∃ b, r.bodyAtoms[pre.length]? = some b ∧ b.predicate = a.predicate := by
  obtain ⟨v, -, hbody⟩ := h
  have hget := congrArg (fun l : List Atom => l[pre.length]?) hbody
  rw [List.getElem?_map, List.getElem?_append_right (Nat.le_refl _), Nat.sub_self,
    List.getElem?_cons_zero, Option.map_eq_some_iff] at hget
  obtain ⟨b, hb, rfl⟩ := hget
  exact ⟨b, hb, (Atom.predicate_bind v b).symm⟩

/-- The body of an instance splits at every position of the body. -/
theorem HasInstance.exists_split {r : Rule} {head : Option Atom} {body : List Atom}
    (h : r.HasInstance head body) {i : Nat} {b : Atom} (hb : r.bodyAtoms[i]? = some b) :
    ∃ pre a post, pre.length = i ∧ body = pre ++ a :: post ∧ a.predicate = b.predicate := by
  obtain ⟨v, -, rfl⟩ := h
  obtain ⟨hlen, hget⟩ := List.getElem?_eq_some_iff.mp hb
  refine ⟨(r.bodyAtoms.take i).map (Atom.bind v), b.bind v,
    (r.bodyAtoms.drop (i + 1)).map (Atom.bind v), ?_, ?_, Atom.predicate_bind v b⟩
  · rw [List.length_map, List.length_take]
    omega
  · rw [← List.map_cons, ← List.map_append, ← hget, List.getElem_cons_drop, List.take_append_drop]

end Rule

/-! ## What holds -/

/-- Whether an atom holds: built-in atoms by their truth, others as facts. -/
def Atom.Holds (truth facts : Set Atom) (a : Atom) : Prop :=
  if a.isBuiltin then a ∈ truth else a ∈ facts

section

variable {truth facts facts' : Set Atom} {a : Atom} {rules rules' : List Rule}

theorem Atom.holds_of_isBuiltin (h : a.isBuiltin = true) : a.Holds truth facts ↔ a ∈ truth := by
  rw [Holds, if_pos h]

theorem Atom.holds_of_not_isBuiltin (h : a.isBuiltin = false) :
    a.Holds truth facts ↔ a ∈ facts := by
  rw [Holds, if_neg (by rw [h]; decide)]

/-- More facts make more atoms hold.  Only facts that are not built in count. -/
theorem Atom.Holds.mono (h : a.Holds truth facts)
    (hsub : a.isBuiltin = false → a ∈ facts → a ∈ facts') : a.Holds truth facts' := by
  cases hb : a.isBuiltin with
  | true => exact (holds_of_isBuiltin hb).mpr ((holds_of_isBuiltin hb).mp h)
  | false => exact (holds_of_not_isBuiltin hb).mpr (hsub hb ((holds_of_not_isBuiltin hb).mp h))

/-- The heads of the instances of rules whose body atoms hold. -/
def answers (rules : List Rule) (truth facts : Set Atom) : Set Atom :=
  {a | ∃ r ∈ rules, ∃ body, r.HasInstance (some a) body ∧ ∀ b ∈ body, b.Holds truth facts}

theorem answers_mono (hrules : rules ⊆ rules') (hfacts : facts ⊆ facts') :
    answers rules truth facts ⊆ answers rules' truth facts' := by
  rintro a ⟨r, hr, body, hi, hb⟩
  exact ⟨r, hrules hr, body, hi, fun b hbm => (hb b hbm).mono fun _ hf => hfacts hf⟩

theorem mem_answers_cons (r : Rule) (rules : List Rule) :
    a ∈ answers (r :: rules) truth facts ↔
      a ∈ answers [r] truth facts ∨ a ∈ answers rules truth facts := by
  simp [answers]

/-! ## The least model -/

/-- What can be derived from facts by rules. -/
inductive Derivable (rules : List Rule) (truth facts : Set Atom) : Atom → Prop where
  /-- A fact. -/
  | fact {a : Atom} (h : a ∈ facts) : Derivable rules truth facts a
  /-- The head of an instance whose built-in atoms are true and whose other atoms have been
  derived. -/
  | rule {r : Rule} {a : Atom} {body : List Atom} (hr : r ∈ rules)
      (hi : r.HasInstance (some a) body)
      (ht : ∀ b ∈ body, b.isBuiltin = true → b ∈ truth)
      (hd : ∀ b ∈ body, b.isBuiltin = false → Derivable rules truth facts b) :
      Derivable rules truth facts a

/-- The least model of rules over facts. -/
def leastModel (rules : List Rule) (truth facts : Set Atom) : Set Atom :=
  {a | Derivable rules truth facts a}

theorem subset_leastModel : facts ⊆ leastModel rules truth facts :=
  fun _ h => Derivable.fact h

/-- What follows from the least model is in it. -/
theorem answers_leastModel_subset :
    answers rules truth (leastModel rules truth facts) ⊆ leastModel rules truth facts := by
  rintro a ⟨r, hr, body, hi, hb⟩
  exact Derivable.rule hr hi
    (fun b hbm hbb => (Atom.holds_of_isBuiltin hbb).mp (hb b hbm))
    fun b hbm hbb => (Atom.holds_of_not_isBuiltin hbb).mp (hb b hbm)

/-- The least model lies in every set of atoms with these two properties. -/
theorem leastModel_subset {m : Set Atom} (hfacts : facts ⊆ m)
    (hclosed : answers rules truth m ⊆ m) : leastModel rules truth facts ⊆ m := by
  intro a ha
  induction ha with
  | fact h => exact hfacts h
  | @rule r a body hr hi ht _ ih =>
    refine hclosed ⟨r, hr, body, hi, fun b hb => ?_⟩
    cases hbb : b.isBuiltin with
    | true => exact (Atom.holds_of_isBuiltin hbb).mpr (ht b hb hbb)
    | false => exact (Atom.holds_of_not_isBuiltin hbb).mpr (ih b hb hbb)

/-- The least model is the least set that contains the facts and is closed under the rules. -/
theorem isLeast_leastModel (rules : List Rule) (truth facts : Set Atom) :
    IsLeast {m | facts ⊆ m ∧ answers rules truth m ⊆ m} (leastModel rules truth facts) :=
  ⟨⟨subset_leastModel, answers_leastModel_subset⟩, fun _ hm => leastModel_subset hm.1 hm.2⟩

/-- Everything in the least model is a fact or follows by a rule in one step. -/
theorem mem_leastModel_iff :
    a ∈ leastModel rules truth facts ↔
      a ∈ facts ∨ a ∈ answers rules truth (leastModel rules truth facts) := by
  constructor
  · intro h
    cases h with
    | fact h => exact Or.inl h
    | @rule r _ body hr hi ht hd =>
      refine Or.inr ⟨r, hr, body, hi, fun b hb => ?_⟩
      cases hbb : b.isBuiltin with
      | true => exact (Atom.holds_of_isBuiltin hbb).mpr (ht b hb hbb)
      | false => exact (Atom.holds_of_not_isBuiltin hbb).mpr (hd b hb hbb)
  · rintro (h | h)
    · exact subset_leastModel h
    · exact answers_leastModel_subset h

/-- More rules and more facts have a larger least model. -/
theorem leastModel_mono (hrules : rules ⊆ rules') (hfacts : facts ⊆ facts') :
    leastModel rules truth facts ⊆ leastModel rules' truth facts' :=
  leastModel_subset (hfacts.trans subset_leastModel)
    ((answers_mono hrules (Set.Subset.refl _)).trans answers_leastModel_subset)

/-- For predicates that depend on each other only, the rules for other predicates play no part in
the least model. -/
theorem mem_leastModel_of_closed {ps : Set Symbol}
    (h : ∀ r ∈ rules, ∀ p ∈ ps, r.headPredicate? = some p →
      r ∈ rules' ∧ ∀ b ∈ r.bodyAtoms, b.isBuiltin = false → b.predicate ∈ ps)
    (ha : a ∈ leastModel rules truth facts) (hp : a.predicate ∈ ps) :
    a ∈ leastModel rules' truth facts := by
  induction ha with
  | fact ha => exact Derivable.fact ha
  | @rule r a body hr hi ht _ ih =>
    obtain ⟨hr', hbody⟩ := h r hr _ hp hi.headPredicate?_eq
    refine Derivable.rule hr' hi ht fun b hb hbb => ih b hb hbb ?_
    obtain ⟨v, -, rfl⟩ := hi
    obtain ⟨c, hc, rfl⟩ := List.mem_map.mp hb
    rw [Atom.isBuiltin_bind] at hbb
    rw [Atom.predicate_bind]
    exact hbody c hc hbb

end

end OntoQuery
