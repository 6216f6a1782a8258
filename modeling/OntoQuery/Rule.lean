import OntoQuery.Atom

/-!
# Rules

A rule derives its head from its body.  Both parts may be absent: a rule without
a head is a bare query body, and a rule without a body is a *fact*.  A rule with
an empty body is not a fact, although both are written alike.

* `Rule.validate` asks that every head variable occur in the body, and that
  facts be ground.
* `Rule.expand` resolves a wildcard head `p(*)` into `p(x₁, …, xₙ)`, where the
  `xᵢ` are the distinct body variables in the order of their first occurrence.
-/

namespace OntoQuery

/-- A rule with an optional head and an optional body. -/
structure Rule where
  /-- What the rule derives. -/
  head : Option Atom
  /-- The atoms the head is derived from; a fact has none. -/
  body : Option (List Atom)
  deriving DecidableEq, Inhabited, Repr

namespace Rule

/-- The atoms of the body, none for a fact. -/
def bodyAtoms (r : Rule) : List Atom := r.body.getD []

/-- Whether the rule has no body. -/
def isFact (r : Rule) : Bool := r.body.isNone

/-- The predicate of the head. -/
def headPredicate? (r : Rule) : Option Symbol := r.head.map Atom.predicate

/-- The variables of the head, with repetition. -/
def headVars (r : Rule) : List Var := r.head.elim [] Atom.vars

/-- The variables of the body, with repetition. -/
def bodyVars (r : Rule) : List Var := r.bodyAtoms.flatMap Atom.vars

/-- The variables of the head and then of the body, with repetition. -/
def vars (r : Rule) : List Var := r.headVars ++ r.bodyVars

/-- The distinct variables of a rule, in the order of their first occurrence. -/
def distinctVars (r : Rule) : List Var := r.vars.eraseDups

/-- The written form of a rule. -/
def text (r : Rule) : String :=
  r.head.elim "" Atom.text ++ " :- " ++ String.intercalate ", " (r.bodyAtoms.map Atom.text) ++ " ."

/-- Replaces every variable `x` by `f x`. -/
def bind (f : Var → Term) (r : Rule) : Rule where
  head := r.head.map (Atom.bind f)
  body := r.body.map (List.map (Atom.bind f))

/-- Rules are ordered by head, then by body; an absent part comes first. -/
def compare (r s : Rule) : Ordering :=
  let heads : Ordering := match r.head, s.head with
    | none, none => .eq
    | none, some _ => .lt
    | some _, none => .gt
    | some a, some b => Ord.compare a b
  let bodies : Ordering := match r.body, s.body with
    | none, none => .eq
    | none, some _ => .lt
    | some _, none => .gt
    | some as, some bs => List.compareLex Ord.compare as bs
  heads.then bodies

instance : Ord Rule := ⟨Rule.compare⟩

/-- Checks that the head of a rule is determined by its body.  Every variable of
the head has to occur in the body, and a fact must not have any; a wildcard head
is always allowed, because the body defines it. -/
def validate (r : Rule) : Except ModelError Unit :=
  match r.head with
  | none => .ok ()
  | some (.wildcard _) => .ok ()
  | some (.plain _ ts) =>
    if r.isFact then
      match Term.varsList ts with
      | [] => .ok ()
      | x :: _ => .error (.factNonGround x)
    else
      match (Term.varsList ts).find? (· ∉ r.bodyVars) with
      | none => .ok ()
      | some x => .error (.unsafeHeadVariable x)

/-- Turns a wildcard head into the list of the distinct body variables. -/
def expand (r : Rule) : Rule :=
  match r.head with
  | some (.wildcard p) => { r with head := some (.plain p (r.bodyVars.eraseDups.map Term.var)) }
  | _ => r

@[simp] theorem body_expand (r : Rule) : r.expand.body = r.body := by
  unfold expand
  split <;> rfl

@[simp] theorem bodyAtoms_bind (f : Var → Term) (r : Rule) :
    (r.bind f).bodyAtoms = r.bodyAtoms.map (Atom.bind f) := by
  cases h : r.body <;> simp [bodyAtoms, bind, h]

@[simp] theorem headPredicate?_bind (f : Var → Term) (r : Rule) :
    (r.bind f).headPredicate? = r.headPredicate? := by
  cases h : r.head <;> simp [headPredicate?, bind, h]

/-- Replacement depends only on the variables that occur. -/
theorem bind_congr {f g : Var → Term} {r : Rule} (h : ∀ x ∈ r.vars, f x = g x) :
    r.bind f = r.bind g := by
  obtain ⟨head, body⟩ := r
  simp only [vars, headVars, bodyVars, bodyAtoms, List.mem_append, List.mem_flatMap] at h
  have hh : head.map (Atom.bind f) = head.map (Atom.bind g) := by
    cases head with
    | none => rfl
    | some a =>
      simp only [Option.map_some, Option.some.injEq]
      exact Atom.bind_congr fun x hx => h x (Or.inl hx)
  have hb : body.map (List.map (Atom.bind f)) = body.map (List.map (Atom.bind g)) := by
    cases body with
    | none => rfl
    | some as =>
      simp only [Option.map_some, Option.some.injEq]
      exact List.map_congr_left fun a ha =>
        Atom.bind_congr fun x hx => h x (Or.inr ⟨a, ha, hx⟩)
  simp only [bind, hh, hb]

/-- Two replacements in a row are one. -/
theorem bind_bind (f g : Var → Term) (r : Rule) :
    (r.bind f).bind g = r.bind fun x => (f x).bind g := by
  obtain ⟨head, body⟩ := r
  cases head <;> cases body <;> simp [bind, Atom.bind_bind]

end Rule

end OntoQuery
