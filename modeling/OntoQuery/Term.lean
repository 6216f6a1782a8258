import OntoQuery.Symbol
import OntoQuery.Literal

/-!
# Terms

A term is a variable, an iri, a literal, or a function symbol applied to terms.
The arity of the function symbol is the number of its arguments, so a term
cannot disagree with its symbol.

Three functions carry the theory, each defined together with its version for
lists of terms:

* `Term.vars` lists the variables of a term from left to right, with repetition;
* `Term.bind f` replaces every variable `x` at once by the term `f x`;
* `Term.compare` orders terms: variables, then iris, then literals, then
  applications, which are compared by symbol and then argument by argument.

`Term.ind` is the induction principle that gives one hypothesis for each
argument of an application.
-/

namespace OntoQuery

/-- A variable, known by its name. -/
structure Var where
  /-- The name, without the question mark it is shown with. -/
  name : String
  deriving DecidableEq, Inhabited, Repr

namespace Var

/-- A variable is shown with a question mark. -/
def text (x : Var) : String := "?" ++ x.name

/-- Variables are ordered by name. -/
def compare (x y : Var) : Ordering := Ord.compare x.name y.name

instance : Ord Var := ⟨Var.compare⟩

instance : Std.TransOrd Var where
  eq_swap {x y} := by
    change Ord.compare x.name y.name = (Ord.compare y.name x.name).swap
    exact Std.OrientedOrd.eq_swap
  isLE_trans {x y z} hxy hyz := by
    change (Ord.compare x.name z.name).isLE
    exact Std.TransOrd.isLE_trans hxy hyz

instance : Std.LawfulEqOrd Var where
  eq_of_compare h := congrArg Var.mk (Std.LawfulEqOrd.eq_of_compare h)
  compare_self {x} := by
    change Ord.compare x.name x.name = .eq
    exact Std.ReflOrd.compare_self

end Var

/-- Terms over variables, iris, literals and function symbols. -/
inductive Term where
  /-- A variable. -/
  | var (x : Var)
  /-- An iri constant. -/
  | iri (iri : String)
  /-- A literal constant. -/
  | value (l : Literal)
  /-- A function symbol applied to its arguments. -/
  | app (f : String) (args : List Term)
  deriving Inhabited, Repr

namespace Term

/-- Induction on terms, with a hypothesis for each argument. -/
@[elab_as_elim]
theorem ind {motive : Term → Prop} (var : ∀ x, motive (.var x)) (iri : ∀ i, motive (.iri i))
    (value : ∀ l, motive (.value l))
    (app : ∀ f args, (∀ t ∈ args, motive t) → motive (.app f args)) (t : Term) : motive t := by
  refine Term.rec (motive_1 := motive) (motive_2 := fun ts => ∀ t ∈ ts, motive t)
    var iri value app (fun _ h => nomatch h) (fun t ts ht hts u hu => ?_) t
  rcases List.mem_cons.mp hu with rfl | hu
  · exact ht
  · exact hts u hu

/-! ## Equality -/

mutual

/-- Equality of terms is decidable. -/
def decEq : (s t : Term) → Decidable (s = t)
  | .var x, .var y => decidable_of_iff (x = y) (by simp)
  | .iri i, .iri j => decidable_of_iff (i = j) (by simp)
  | .value l, .value m => decidable_of_iff (l = m) (by simp)
  | .app f ss, .app g ts =>
    match decEqList ss ts with
    | isTrue h => decidable_of_iff (f = g) (by simp [h])
    | isFalse h => isFalse (by simp [h])
  | .var _, .iri _ | .var _, .value _ | .var _, .app _ _ => isFalse (by simp)
  | .iri _, .var _ | .iri _, .value _ | .iri _, .app _ _ => isFalse (by simp)
  | .value _, .var _ | .value _, .iri _ | .value _, .app _ _ => isFalse (by simp)
  | .app _ _, .var _ | .app _ _, .iri _ | .app _ _, .value _ => isFalse (by simp)

/-- Equality of lists of terms is decidable. -/
def decEqList : (ss ts : List Term) → Decidable (ss = ts)
  | [], [] => isTrue rfl
  | [], _ :: _ => isFalse (by simp)
  | _ :: _, [] => isFalse (by simp)
  | s :: ss, t :: ts =>
    match decEq s t with
    | isTrue h =>
      match decEqList ss ts with
      | isTrue h' => isTrue (by rw [h, h'])
      | isFalse h' => isFalse (by simp [h'])
    | isFalse h => isFalse (by simp [h])

end

instance : DecidableEq Term := decEq

/-! ## Order -/

mutual

/-- Variables come first, then iris, literals and applications; applications are
ordered by name, number of arguments, and then argument by argument. -/
def compare : Term → Term → Ordering
  | .var x, .var y => Ord.compare x y
  | .var _, _ => .lt
  | .iri _, .var _ => .gt
  | .iri i, .iri j => Ord.compare i j
  | .iri _, _ => .lt
  | .value _, .var _ => .gt
  | .value _, .iri _ => .gt
  | .value l, .value m => Ord.compare l m
  | .value _, .app _ _ => .lt
  | .app f ss, .app g ts =>
    (Ord.compare f g).then ((Ord.compare ss.length ts.length).then (compareList ss ts))
  | .app _ _, _ => .gt

/-- Lists of terms are ordered lexicographically. -/
def compareList : List Term → List Term → Ordering
  | [], [] => .eq
  | [], _ :: _ => .lt
  | _ :: _, [] => .gt
  | s :: ss, t :: ts => (compare s t).then (compareList ss ts)

end

instance : Ord Term := ⟨Term.compare⟩

/-! ## Shape -/

/-- The kind of component that a term is. -/
def kind : Term → ComponentKind
  | var _ => .var
  | iri _ => .iri
  | value _ => .value
  | app _ _ => .function

/-- The name of a variable, the iri, or the lexical form; an application has
none. -/
def name? : Term → Option String
  | var x => some x.name
  | iri i => some i
  | value l => some l.lexical
  | app _ _ => none

/-- The arguments of an application. -/
def args? : Term → Option (List Term)
  | app _ args => some args
  | _ => none

/-- The variable that a term is. -/
def var? : Term → Option Var
  | var x => some x
  | _ => none

/-- Whether the term is a variable. -/
def isVar : Term → Bool
  | var _ => true
  | _ => false

/-- Whether the term is an iri or a literal. -/
def isConstant : Term → Bool
  | iri _ | value _ => true
  | _ => false

/-- Whether the term is an application. -/
def isApp : Term → Bool
  | app _ _ => true
  | _ => false

/-! ## Written form -/

mutual

/-- The written form of a term. -/
def text : Term → String
  | .var x => x.text
  | .iri i => "<" ++ i ++ ">"
  | .value l => l.text
  | .app f args => f ++ "(" ++ String.intercalate ", " (texts args) ++ ")"

/-- The written forms of a list of terms. -/
def texts : List Term → List String
  | [] => []
  | t :: ts => text t :: texts ts

end

/-! ## Size and depth -/

mutual

/-- The number of symbols of a term. -/
def size : Term → Nat
  | .var _ => 1
  | .iri _ => 1
  | .value _ => 1
  | .app _ args => 1 + sizes args

/-- The number of symbols of a list of terms. -/
def sizes : List Term → Nat
  | [] => 0
  | t :: ts => size t + sizes ts

end

mutual

/-- How deeply applications are nested. -/
def depth : Term → Nat
  | .var _ => 0
  | .iri _ => 0
  | .value _ => 0
  | .app _ args => 1 + depths args

/-- The greatest depth in a list of terms. -/
def depths : List Term → Nat
  | [] => 0
  | t :: ts => max (depth t) (depths ts)

end

theorem size_pos (t : Term) : 0 < t.size := by
  cases t <;> simp only [size] <;> omega

/-! ## Variables -/

mutual

/-- The variables of a term, from left to right and with repetition. -/
def vars : Term → List Var
  | .var x => [x]
  | .iri _ => []
  | .value _ => []
  | .app _ args => varsList args

/-- The variables of a list of terms. -/
def varsList : List Term → List Var
  | [] => []
  | t :: ts => vars t ++ varsList ts

end

@[simp] theorem vars_var (x : Var) : (Term.var x).vars = [x] := rfl

@[simp] theorem vars_iri (i : String) : (Term.iri i).vars = [] := rfl

@[simp] theorem vars_value (l : Literal) : (Term.value l).vars = [] := rfl

@[simp] theorem vars_app (f : String) (args : List Term) :
    (Term.app f args).vars = varsList args := rfl

@[simp] theorem varsList_nil : varsList [] = [] := rfl

@[simp] theorem varsList_cons (t : Term) (ts : List Term) :
    varsList (t :: ts) = t.vars ++ varsList ts := rfl

theorem varsList_eq_flatMap (ts : List Term) : varsList ts = ts.flatMap vars := by
  induction ts with
  | nil => rfl
  | cons t ts ih => simp [ih]

@[simp] theorem varsList_append (ss ts : List Term) :
    varsList (ss ++ ts) = varsList ss ++ varsList ts := by
  simp [varsList_eq_flatMap]

theorem mem_varsList {x : Var} {ts : List Term} : x ∈ varsList ts ↔ ∃ t ∈ ts, x ∈ t.vars := by
  simp [varsList_eq_flatMap]

/-- Whether no variable occurs in the term. -/
def isGround (t : Term) : Bool := t.vars.isEmpty

/-! ## Simultaneous replacement of variables -/

mutual

/-- Replaces every variable `x` by `f x`, all at once. -/
def bind (f : Var → Term) : Term → Term
  | .var x => f x
  | .iri i => .iri i
  | .value l => .value l
  | .app g args => .app g (bindList f args)

/-- Replaces every variable in a list of terms. -/
def bindList (f : Var → Term) : List Term → List Term
  | [] => []
  | t :: ts => bind f t :: bindList f ts

end

@[simp] theorem bind_var (f : Var → Term) (x : Var) : (Term.var x).bind f = f x := rfl

@[simp] theorem bind_iri (f : Var → Term) (i : String) : (Term.iri i).bind f = .iri i := rfl

@[simp] theorem bind_value (f : Var → Term) (l : Literal) :
    (Term.value l).bind f = .value l := rfl

@[simp] theorem bindList_eq_map (f : Var → Term) (ts : List Term) :
    bindList f ts = ts.map (bind f) := by
  induction ts with
  | nil => rfl
  | cons t ts ih => simp [bindList, ih]

@[simp] theorem bind_app (f : Var → Term) (g : String) (args : List Term) :
    (Term.app g args).bind f = .app g (args.map (bind f)) := by
  simp [bind]

/-- Replacement depends only on the variables that occur. -/
theorem bind_congr {f g : Var → Term} {t : Term} (h : ∀ x ∈ t.vars, f x = g x) :
    t.bind f = t.bind g := by
  induction t using ind with
  | var x => exact h x (by simp)
  | iri i => rfl
  | value l => rfl
  | app n args ih =>
    simp only [bind_app, app.injEq, true_and]
    refine List.map_congr_left fun t ht => ih t ht fun x hx => h x ?_
    rw [vars_app, mem_varsList]
    exact ⟨t, ht, hx⟩

/-- Replacing each variable by itself changes nothing. -/
@[simp] theorem bind_var_eq_self (t : Term) : t.bind Term.var = t := by
  induction t using ind with
  | var x => rfl
  | iri i => rfl
  | value l => rfl
  | app n args ih =>
    simp only [bind_app, app.injEq, true_and]
    calc args.map (bind Term.var) = args.map id := List.map_congr_left ih
      _ = args := List.map_id args

/-- Two replacements in a row are one. -/
theorem bind_bind (f g : Var → Term) (t : Term) :
    (t.bind f).bind g = t.bind fun x => (f x).bind g := by
  induction t using ind with
  | var x => rfl
  | iri i => rfl
  | value l => rfl
  | app n args ih =>
    simp only [bind_app, List.map_map, app.injEq, true_and]
    exact List.map_congr_left ih

/-- The variables left by a replacement are those of the images. -/
theorem mem_vars_bind {f : Var → Term} {y : Var} {t : Term} :
    y ∈ (t.bind f).vars ↔ ∃ x ∈ t.vars, y ∈ (f x).vars := by
  induction t using ind with
  | var x => simp
  | iri i => simp
  | value l => simp
  | app n args ih =>
    simp only [bind_app, vars_app, mem_varsList, List.mem_map]
    constructor
    · rintro ⟨_, ⟨t, ht, rfl⟩, hy⟩
      obtain ⟨x, hx, hxy⟩ := (ih t ht).mp hy
      exact ⟨x, ⟨t, ht, hx⟩, hxy⟩
    · rintro ⟨x, ⟨t, ht, hx⟩, hxy⟩
      exact ⟨_, ⟨t, ht, rfl⟩, (ih t ht).mpr ⟨x, hx, hxy⟩⟩

end Term

end OntoQuery
