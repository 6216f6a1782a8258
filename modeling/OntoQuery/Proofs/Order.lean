import OntoQuery.Rule

/-!
# The orders are linear

Symbols, literals, terms, atoms and rules are compared field by field.  Every comparison here is
transitive, turns around when its sides are exchanged, and says *equal* only of equal things.

Except for terms, a comparison is the lexicographic combination of comparisons of fields, so that
its laws are instances of those of the fields.  Terms contain lists of terms, and their laws are
shown by induction on the term; each law has a version for lists, which assumes the law of the
members.

Things that are not told apart by their comparison are equal, so a list can be put in order in one
way only, and sorting forgets the order in which its members come.

* `IsLinear`: what a comparison of things has to satisfy for this.
* `compare_isLinear`: those of terms, atoms and rules do, and sorting rules has one result.
-/

namespace OntoQuery

/-! ## Symbols and literals -/

instance : Std.TransOrd Symbol :=
  inferInstanceAs (Std.TransCmp (compareLex (compareOn Symbol.name) (compareOn Symbol.arity)))

instance : Std.LawfulEqOrd Symbol where
  compare_self := Std.ReflCmp.compare_self
  eq_of_compare {p q} h := by
    obtain ⟨hn, ha⟩ := compareLex_eq_eq.mp (show compareLex (compareOn Symbol.name)
      (compareOn Symbol.arity) p q = .eq from h)
    cases p
    cases q
    rw [Symbol.mk.injEq]
    exact ⟨Std.LawfulEqOrd.eq_of_compare hn, Std.LawfulEqOrd.eq_of_compare ha⟩

instance : Std.TransOrd Datatype :=
  inferInstanceAs (Std.TransCmp (compareOn Datatype.rank))

instance : Std.LawfulEqOrd Datatype where
  compare_self := Std.ReflCmp.compare_self
  eq_of_compare {d e} h := by
    have hrank : d.rank = e.rank :=
      Std.LawfulEqOrd.eq_of_compare (show compare d.rank e.rank = .eq from h)
    cases d <;> cases e <;> simp_all [Datatype.rank]

/-- Literals are compared by three fields. -/
theorem Literal.compare_eq_compareLex :
    (Ord.compare : Literal → Literal → Ordering) =
      compareLex (compareOn Literal.lexical)
        (compareLex (compareOn Literal.datatype) (compareOn Literal.language?)) := by
  funext l m
  show Literal.compare l m = _
  rw [Literal.compare, compareLex, compareLex, compareOn, compareOn, compareOn]
  cases l.language? <;> cases m.language? <;> rfl

instance : Std.TransOrd Literal := by
  rw [Std.TransOrd, Literal.compare_eq_compareLex]
  infer_instance

instance : Std.LawfulEqOrd Literal where
  compare_self := Std.ReflCmp.compare_self
  eq_of_compare {l m} h := by
    rw [Literal.compare_eq_compareLex, compareLex_eq_eq, compareLex_eq_eq] at h
    have hlex : l.lexical = m.lexical := Std.LawfulEqOrd.eq_of_compare h.1
    have hdt : l.datatype = m.datatype := Std.LawfulEqOrd.eq_of_compare h.2.1
    have hlang : l.language? = m.language? := Std.LawfulEqOrd.eq_of_compare h.2.2
    cases l <;> cases m <;> simp_all [Literal.lexical, Literal.datatype, Literal.language?]

/-! ## Terms -/

namespace Term

/-- Lists of terms are compared as lists are. -/
theorem compareList_eq_compareLex (ss ts : List Term) :
    compareList ss ts = List.compareLex Term.compare ss ts := by
  induction ss generalizing ts with
  | nil => cases ts <;> rfl
  | cons s ss ih =>
    cases ts with
    | nil => rfl
    | cons t ts => rw [compareList, List.compareLex_cons_cons, ih]

theorem compareList_eq_eq {ss : List Term} (h : ∀ s ∈ ss, ∀ t, compare s t = .eq ↔ s = t)
    (ts : List Term) : compareList ss ts = .eq ↔ ss = ts := by
  induction ss generalizing ts with
  | nil => cases ts <;> simp [compareList]
  | cons s ss ih =>
    cases ts with
    | nil => simp [compareList]
    | cons t ts =>
      rw [compareList, Ordering.then_eq_eq, h s (List.mem_cons_self ..),
        ih (fun u hu => h u (List.mem_cons_of_mem _ hu)), List.cons.injEq]

/-- Only equal terms are compared as equal. -/
theorem compare_eq_eq (s t : Term) : compare s t = .eq ↔ s = t := by
  induction s using ind generalizing t with
  | var x => cases t <;> simp [compare]
  | iri i => cases t <;> simp [compare]
  | value l => cases t <;> simp [compare]
  | app f ss ih =>
    cases t with
    | var y => simp [compare]
    | iri j => simp [compare]
    | value m => simp [compare]
    | app g ts =>
      rw [compare, Ordering.then_eq_eq, Ordering.then_eq_eq, compareList_eq_eq ih, app.injEq,
        Std.LawfulEqCmp.compare_eq_iff_eq, Std.LawfulEqCmp.compare_eq_iff_eq]
      constructor
      · rintro ⟨hf, -, hs⟩
        exact ⟨hf, hs⟩
      · rintro ⟨hf, hs⟩
        exact ⟨hf, congrArg List.length hs, hs⟩

theorem compareList_swap {ss : List Term} (h : ∀ s ∈ ss, ∀ t, compare s t = (compare t s).swap)
    (ts : List Term) : compareList ss ts = (compareList ts ss).swap := by
  induction ss generalizing ts with
  | nil => cases ts <;> rfl
  | cons s ss ih =>
    cases ts with
    | nil => rfl
    | cons t ts =>
      rw [compareList, compareList, Ordering.swap_then, h s (List.mem_cons_self ..),
        ih fun u hu => h u (List.mem_cons_of_mem _ hu)]

/-- Exchanging the sides turns a comparison around. -/
theorem compare_swap (s t : Term) : compare s t = (compare t s).swap := by
  induction s using ind generalizing t with
  | var x =>
    cases t with
    | var y => exact Std.OrientedOrd.eq_swap
    | iri j => rfl
    | value m => rfl
    | app g ts => rfl
  | iri i =>
    cases t with
    | var y => rfl
    | iri j => exact Std.OrientedOrd.eq_swap
    | value m => rfl
    | app g ts => rfl
  | value l =>
    cases t with
    | var y => rfl
    | iri j => rfl
    | value m => exact Std.OrientedOrd.eq_swap
    | app g ts => rfl
  | app f ss ih =>
    cases t with
    | var y => rfl
    | iri j => rfl
    | value m => rfl
    | app g ts =>
      rw [compare, compare, Ordering.swap_then, Ordering.swap_then, compareList_swap ih,
        ← Std.OrientedOrd.eq_swap, ← Std.OrientedOrd.eq_swap]

/-- Transitivity at one term implies its strict forms there, since the comparison is antisymmetric
everywhere. -/
theorem compare_eq_lt_of_trans {s t u : Term}
    (h : (compare s t).isLE → (compare t u).isLE → (compare s u).isLE)
    (hs : (compare s t).isLE) (ht : (compare t u).isLE)
    (hlt : compare s t = .lt ∨ compare t u = .lt) : compare s u = .lt := by
  have hle := h hs ht
  cases hsu : compare s u with
  | lt => rfl
  | gt => simp [hsu] at hle
  | eq =>
    -- then `s = u`, and `t` lies strictly on one side of it and weakly on the other
    obtain rfl := (compare_eq_eq s u).mp hsu
    rw [compare_swap t s] at ht hlt
    cases hst : compare s t <;> simp [hst] at hs ht hlt

theorem compareList_isLE_trans {ss : List Term}
    (h : ∀ s ∈ ss, ∀ t u, (compare s t).isLE → (compare t u).isLE → (compare s u).isLE)
    {ts us : List Term} (hs : (compareList ss ts).isLE) (ht : (compareList ts us).isLE) :
    (compareList ss us).isLE := by
  induction ss generalizing ts us with
  | nil => cases us <;> simp [compareList]
  | cons s ss ih =>
    cases ts with
    | nil => simp [compareList] at hs
    | cons t ts =>
      cases us with
      | nil => simp [compareList] at ht
      | cons u us =>
        rw [compareList, Ordering.isLE_then_iff_and] at hs ht ⊢
        have hstu := h s (List.mem_cons_self ..) t u
        refine ⟨hstu hs.1 ht.1, ?_⟩
        rcases hs.2 with hst | hss
        · exact Or.inl (compare_eq_lt_of_trans hstu hs.1 ht.1 (Or.inl hst))
        · rcases ht.2 with htu | hts
          · exact Or.inl (compare_eq_lt_of_trans hstu hs.1 ht.1 (Or.inr htu))
          · exact Or.inr (ih (fun v hv => h v (List.mem_cons_of_mem _ hv)) hss hts)

/-- The comparison of symbols by which applications are compared first. -/
theorem compare_app (f g : String) (ss ts : List Term) :
    compare (.app f ss) (.app g ts) =
      (Ord.compare (Symbol.mk f ss.length) ⟨g, ts.length⟩).then (compareList ss ts) := by
  show _ = (Symbol.compare _ _).then _
  rw [compare, Symbol.compare, Ordering.then_assoc]

theorem compare_isLE_trans (s t u : Term) (hs : (compare s t).isLE) (ht : (compare t u).isLE) :
    (compare s u).isLE := by
  induction s using ind generalizing t u with
  | var x =>
    cases u with
    | var z =>
      cases t with
      | var y => exact Std.TransOrd.isLE_trans (α := Var) hs ht
      | iri j => simp [compare] at ht
      | value m => simp [compare] at ht
      | app g ts => simp [compare] at ht
    | iri k => rfl
    | value n => rfl
    | app k us => rfl
  | iri i =>
    cases t with
    | var y => simp [compare] at hs
    | iri j =>
      cases u with
      | var z => simp [compare] at ht
      | iri k => exact Std.TransOrd.isLE_trans (α := String) hs ht
      | value n => rfl
      | app k us => rfl
    | value m => cases u <;> simp_all [compare]
    | app g ts => cases u <;> simp_all [compare]
  | value l =>
    cases t with
    | var y => simp [compare] at hs
    | iri j => simp [compare] at hs
    | value m =>
      cases u with
      | var z => simp [compare] at ht
      | iri k => simp [compare] at ht
      | value n => exact Std.TransOrd.isLE_trans (α := Literal) hs ht
      | app k us => rfl
    | app g ts => cases u <;> simp_all [compare]
  | app f ss ih =>
    cases t with
    | var y => simp [compare] at hs
    | iri j => simp [compare] at hs
    | value m => simp [compare] at hs
    | app g ts =>
      cases u with
      | var z => simp [compare] at ht
      | iri k => simp [compare] at ht
      | value n => simp [compare] at ht
      | app k us =>
        rw [compare_app, Ordering.isLE_then_iff_and] at hs ht ⊢
        refine ⟨Std.TransOrd.isLE_trans hs.1 ht.1, ?_⟩
        rcases hs.2 with hfg | hss
        · exact Or.inl (Std.TransCmp.lt_of_lt_of_isLE hfg ht.1)
        · rcases ht.2 with hgk | hts
          · exact Or.inl (Std.TransCmp.lt_of_isLE_of_lt hs.1 hgk)
          · exact Or.inr (compareList_isLE_trans ih hss hts)

end Term

instance : Std.TransOrd Term where
  eq_swap {s t} := Term.compare_swap s t
  isLE_trans {s t u} := Term.compare_isLE_trans s t u

instance : Std.LawfulEqOrd Term where
  compare_self {s} := (Term.compare_eq_eq s s).mpr rfl
  eq_of_compare {s t} h := (Term.compare_eq_eq s t).mp h

/-! ## Atoms and rules -/

/-- Atoms are compared by predicate, terms, and whether they are wildcards. -/
theorem Atom.compare_eq_compareLex :
    (Ord.compare : Atom → Atom → Ordering) =
      compareLex (compareOn Atom.predicate)
        (compareLex (compareOn Atom.args) (compareOn Atom.isWildcard)) := by
  funext a b
  show Atom.compare a b = _
  rw [Atom.compare, Term.compareList_eq_compareLex, compareLex, compareLex, compareOn, compareOn,
    compareOn]
  cases a.isWildcard <;> cases b.isWildcard <;> rfl

instance : Std.TransOrd Atom := by
  rw [Std.TransOrd, Atom.compare_eq_compareLex]
  infer_instance

instance : Std.LawfulEqOrd Atom where
  compare_self := Std.ReflCmp.compare_self
  eq_of_compare {a b} h := by
    rw [Atom.compare_eq_compareLex, compareLex_eq_eq, compareLex_eq_eq] at h
    have hp : a.predicate = b.predicate := Std.LawfulEqOrd.eq_of_compare h.1
    have hargs : a.args = b.args := Std.LawfulEqOrd.eq_of_compare h.2.1
    have hw : a.isWildcard = b.isWildcard := Std.LawfulEqOrd.eq_of_compare h.2.2
    exact Atom.eq_iff.mpr ⟨hp, hargs, hw⟩

/-- Rules are compared by head and body. -/
theorem Rule.compare_eq_compareLex :
    (Ord.compare : Rule → Rule → Ordering) =
      compareLex (compareOn Rule.head) (compareOn Rule.body) := by
  funext r s
  show Rule.compare r s = _
  rw [Rule.compare, compareLex, compareOn, compareOn]
  cases r.head <;> cases s.head <;> cases r.body <;> cases s.body <;> rfl

instance : Std.TransOrd Rule := by
  rw [Std.TransOrd, Rule.compare_eq_compareLex]
  infer_instance

instance : Std.LawfulEqOrd Rule where
  compare_self := Std.ReflCmp.compare_self
  eq_of_compare {r s} h := by
    rw [Rule.compare_eq_compareLex, compareLex_eq_eq] at h
    have hh : r.head = s.head := Std.LawfulEqOrd.eq_of_compare h.1
    have hb : r.body = s.body := Std.LawfulEqOrd.eq_of_compare h.2
    cases r
    cases s
    rw [Rule.mk.injEq]
    exact ⟨hh, hb⟩

/-! ## Sorting -/

/-- Whether a comparison puts everything into one line and tells all things apart. -/
structure IsLinear {α : Type} (cmp : α → α → Ordering) : Prop where
  /-- Only equal things are compared as equal. -/
  eq_iff : ∀ a b, cmp a b = .eq ↔ a = b
  /-- Exchanging the sides turns a comparison around. -/
  swap : ∀ a b, cmp b a = (cmp a b).swap
  /-- What comes before something that comes before a third thing comes before that. -/
  trans : ∀ a b c, cmp a b = .lt → cmp b c = .lt → cmp a c = .lt

section

variable {α : Type} [Ord α] [Std.TransOrd α] {l m : List α}

theorem IsLinear.of_transOrd [Std.LawfulEqOrd α] : IsLinear (compare : α → α → Ordering) where
  eq_iff _ _ := Std.LawfulEqCmp.compare_eq_iff_eq
  swap _ _ := Std.OrientedCmp.eq_swap
  trans _ _ _ := Std.TransCmp.lt_trans

theorem pairwise_mergeSort_compare (l : List α) :
    (l.mergeSort fun a b => (compare a b).isLE).Pairwise fun a b => (compare a b).isLE = true := by
  refine List.pairwise_mergeSort (fun a b c => Std.TransCmp.isLE_trans) (fun a b => ?_) l
  have hswap : compare b a = (compare a b).swap := Std.OrientedCmp.eq_swap
  show ((compare a b).isLE || (compare b a).isLE) = true
  rw [hswap]
  cases compare a b <;> rfl

/-- Lists in order are equal if they have the same members equally often. -/
theorem eq_of_perm_of_pairwise [Std.LawfulEqOrd α] (h : l.Perm m)
    (hl : l.Pairwise fun a b => (compare a b).isLE = true)
    (hm : m.Pairwise fun a b => (compare a b).isLE = true) : l = m := by
  refine List.Perm.eq_of_pairwise (fun a b _ _ hab hba => ?_) hl hm h
  have hswap : compare b a = (compare a b).swap := Std.OrientedCmp.eq_swap
  rw [hswap] at hba
  exact Std.LawfulEqOrd.eq_of_compare (Ordering.eq_eq_of_isLE_of_isLE_swap hab hba)

/-- Sorting makes lists with the same members the same. -/
theorem mergeSort_eq_of_perm [Std.LawfulEqOrd α] (h : l.Perm m) :
    (l.mergeSort fun a b => (compare a b).isLE) = m.mergeSort fun a b => (compare a b).isLE :=
  eq_of_perm_of_pairwise
    ((List.mergeSort_perm l _).trans (h.trans (List.mergeSort_perm m _).symm))
    (pairwise_mergeSort_compare l) (pairwise_mergeSort_compare m)

end

/-- **The orders are linear.**  Terms, atoms and rules are compared in a way that is transitive,
turns around when sides are exchanged, and says *equal* only of equal things.  So a list of rules
can be put in order in just one way, which sorting finds, and it does not matter in which order the
rules come. -/
theorem compare_isLinear :
    IsLinear (compare : Term → Term → Ordering) ∧ IsLinear (compare : Atom → Atom → Ordering) ∧
      IsLinear (compare : Rule → Rule → Ordering) ∧
      (∀ l s : List Rule, s = (l.mergeSort fun r s => (compare r s).isLE) ↔
        s.Perm l ∧ s.Pairwise fun r s => (compare r s).isLE = true) ∧
      ∀ l m : List Rule, l.Perm m → (l.mergeSort fun r s => (compare r s).isLE) =
        m.mergeSort fun r s => (compare r s).isLE := by
  refine ⟨.of_transOrd, .of_transOrd, .of_transOrd, fun l s => ⟨?_, ?_⟩,
    fun l m => mergeSort_eq_of_perm⟩
  · rintro rfl
    exact ⟨List.mergeSort_perm l _, pairwise_mergeSort_compare l⟩
  · rintro ⟨hperm, hsorted⟩
    exact eq_of_perm_of_pairwise (hperm.trans (List.mergeSort_perm l _).symm) hsorted
      (pairwise_mergeSort_compare l)

/-- A query without a head about a text in some language, or in none. -/
def mentions (text : Literal) : Rule :=
  ⟨none, some [.plain "p" [.app "f" [.var ⟨"x"⟩, .value text]]]⟩

/-- A text without a language comes before the same text in some language, and any query without a
head before the rules with one. -/
theorem compare_isLinear_mentions :
    let r := mentions (.typed "a" .literal)
    let s := mentions (.tagged "a" "en")
    let t : Rule := ⟨some (.wildcard "p"), none⟩
    compare r s = .lt ∧ compare s t = .lt ∧ compare r t = .lt ∧ compare t r = .gt ∧
    ([s, t, r].mergeSort fun r s => (compare r s).isLE) = [r, s, t] ∧
    ([t, s, r].mergeSort fun r s => (compare r s).isLE) = [r, s, t] := by
  intro r s t
  obtain ⟨-, -, hlinear, hsorted, hperm⟩ := compare_isLinear
  have hrs : compare r s = .lt := by decide
  have hst : compare s t = .lt := by decide
  have hsort : ([s, t, r].mergeSort fun r s => (compare r s).isLE) = [r, s, t] :=
    ((hsorted [s, t, r] [r, s, t]).mpr ⟨by decide, by decide⟩).symm
  refine ⟨hrs, hst, hlinear.trans r s t hrs hst, ?_, hsort, ?_⟩
  · rw [hlinear.swap r t, hlinear.trans r s t hrs hst]
    rfl
  · rw [hperm [t, s, r] [s, t, r] (by decide), hsort]

end OntoQuery
