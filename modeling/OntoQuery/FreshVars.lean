import OntoQuery.Distinct
import OntoQuery.Renaming

/-!
# Supplies of fresh variables

A supply hands out the variables `_stem0`, `_stem1`, … one after another and
passes over those that have been reserved.  The index only grows, so no variable
is handed out twice, whatever is reserved in between.

The search for the next variable needs no more steps than there are reserved
variables, since its candidates are distinct (`candidate_inj`):

* `fresh_notMem_reserved`: what is handed out is not reserved.
* `renamingFor` renames distinct variables to distinct fresh ones; that it is an
  injective renaming is `nodup_issue`.
-/

namespace OntoQuery

/-- A supply of variables that do not occur elsewhere. -/
structure FreshVars where
  /-- What the names of all variables of the supply start with, after an
  underscore. -/
  stem : String
  /-- The index from which the next variable is searched. -/
  next : Nat := 0
  /-- The variables that must not be handed out. -/
  reserved : List Var := []
  deriving DecidableEq, Repr

namespace FreshVars

/-- The supply with the stem `v`. -/
instance : Inhabited FreshVars := ⟨⟨"v", 0, []⟩⟩

/-- The variable with a given index. -/
def candidate (g : FreshVars) (n : Nat) : Var := ⟨"_" ++ g.stem ++ toString n⟩

theorem candidate_inj {g : FreshVars} {m n : Nat} (h : g.candidate m = g.candidate n) : m = n := by
  have hs : toString m = toString n := by
    simpa [candidate, String.append_right_inj] using h
  have hl : Nat.toDigits 10 m = Nat.toDigits 10 n := by
    simpa [Nat.toString_eq_repr, Nat.toList_repr] using congrArg String.toList hs
  rw [← Nat.ofDigitChars_ten_toDigits (n := m), hl, Nat.ofDigitChars_ten_toDigits]

/-- Keeps variables from being handed out. -/
def reserve (g : FreshVars) (xs : List Var) : FreshVars :=
  { g with reserved := (g.reserved ++ xs).eraseDups }

/-- The first index from `n` on whose variable is not reserved, if there is one
within `k` steps. -/
def firstFree (g : FreshVars) : Nat → Nat → Nat
  | 0, n => n
  | k + 1, n => if g.candidate n ∈ g.reserved then g.firstFree k (n + 1) else n

/-- The index of the variable that is handed out next. -/
def index (g : FreshVars) : Nat := g.firstFree g.reserved.length g.next

/-- Hands out a variable. -/
def fresh (g : FreshVars) : Var × FreshVars :=
  (g.candidate g.index, { g with next := g.index + 1 })

/-- The number of indices that have been used up. -/
def generated (g : FreshVars) : Nat := g.next

/-! ## Freshness -/

theorem le_firstFree (g : FreshVars) (k n : Nat) : n ≤ g.firstFree k n := by
  induction k generalizing n with
  | zero => exact Nat.le_refl n
  | succ k ih =>
    unfold firstFree
    split
    · exact Nat.le_trans (Nat.le_succ n) (ih (n + 1))
    · exact Nat.le_refl n

theorem next_le_index (g : FreshVars) : g.next ≤ g.index := g.le_firstFree _ _

/-- If the search ends on a reserved variable, it has met as many reserved ones
as it has made steps. -/
theorem reserved_of_firstFree (g : FreshVars) (k n : Nat)
    (h : g.candidate (g.firstFree k n) ∈ g.reserved) :
    ∀ i ≤ k, g.candidate (n + i) ∈ g.reserved := by
  induction k generalizing n with
  | zero =>
    intro i hi
    obtain rfl : i = 0 := by omega
    exact h
  | succ k ih =>
    unfold firstFree at h
    split at h
    · rename_i hn
      intro i hi
      cases i with
      | zero => exact hn
      | succ i =>
        rw [show n + (i + 1) = n + 1 + i by omega]
        exact ih (n + 1) h i (by omega)
    · contradiction

/-- A variable that is handed out is not reserved. -/
theorem fresh_notMem_reserved (g : FreshVars) : g.fresh.1 ∉ g.reserved := by
  intro h
  have hall := g.reserved_of_firstFree g.reserved.length g.next h
  let cs := (List.range (g.reserved.length + 1)).map fun i => g.candidate (g.next + i)
  have hn : cs.Nodup := by
    refine List.Pairwise.map _ (fun i j hij hc => hij ?_) List.nodup_range
    have := candidate_inj hc
    omega
  have hs : cs ⊆ g.reserved := by
    intro x hx
    obtain ⟨i, hi, rfl⟩ := List.mem_map.mp hx
    exact hall i (by have := List.mem_range.mp hi; omega)
  have := hn.length_le_of_subset hs
  simp only [cs, List.length_map, List.length_range] at this
  omega

/-! ## Renaming apart -/

/-- Hands out one variable for each of a list, paired with it. -/
def issue (g : FreshVars) : List Var → List (Var × Var) × FreshVars
  | [] => ([], g)
  | x :: xs =>
    let (y, g') := g.fresh
    let (ps, g'') := g'.issue xs
    ((x, y) :: ps, g'')

/-- The variables handed out for a list have indices from `next` on. -/
theorem index_of_mem_issue (g : FreshVars) (xs : List Var) {y : Var}
    (h : y ∈ (g.issue xs).1.map Prod.snd) : ∃ n, g.next ≤ n ∧ y = g.candidate n := by
  induction xs generalizing g with
  | nil => simp [issue] at h
  | cons x xs ih =>
    simp only [issue, List.map_cons, List.mem_cons] at h
    rcases h with rfl | h
    · exact ⟨g.index, g.next_le_index, rfl⟩
    · obtain ⟨n, hn, rfl⟩ := ih g.fresh.2 h
      refine ⟨n, ?_, rfl⟩
      have := g.next_le_index
      simp only [fresh] at hn
      omega

/-- The variables handed out for a list are distinct. -/
theorem nodup_issue (g : FreshVars) (xs : List Var) :
    ((g.issue xs).1.map Prod.snd).Nodup := by
  induction xs generalizing g with
  | nil => simp [issue]
  | cons x xs ih =>
    simp only [issue, List.map_cons, List.nodup_cons]
    refine ⟨fun h => ?_, ih g.fresh.2⟩
    obtain ⟨n, hn, he⟩ := index_of_mem_issue g.fresh.2 xs h
    have := candidate_inj (g := g) he
    simp only [fresh] at hn
    omega

/-- In a list of pairs with distinct second components, these determine the
first ones. -/
theorem fst_eq_of_nodup {ps : List (Var × Var)} (hn : (ps.map Prod.snd).Nodup) {x y z : Var}
    (hx : (x, z) ∈ ps) (hy : (y, z) ∈ ps) : x = y := by
  induction ps with
  | nil => simp at hx
  | cons p ps ih =>
    rw [List.map_cons, List.nodup_cons] at hn
    rcases List.mem_cons.mp hx with rfl | hx' <;> rcases List.mem_cons.mp hy with hy' | hy'
    · exact (congrArg Prod.fst hy').symm
    · exact absurd (List.mem_map.mpr ⟨_, hy', rfl⟩) hn.1
    · subst hy'
      exact absurd (List.mem_map.mpr ⟨_, hx', rfl⟩) hn.1
    · exact ih hn.2 hx' hy'

/-- The renaming of each of a list of variables to a fresh variable. -/
def renamingFor (g : FreshVars) (xs : List Var) : Renaming × FreshVars :=
  let issued := g.issue xs.eraseDups
  ({ targets := VarMap.ofList issued.1
     injective := fun hx hy => fst_eq_of_nodup (g.nodup_issue _)
       (VarMap.mem_of_getElem?_ofList hx) (VarMap.mem_of_getElem?_ofList hy) },
   issued.2)

end FreshVars

end OntoQuery
