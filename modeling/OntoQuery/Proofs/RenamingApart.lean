import OntoQuery.FreshVars

/-!
# Renaming apart

A supply *avoids* variables that it will never hand out: they are reserved, or they have an index
that has been used up.  What a supply avoids it also avoids later on, whatever is handed out in
between (`Avoids.mono`), and it avoids what it has handed out (`issue_avoids`).

Renaming a list of variables apart therefore takes distinct variables to distinct ones that occur
nowhere else: `RenamesApart` collects this, and `renamingFor_renamesApart` says that
`FreshVars.renamingFor` does it.
-/

namespace OntoQuery

namespace FreshVars

variable {g g' g'' : FreshVars} {xs ys : List Var}

/-! ## Later supplies -/

/-- Whether a supply arises from another one by handing out variables. -/
structure Before (g g' : FreshVars) : Prop where
  /-- The stem stays. -/
  stem : g'.stem = g.stem
  /-- So do the reserved variables. -/
  reserved : g'.reserved = g.reserved
  /-- The index only grows. -/
  next : g.next ≤ g'.next

theorem Before.refl (g : FreshVars) : g.Before g := ⟨rfl, rfl, Nat.le_refl _⟩

theorem Before.trans (h : g.Before g') (h' : g'.Before g'') : g.Before g'' :=
  ⟨h'.stem.trans h.stem, h'.reserved.trans h.reserved, Nat.le_trans h.next h'.next⟩

theorem Before.candidate_eq (h : g.Before g') (n : Nat) : g'.candidate n = g.candidate n := by
  rw [candidate, candidate, h.stem]

theorem fresh_before (g : FreshVars) : g.Before g.fresh.2 :=
  ⟨rfl, rfl, Nat.le_succ_of_le g.next_le_index⟩

theorem issue_before (g : FreshVars) (xs : List Var) : g.Before (g.issue xs).2 := by
  induction xs generalizing g with
  | nil => exact Before.refl g
  | cons x xs ih => exact g.fresh_before.trans (ih g.fresh.2)

/-! ## What is never handed out -/

/-- Whether none of the variables will be handed out. -/
def Avoids (g : FreshVars) (xs : List Var) : Prop :=
  ∀ x ∈ xs, x ∈ g.reserved ∨ ∃ n < g.next, x = g.candidate n

theorem Avoids.mono (h : g.Avoids xs) (hg : g.Before g') (hs : ys ⊆ xs) : g'.Avoids ys := by
  intro x hx
  rcases h x (hs hx) with hr | ⟨n, hn, rfl⟩
  · exact Or.inl (hg.reserved ▸ hr)
  · exact Or.inr ⟨n, Nat.lt_of_lt_of_le hn hg.next, (hg.candidate_eq n).symm⟩

theorem Avoids.append (h : g.Avoids xs) (h' : g.Avoids ys) : g.Avoids (xs ++ ys) := by
  intro x hx
  rcases List.mem_append.mp hx with hx | hx
  · exact h x hx
  · exact h' x hx

theorem avoids_reserve (g : FreshVars) (xs : List Var) : (g.reserve xs).Avoids xs := by
  intro x hx
  refine Or.inl ?_
  rw [reserve, List.mem_eraseDups]
  exact List.mem_append_right _ hx

/-- What is handed out was not avoided. -/
theorem fresh_notMem (h : g.Avoids xs) : g.fresh.1 ∉ xs := by
  intro hx
  rcases h _ hx with hr | ⟨n, hn, he⟩
  · exact g.fresh_notMem_reserved hr
  · have hindex := candidate_inj he
    have hle := g.next_le_index
    omega

theorem issue_notMem (h : g.Avoids xs) {y : Var} (hy : y ∈ (g.issue ys).1.map Prod.snd) :
    y ∉ xs := by
  induction ys generalizing g with
  | nil => simp [issue] at hy
  | cons z ys ih =>
    simp only [issue, List.map_cons, List.mem_cons] at hy
    rcases hy with rfl | hy
    · exact fresh_notMem h
    · exact ih (h.mono g.fresh_before (List.Subset.refl _)) hy

/-- A supply avoids what it has handed out. -/
theorem issue_avoids (g : FreshVars) (xs : List Var) :
    (g.issue xs).2.Avoids ((g.issue xs).1.map Prod.snd) := by
  induction xs generalizing g with
  | nil => intro x hx; simp [issue] at hx
  | cons x xs ih =>
    intro y hy
    simp only [issue, List.map_cons, List.mem_cons] at hy
    rcases hy with rfl | hy
    · have hlater := g.fresh.2.issue_before xs
      exact Or.inr ⟨g.index, hlater.next, (hlater.candidate_eq _).symm⟩
    · exact ih g.fresh.2 y hy

theorem map_fst_issue (g : FreshVars) (xs : List Var) : (g.issue xs).1.map Prod.fst = xs := by
  induction xs generalizing g with
  | nil => rfl
  | cons x xs ih => simp only [issue, List.map_cons, ih]

/-! ## Renaming apart -/

/-- What renaming the variables `xs` apart achieves, with a supply that is `g` before and `g'`
afterwards. -/
structure RenamesApart (g : FreshVars) (xs : List Var) (m : Renaming) (g' : FreshVars) : Prop where
  /-- Distinct variables stay distinct. -/
  injOn : ∀ x ∈ xs, ∀ y ∈ xs, m.applyVar x = m.applyVar y → x = y
  /-- The new variables are none that the supply avoids. -/
  apart : ∀ {ys}, g.Avoids ys → ∀ x ∈ xs, m.applyVar x ∉ ys
  /-- The supply goes on. -/
  before : g.Before g'
  /-- It will not hand out the new variables again. -/
  avoids : g'.Avoids (xs.map m.applyVar)

theorem mem_domain_renamingFor {x : Var} : x ∈ (g.renamingFor xs).1.domain ↔ x ∈ xs := by
  rw [Renaming.mem_domain, ← Option.isSome_iff_exists, renamingFor, VarMap.isSome_getElem?_ofList,
    map_fst_issue, List.mem_eraseDups]

theorem image_renamingFor_subset :
    (g.renamingFor xs).1.image ⊆ xs.map (g.renamingFor xs).1.applyVar := by
  intro z hz
  obtain ⟨x, hx⟩ := Renaming.mem_image.mp hz
  have hmem : x ∈ xs := mem_domain_renamingFor.mp (Renaming.mem_domain.mpr ⟨z, hx⟩)
  exact List.mem_map.mpr ⟨x, hmem, Renaming.applyVar_of_getElem? hx⟩

/-- A variable is renamed to the one that was handed out for it. -/
theorem mem_issue_applyVar (g : FreshVars) {x : Var} (hx : x ∈ xs) :
    (x, (g.renamingFor xs).1.applyVar x) ∈ (g.issue xs.eraseDups).1 := by
  obtain ⟨y, hy⟩ := Renaming.mem_domain.mp (mem_domain_renamingFor (g := g).mpr hx)
  rw [Renaming.applyVar_of_getElem? hy]
  exact VarMap.mem_of_getElem?_ofList hy

theorem renamingFor_renamesApart (g : FreshVars) (xs : List Var) :
    g.RenamesApart xs (g.renamingFor xs).1 (g.renamingFor xs).2 := by
  have hsnd : ∀ x ∈ xs,
      (g.renamingFor xs).1.applyVar x ∈ (g.issue xs.eraseDups).1.map Prod.snd := fun x hx =>
    List.mem_map.mpr ⟨_, g.mem_issue_applyVar hx, rfl⟩
  refine ⟨fun x hx y hy he => ?_, fun hys x hx => ?_, g.issue_before _, fun y hy => ?_⟩
  · have hpx := g.mem_issue_applyVar hx
    rw [he] at hpx
    exact fst_eq_of_nodup (g.nodup_issue _) hpx (g.mem_issue_applyVar hy)
  · exact issue_notMem hys (hsnd x hx)
  · obtain ⟨x, hx, rfl⟩ := List.mem_map.mp hy
    exact g.issue_avoids _ _ (hsnd x hx)

end FreshVars

end OntoQuery
