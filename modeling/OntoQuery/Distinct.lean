/-!
# Counting distinct entries

The number of distinct entries of a list is the length of the list without
duplicates.  It depends only on the set of entries, and
`length_eraseDups_lt` says that losing an entry makes it smaller.
-/

namespace OntoQuery

variable {α : Type} [BEq α] [LawfulBEq α]

/-- Erasing duplicates leaves none. -/
theorem nodup_eraseDups : ∀ l : List α, l.eraseDups.Nodup
  | [] => by simp
  | a :: l => by
    rw [List.eraseDups_cons, List.nodup_cons]
    exact ⟨by simp [List.mem_eraseDups], nodup_eraseDups _⟩
termination_by l => l.length
decreasing_by exact Nat.lt_succ_of_le (List.length_filter_le _ _)

theorem length_eraseDups_le {l m : List α} (h : l ⊆ m) :
    l.eraseDups.length ≤ m.eraseDups.length :=
  (nodup_eraseDups l).length_le_of_subset fun _ hx =>
    List.mem_eraseDups.mpr (h (List.mem_eraseDups.mp hx))

/-- A list that misses an entry of a larger one has fewer distinct entries. -/
theorem length_eraseDups_lt {l m : List α} {x : α} (h : l ⊆ m) (hm : x ∈ m) (hl : x ∉ l) :
    l.eraseDups.length < m.eraseDups.length := by
  have hn : (x :: l.eraseDups).Nodup :=
    List.nodup_cons.mpr ⟨fun hx => hl (List.mem_eraseDups.mp hx), nodup_eraseDups l⟩
  refine hn.length_le_of_subset fun y hy => List.mem_eraseDups.mpr ?_
  rcases List.mem_cons.mp hy with rfl | hy
  · exact hm
  · exact h (List.mem_eraseDups.mp hy)

/-- The first entry that satisfies a test is no later duplicate. -/
theorem find?_eraseDups (P : α → Bool) : ∀ l : List α, l.eraseDups.find? P = l.find? P
  | [] => rfl
  | a :: l => by
    rw [List.eraseDups_cons]
    cases ha : P a with
    | true => rw [List.find?_cons_of_pos ha, List.find?_cons_of_pos ha]
    | false =>
      have hne : (fun b => decide ((!b == a) = true ∧ P b = true)) = P := by
        funext b
        rw [Bool.eq_iff_iff, decide_eq_true_eq, Bool.not_eq_true', beq_eq_false_iff_ne]
        exact and_iff_right_of_imp fun hb he => by simp [← he, hb] at ha
      rw [List.find?_cons_of_neg (by simp [ha]), List.find?_cons_of_neg (by simp [ha]),
        find?_eraseDups P, List.find?_filter, hne]
termination_by l => l.length
decreasing_by exact Nat.lt_succ_of_le (List.length_filter_le _ _)

/-! ## Appending -/

theorem eraseDups_of_nodup : ∀ {l : List α}, l.Nodup → l.eraseDups = l
  | [], _ => rfl
  | a :: l, h => by
    obtain ⟨ha, hl⟩ := List.nodup_cons.mp h
    have hfilter : l.filter (fun b => !b == a) = l := by
      refine List.filter_eq_self.mpr fun b hb => ?_
      rw [Bool.not_eq_true', beq_eq_false_iff_ne]
      exact fun he => ha (he ▸ hb)
    rw [List.eraseDups_cons, hfilter, eraseDups_of_nodup hl]

/-- The distinct entries of a list come first among those of a longer one. -/
theorem eraseDups_prefix (l m : List α) : l.eraseDups <+: (l ++ m).eraseDups := by
  rw [List.eraseDups_append]
  exact List.prefix_append _ _

/-- Duplicates may be erased before another list is appended. -/
theorem eraseDups_eraseDups_append (l m : List α) :
    (l.eraseDups ++ m).eraseDups = (l ++ m).eraseDups := by
  have hremove : m.removeAll l.eraseDups = m.removeAll l := by
    refine List.filter_congr fun x _ => ?_
    rw [Bool.eq_iff_iff]
    simp only [List.contains_eq_mem, List.mem_eraseDups]
  rw [List.eraseDups_append, List.eraseDups_append, eraseDups_of_nodup (nodup_eraseDups l), hremove]

/-! ## Renaming the entries -/

variable {β : Type} [BEq β] [LawfulBEq β] {f : α → β}

theorem eraseDups_map : ∀ {l : List α}, (∀ x ∈ l, ∀ y ∈ l, f x = f y → x = y) →
    (l.map f).eraseDups = l.eraseDups.map f
  | [], _ => rfl
  | a :: l, hf => by
    have hfilter : (l.map f).filter (fun b => !b == f a) = (l.filter fun b => !b == a).map f := by
      rw [List.filter_map]
      refine congrArg (List.map f) (List.filter_congr fun x hx => ?_)
      have hxa : f x = f a ↔ x = a :=
        ⟨hf x (List.mem_cons_of_mem _ hx) a (List.mem_cons_self ..), congrArg f⟩
      rw [Function.comp_apply, Bool.eq_iff_iff]
      simp only [Bool.not_eq_true', beq_eq_false_iff_ne, ne_eq, hxa]
    have hrest : ∀ x ∈ l.filter fun b => !b == a, x ∈ a :: l := fun x hx =>
      List.mem_cons_of_mem _ (List.mem_filter.mp hx).1
    rw [List.map_cons, List.eraseDups_cons, List.eraseDups_cons, List.map_cons, hfilter,
      eraseDups_map fun x hx y hy => hf x (hrest x hx) y (hrest y hy)]
termination_by l => l.length
decreasing_by exact Nat.lt_succ_of_le (List.length_filter_le _ _)

theorem idxOf_map {xs : List α} (hf : ∀ x ∈ xs, ∀ y ∈ xs, f x = f y → x = y) {x : α}
    (hx : x ∈ xs) : (xs.map f).idxOf (f x) = xs.idxOf x := by
  induction xs with
  | nil => exact absurd hx (by simp)
  | cons a xs ih =>
    rw [List.map_cons, List.idxOf_cons, List.idxOf_cons]
    by_cases ha : a = x
    · simp [ha]
    · have hfa : (f a == f x) = false :=
        beq_eq_false_iff_ne.mpr fun h => ha (hf a (List.mem_cons_self ..) x hx h)
      have hmem : x ∈ xs := (List.mem_cons.mp hx).resolve_left (Ne.symm ha)
      have htail := ih (fun y hy z hz => hf y (List.mem_cons_of_mem _ hy) z
        (List.mem_cons_of_mem _ hz)) hmem
      rw [hfa, beq_eq_false_iff_ne.mpr ha, htail]

end OntoQuery
