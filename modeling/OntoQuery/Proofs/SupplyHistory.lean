import OntoQuery.Proofs.InverseRenaming
import OntoQuery.Proofs.RenamingApart

/-!
# The history of a supply

Variables can be reserved at any time, before and after others have been handed out, and reserved
ones may have names of the supply's own pattern.  So whether a variable is new depends on all that
has been asked of the supply before, of which it keeps only a part: the variables that have been
reserved, and the index up to which it has searched.

That part is enough.  A variable that has been handed out has a smaller index, and the index only
grows (`Accounts`).  The search for the next variable therefore meets the same candidates whether
it avoids what is reserved, or all that has been reserved or handed out so far
(`Accounts.search_eq`).

* `History`: which supplies arise from a new one, with what has been reserved and handed out.
* `search`: the search for the next index as a loop that nothing bounds.
* `History.handsOut_untaken`: in every history, the loop ends, and what is handed out is new.
-/

namespace OntoQuery

namespace FreshVars

variable {stem : String} {g g' : FreshVars} {reserved issued ys : List Var}

/-! ## Histories -/

/-- `History stem reserved issued g` says that a supply with this stem has become `g`, and which
variables have been reserved and handed out on the way. -/
inductive History (stem : String) : List Var → List Var → FreshVars → Prop where
  /-- A new supply. -/
  | start : History stem [] [] { stem := stem }
  /-- Variables are reserved. -/
  | reserve {reserved issued : List Var} {g : FreshVars} (h : History stem reserved issued g)
      (xs : List Var) : History stem (reserved ++ xs) issued (g.reserve xs)
  /-- A variable is handed out. -/
  | fresh {reserved issued : List Var} {g : FreshVars} (h : History stem reserved issued g) :
      History stem reserved (issued ++ [g.fresh.1]) g.fresh.2
  /-- The variables of a term, an atom or a rule are renamed to variables that are handed out. -/
  | rename {reserved issued : List Var} {g : FreshVars} (h : History stem reserved issued g)
      (xs : List Var) :
      History stem reserved (issued ++ (g.renamingFor xs).1.image) (g.renamingFor xs).2

/-! ## Renamings that are handed out -/

/-- The pairs that are issued pass the check of a renaming. -/
theorem ofList_issue (g : FreshVars) (xs : List Var) :
    Renaming.ofList (g.issue xs.eraseDups).1 = .ok (g.renamingFor xs).1 := by
  have htargets : ∀ x : Var, (g.renamingFor xs).1.targets[x]? =
      Renaming.lastTarget? (g.issue xs.eraseDups).1 x := VarMap.getElem?_ofList _
  rcases Renaming.ofList_cases (g.issue xs.eraseDups).1 with
    ⟨x, y, z, hne, hx, hy, -⟩ | ⟨m, hm, hmtargets⟩
  -- a collision would be one of the renaming that has been made of the pairs without the check
  · rw [← htargets] at hx hy
    exact absurd ((g.renamingFor xs).1.injective hx hy) hne
  · rw [hm]
    exact congrArg Except.ok (Renaming.ext fun x => (hmtargets x).trans (htargets x).symm)

/-! ## What a supply keeps of its history -/

/-- Whether a supply keeps what it has to know about the variables that have been reserved and
handed out. -/
structure Accounts (g : FreshVars) (reserved issued : List Var) : Prop where
  /-- It keeps those that have been reserved. -/
  mem_reserved_iff : ∀ x, x ∈ g.reserved ↔ x ∈ reserved
  /-- It avoids those that have been handed out. -/
  avoids : g.Avoids issued

theorem Accounts.avoids_append (h : g.Accounts reserved issued) : g.Avoids (reserved ++ issued) :=
  Avoids.append (fun x hx => Or.inl ((h.mem_reserved_iff x).mpr hx)) h.avoids

theorem Accounts.reserve (h : g.Accounts reserved issued) (xs : List Var) :
    (g.reserve xs).Accounts (reserved ++ xs) issued where
  mem_reserved_iff x := by
    rw [FreshVars.reserve, List.mem_eraseDups, List.mem_append, List.mem_append, h.mem_reserved_iff]
  avoids x hx := by
    refine (h.avoids x hx).imp (fun hr => ?_) id
    rw [FreshVars.reserve, List.mem_eraseDups]
    exact List.mem_append_left _ hr

/-- A supply that goes on accounts for what it avoids. -/
theorem Accounts.before (h : g.Accounts reserved issued) (hg : g.Before g')
    (hys : g'.Avoids ys) : g'.Accounts reserved (issued ++ ys) where
  mem_reserved_iff x := by rw [hg.reserved, h.mem_reserved_iff]
  avoids := (h.avoids.mono hg (List.Subset.refl _)).append hys

theorem History.accounts (h : History stem reserved issued g) : g.Accounts reserved issued := by
  induction h with
  | start => exact ⟨fun x => Iff.rfl, fun x hx => absurd hx (List.not_mem_nil)⟩
  | reserve _ xs ih => exact ih.reserve xs
  | @fresh _ _ g _ ih =>
    refine ih.before g.fresh_before fun x hx => ?_
    rw [List.mem_singleton.mp hx]
    exact Or.inr ⟨g.index, Nat.lt_succ_self _, rfl⟩
  | @rename _ _ g _ xs ih =>
    have hrenames := g.renamingFor_renamesApart xs
    exact ih.before hrenames.before (hrenames.avoids.mono (Before.refl _) image_renamingFor_subset)

/-! ## The search -/

/-- The search for the next index, from `n` on, as a loop without a bound: `none` would mean that it
does not end. -/
def search (g : FreshVars) (taken : List Var) (n : Nat) : Option Nat :=
  if g.candidate n ∈ taken then g |>.search taken (n + 1) else some n
partial_fixpoint

/-- The loop ends at the first index whose variable is not taken. -/
theorem search_eq_some {taken : List Var} {n m : Nat} (hnm : n ≤ m)
    (htaken : ∀ i, n ≤ i → i < m → g.candidate i ∈ taken) (hfree : g.candidate m ∉ taken) :
    g.search taken n = some m := by
  induction hnm using Nat.decreasingInduction with
  | self => rw [search, if_neg hfree]
  | of_succ k hk ih =>
    rw [search, if_pos (htaken k (Nat.le_refl k) hk)]
    exact ih fun i hi him => htaken i (Nat.le_of_succ_le hi) him

/-- What the bounded search passes over is reserved. -/
theorem reserved_of_lt_firstFree (g : FreshVars) {k n i : Nat} (hn : n ≤ i)
    (hi : i < g.firstFree k n) : g.candidate i ∈ g.reserved := by
  induction k generalizing n with
  | zero => exact absurd hi (Nat.not_lt.mpr hn)
  | succ k ih =>
    unfold firstFree at hi
    split at hi
    · rcases Nat.eq_or_lt_of_le hn with rfl | hlt
      · assumption
      · exact ih hlt hi
    · exact absurd hi (Nat.not_lt.mpr hn)

/-- The loop that passes over all that is taken ends where the bounded search ends, which passes
over reserved variables only. -/
theorem Accounts.search_eq (h : g.Accounts reserved issued) :
    g.search (reserved ++ issued) g.next = some g.index := by
  refine search_eq_some g.next_le_index (fun i hn hi => ?_) (fresh_notMem h.avoids_append)
  refine List.mem_append_left _ ((h.mem_reserved_iff _).mp ?_)
  exact g.reserved_of_lt_firstFree hn hi

/-- **What a supply hands out is new in every history.**  However reservations, single variables and
renamings follow each other, the search for the next variable ends, with the variable that is handed
out next.  It has neither been reserved nor handed out before.  To rename the variables of a
component, pairs are issued that make a renaming; it renames these variables and no others, keeps
them apart, and takes them to variables that have neither been reserved nor handed out before. -/
theorem History.handsOut_untaken (h : History stem reserved issued g) :
    (g.search (reserved ++ issued) g.next).map
        (fun n => (g.candidate n, { g with next := n + 1 })) = some g.fresh ∧
      g.fresh.1 ∉ reserved ∧ g.fresh.1 ∉ issued ∧
      ∀ xs : List Var, Renaming.ofList (g.issue xs.eraseDups).1 = .ok (g.renamingFor xs).1 ∧
        (∀ x, x ∈ (g.renamingFor xs).1.domain ↔ x ∈ xs) ∧
        (∀ x ∈ xs, ∀ y ∈ xs,
          (g.renamingFor xs).1.applyVar x = (g.renamingFor xs).1.applyVar y → x = y) ∧
        ∀ z ∈ (g.renamingFor xs).1.image, z ∉ reserved ∧ z ∉ issued := by
  have haccounts := h.accounts
  have hfresh := fresh_notMem haccounts.avoids_append
  rw [List.mem_append, not_or] at hfresh
  refine ⟨by rw [haccounts.search_eq]; rfl, hfresh.1, hfresh.2, fun xs => ?_⟩
  have hrenames := g.renamingFor_renamesApart xs
  refine ⟨g.ofList_issue xs, fun x => mem_domain_renamingFor, hrenames.injOn, fun z hz => ?_⟩
  obtain ⟨x, hx, rfl⟩ := List.mem_map.mp (image_renamingFor_subset hz)
  have hapart := hrenames.apart haccounts.avoids_append x hx
  rwa [List.mem_append, not_or] at hapart

/-- Names of the pattern are reserved before anything is handed out and after that, among them the
one that has been handed out.  The next variable has the index 4, and to rename `?x` and `?y` takes
this one and the one after it. -/
theorem handsOut_untaken_lateReservation :
    ∃ g, History "v" [⟨"_v0"⟩, ⟨"_v2"⟩, ⟨"_v3"⟩, ⟨"_v1"⟩] [⟨"_v1"⟩] g ∧
      g.fresh.1 = ⟨"_v4"⟩ ∧
      (g.search [⟨"_v0"⟩, ⟨"_v2"⟩, ⟨"_v3"⟩, ⟨"_v1"⟩, ⟨"_v1"⟩] g.next).map
        (fun n => (g.candidate n, { g with next := n + 1 })) = some g.fresh ∧
      Renaming.ofList [(⟨"x"⟩, ⟨"_v4"⟩), (⟨"y"⟩, ⟨"_v5"⟩)] =
        .ok (g.renamingFor [⟨"x"⟩, ⟨"y"⟩, ⟨"x"⟩]).1 ∧
      ∀ z ∈ (g.renamingFor [⟨"x"⟩, ⟨"y"⟩, ⟨"x"⟩]).1.image,
        z ∉ [(⟨"_v0"⟩ : Var), ⟨"_v2"⟩, ⟨"_v3"⟩, ⟨"_v1"⟩] ∧ z ∉ [(⟨"_v1"⟩ : Var)] := by
  let g₁ : FreshVars := { stem := "v", reserved := [⟨"_v0"⟩, ⟨"_v2"⟩] }
  let g₂ : FreshVars := ⟨"v", 2, [⟨"_v0"⟩, ⟨"_v2"⟩, ⟨"_v3"⟩, ⟨"_v1"⟩]⟩
  have h₁ : History "v" [⟨"_v0"⟩, ⟨"_v2"⟩] [] g₁ := History.start.reserve [⟨"_v0"⟩, ⟨"_v2"⟩]
  have hfresh : g₁.fresh = (⟨"_v1"⟩, { g₁ with next := 2 }) := by decide
  have h₂ : History "v" [⟨"_v0"⟩, ⟨"_v2"⟩, ⟨"_v3"⟩, ⟨"_v1"⟩] [⟨"_v1"⟩] g₂ := by
    have h := h₁.fresh.reserve [⟨"_v3"⟩, ⟨"_v1"⟩]
    rw [hfresh] at h
    exact h
  have hissue : (g₂.issue [⟨"x"⟩, ⟨"y"⟩]).1 = [(⟨"x"⟩, ⟨"_v4"⟩), (⟨"y"⟩, ⟨"_v5"⟩)] := by decide
  obtain ⟨hsearch, -, -, hrename⟩ := h₂.handsOut_untaken
  obtain ⟨hpairs, -, -, hnew⟩ := hrename [⟨"x"⟩, ⟨"y"⟩, ⟨"x"⟩]
  exact ⟨g₂, h₂, by decide, hsearch, hissue ▸ hpairs, hnew⟩

end FreshVars

end OntoQuery
