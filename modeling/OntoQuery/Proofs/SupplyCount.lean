import Mathlib.Data.List.Nodup
import OntoQuery.Proofs.SupplyHistory

/-!
# What a supply counts

The number that a supply reports (`FreshVars.generated`) is the index from which it searches next.
All names of its pattern with smaller indices have been dealt with: each of them has been handed
out, once, or it has been reserved before the search came to it, and then it has been passed over
(`Tallies`).  So the number reported is the number of variables that have been handed out only if no
reserved name has been passed over.  A reserved name does not count if the search has not come to
it yet, or if it had been handed out when it was reserved.

* `passedOver`: the names that a single search passes over; they are reserved.
* `Tallies`: the names with smaller indices, those handed out and the others; kept by each operation
  and so true in every history (`History.tallies`).
* `length_image_renamingFor`: to rename the variables of a component takes one variable for each.
* `History.generated_counts`: what the number counts, and when it is the number of variables that
  have been handed out.
-/

namespace OntoQuery

/-- A map built from a list in which no variable has two entries has the entries of the list. -/
theorem VarMap.perm_toList_ofList {β : Type} {pairs : List (Var × β)}
    (h : (pairs.map Prod.fst).Nodup) : (ofList pairs).toList.Perm pairs := by
  have hkeys : ((ofList pairs).toList.map Prod.fst).Nodup := by
    rw [Std.ExtTreeMap.map_fst_toList_eq_keys]
    exact Std.ExtTreeMap.nodup_keys
  refine (List.perm_ext_iff_of_nodup hkeys.of_map h.of_map).mpr fun ⟨x, b⟩ => ?_
  rw [mem_toList]
  refine ⟨mem_of_getElem?_ofList, fun hb => getElem?_ofList_of_mem hb fun c hc => ?_⟩
  exact congrArg Prod.snd (List.inj_on_of_nodup_map h hc hb rfl)

namespace FreshVars

variable {stem : String} {g : FreshVars} {reserved issued issued' : List Var}

/-! ## The names with smaller indices -/

/-- The names of the pattern with indices below a number. -/
def namesBelow (g : FreshVars) (n : Nat) : List Var := (List.range n).map g.candidate

/-- The names that the search for the next variable passes over. -/
def passedOver (g : FreshVars) : List Var :=
  (List.range (g.index - g.next)).map fun i => g.candidate (g.next + i)

theorem passedOver_subset (g : FreshVars) : g.passedOver ⊆ g.reserved := by
  intro x hx
  obtain ⟨i, hi, rfl⟩ := List.mem_map.mp hx
  have hlt : i < g.index - g.next := List.mem_range.mp hi
  exact g.reserved_of_lt_firstFree (Nat.le_add_right _ i) (Nat.add_lt_of_lt_sub' hlt)

/-- To hand out a variable is to come to the names that are passed over and to its own. -/
theorem namesBelow_fresh (g : FreshVars) :
    g.namesBelow g.fresh.2.next = g.namesBelow g.next ++ (g.passedOver ++ [g.fresh.1]) := by
  have hindex : g.index = g.next + (g.index - g.next) :=
    (Nat.add_sub_cancel' g.next_le_index).symm
  have hpassed : (List.range g.index).map g.candidate = g.namesBelow g.next ++ g.passedOver := by
    rw [hindex, List.range_add, List.map_append, List.map_map]
    rfl
  show (List.range (g.index + 1)).map g.candidate = _
  rw [List.range_succ, List.map_append, hpassed, List.append_assoc]
  rfl

/-- Whether the names that a supply has come to are those that have been handed out, once each, and
others, which are reserved. -/
def Tallies (g : FreshVars) (issued : List Var) : Prop :=
  ∃ passed, passed ⊆ g.reserved ∧ (issued ++ passed).Perm (g.namesBelow g.next)

theorem Tallies.perm (h : g.Tallies issued) (hperm : issued'.Perm issued) : g.Tallies issued' := by
  obtain ⟨passed, hpassed, hnames⟩ := h
  exact ⟨passed, hpassed, (hperm.append_right passed).trans hnames⟩

/-- What is reserved later has been passed over only if it had been reserved before. -/
theorem Tallies.reserve (h : g.Tallies issued) (xs : List Var) : (g.reserve xs).Tallies issued := by
  obtain ⟨passed, hpassed, hnames⟩ := h
  refine ⟨passed, fun x hx => ?_, hnames⟩
  rw [FreshVars.reserve, List.mem_eraseDups]
  exact List.mem_append_left _ (hpassed hx)

/-- The search passes over reserved names, and the name that it stops at is handed out. -/
theorem Tallies.fresh (h : g.Tallies issued) : g.fresh.2.Tallies (issued ++ [g.fresh.1]) := by
  obtain ⟨passed, hpassed, hnames⟩ := h
  refine ⟨passed ++ g.passedOver, List.append_subset.mpr ⟨hpassed, g.passedOver_subset⟩, ?_⟩
  have hmoved : (issued ++ [g.fresh.1] ++ (passed ++ g.passedOver)).Perm
      (issued ++ passed ++ (g.passedOver ++ [g.fresh.1])) := by
    rw [List.append_assoc, List.append_assoc, ← List.append_assoc passed]
    exact List.perm_append_comm.append_left issued
  show List.Perm _ (g.namesBelow g.fresh.2.next)
  rw [namesBelow_fresh]
  exact hmoved.trans (hnames.append_right _)

/-- So it is for one variable after another. -/
theorem Tallies.issue (h : g.Tallies issued) (xs : List Var) :
    (g.issue xs).2.Tallies (issued ++ (g.issue xs).1.map Prod.snd) := by
  induction xs generalizing g issued with
  | nil =>
    refine h.perm ?_
    rw [FreshVars.issue, List.map_nil, List.append_nil]
  | cons x xs ih =>
    refine (ih h.fresh).perm ?_
    rw [FreshVars.issue, List.map_cons, List.append_assoc]
    exact List.Perm.refl _

/-! ## Renamings -/

/-- The new names of a renaming are the variables that have been issued for it. -/
theorem perm_image_renamingFor (g : FreshVars) (xs : List Var) :
    (g.renamingFor xs).1.image.Perm ((g.issue xs.eraseDups).1.map Prod.snd) := by
  refine List.Perm.map Prod.snd (VarMap.perm_toList_ofList ?_)
  rw [map_fst_issue]
  exact nodup_eraseDups xs

/-- There is one for each variable that is renamed. -/
theorem length_image_renamingFor (g : FreshVars) (xs : List Var) :
    (g.renamingFor xs).1.image.length = xs.eraseDups.length := by
  rw [(g.perm_image_renamingFor xs).length_eq, List.length_map, ← List.length_map (f := Prod.fst),
    map_fst_issue]

/-! ## The number that is reported -/

theorem History.tallies (h : History stem reserved issued g) : g.Tallies issued := by
  induction h with
  | start => exact ⟨[], List.nil_subset _, List.Perm.refl _⟩
  | reserve _ xs ih => exact ih.reserve xs
  | fresh _ ih => exact ih.fresh
  | @rename _ _ g _ xs ih =>
    exact (ih.issue xs.eraseDups).perm ((g.perm_image_renamingFor xs).append_left _)

/-- Apart from those that have been handed out, the names that a supply has come to are the reserved
ones among them. -/
theorem Tallies.generated_eq (h : g.Tallies issued) :
    g.generated = issued.length +
      (g.namesBelow g.generated).countP fun x => x ∈ g.reserved ∧ x ∉ issued := by
  obtain ⟨passed, hpassed, hnames⟩ := h
  have hnodup : (issued ++ passed).Nodup := by
    refine hnames.nodup_iff.mpr (List.Nodup.map_on (fun i _ j _ => candidate_inj) ?_)
    exact List.nodup_range
  have hissued : issued.countP (fun x => x ∈ g.reserved ∧ x ∉ issued) = 0 :=
    List.countP_eq_zero.mpr fun x hx hp => (of_decide_eq_true hp).2 hx
  have hothers : passed.countP (fun x => x ∈ g.reserved ∧ x ∉ issued) = passed.length :=
    List.countP_eq_length.mpr fun x hx => decide_eq_true
      ⟨hpassed hx, fun hi => List.disjoint_of_nodup_append hnodup hi hx⟩
  calc g.generated = (g.namesBelow g.next).length := by
        rw [namesBelow, List.length_map, List.length_range, generated]
    _ = issued.length + passed.length := by rw [← hnames.length_eq, List.length_append]
    _ = issued.length + (issued ++ passed).countP fun x => x ∈ g.reserved ∧ x ∉ issued := by
        rw [List.countP_append, hissued, hothers, Nat.zero_add]
    _ = _ := by rw [hnames.countP_eq, generated]

/-- **What a supply counts.**  In every history it has handed out one variable for each that was
asked for and one for each distinct variable of a component that was renamed, and the number that it
reports is the number of these and of the names that it has passed over because they were reserved.
So it is the number of variables that have been handed out exactly if every reserved name that the
supply has come to has been handed out by it. -/
theorem History.generated_counts (h : History stem reserved issued g) :
    (∀ xs : List Var, (g.renamingFor xs).1.image.length = xs.eraseDups.length) ∧
      g.generated = issued.length +
        ((g.namesBelow g.generated).countP fun x => x ∈ reserved ∧ x ∉ issued) ∧
      (g.generated = issued.length ↔
        ∀ x ∈ g.namesBelow g.generated, x ∈ reserved → x ∈ issued) := by
  have hcount := h.tallies.generated_eq
  simp only [h.accounts.mem_reserved_iff] at hcount
  have hnone : g.generated = issued.length ↔
      ((g.namesBelow g.generated).countP fun x => x ∈ reserved ∧ x ∉ issued) = 0 := by
    omega
  refine ⟨g.length_image_renamingFor, hcount, hnone.trans ?_⟩
  simp only [List.countP_eq_zero, decide_eq_true_eq, not_and, not_not]

/-- `?_v0` and `?_v2` are reserved and passed over when two variables are renamed.  Then `?_v1`,
which has been handed out, and `?_v7`, which is not reached, are reserved.  Two variables have been
handed out, and four are counted. -/
theorem generated_counts_passedOver :
    ∃ g, History "v" [⟨"_v0"⟩, ⟨"_v2"⟩, ⟨"_v1"⟩, ⟨"_v7"⟩] [⟨"_v1"⟩, ⟨"_v3"⟩] g ∧
      g.generated = 4 ∧
      (g.renamingFor [⟨"x"⟩, ⟨"y"⟩, ⟨"x"⟩]).1.image.length = 2 ∧
      ((g.namesBelow g.generated).countP fun x =>
        x ∈ [(⟨"_v0"⟩ : Var), ⟨"_v2"⟩, ⟨"_v1"⟩, ⟨"_v7"⟩] ∧ x ∉ [(⟨"_v1"⟩ : Var), ⟨"_v3"⟩]) = 2 := by
  let g₁ : FreshVars := { stem := "v", reserved := [⟨"_v0"⟩, ⟨"_v2"⟩] }
  let g₂ : FreshVars := ⟨"v", 4, [⟨"_v0"⟩, ⟨"_v2"⟩, ⟨"_v1"⟩, ⟨"_v7"⟩]⟩
  have h₁ : History "v" [⟨"_v0"⟩, ⟨"_v2"⟩] [] g₁ := History.start.reserve [⟨"_v0"⟩, ⟨"_v2"⟩]
  have himage : (g₁.renamingFor [⟨"x"⟩, ⟨"y"⟩, ⟨"x"⟩]).1.image = [⟨"_v1"⟩, ⟨"_v3"⟩] := by decide
  have hlater : (g₁.renamingFor [⟨"x"⟩, ⟨"y"⟩, ⟨"x"⟩]).2 = { g₁ with next := 4 } := by decide
  have h₂ : History "v" [⟨"_v0"⟩, ⟨"_v2"⟩, ⟨"_v1"⟩, ⟨"_v7"⟩] [⟨"_v1"⟩, ⟨"_v3"⟩] g₂ := by
    have h := (h₁.rename [⟨"x"⟩, ⟨"y"⟩, ⟨"x"⟩]).reserve [⟨"_v1"⟩, ⟨"_v7"⟩]
    rw [himage, hlater] at h
    exact h
  obtain ⟨himages, hcount, -⟩ := h₂.generated_counts
  exact ⟨g₂, h₂, rfl, himages _, (Nat.add_left_cancel hcount).symm⟩

/-- A single reserved name that is passed over is counted: `?_v0` is reserved, `?_v1` is handed out,
and the number reported is 2. -/
theorem generated_ne_handedOut :
    ∃ g issued, History "v" [⟨"_v0"⟩] issued g ∧ issued = [⟨"_v1"⟩] ∧
      g.generated = 2 ∧ g.generated ≠ issued.length := by
  have h : History "v" [⟨"_v0"⟩] _ _ := (History.start.reserve [⟨"_v0"⟩]).fresh
  exact ⟨_, _, h, by decide, by decide, by decide⟩

end FreshVars

end OntoQuery
