import Mathlib.Data.List.Induction
import OntoQuery.Proofs.SafeRules

/-!
# Wildcard heads

Expanding a rule writes out its wildcard head: `p(*)` becomes `p(x₁, …, xₙ)`, where the `xᵢ` are the
distinct variables of the body.

That these are in the order of their first occurrence, and not in that of their names, is why the
expansion does not depend on names.  Renaming the rule without identifying variables and then
expanding it gives what expanding and then renaming gives.  Once two variables of the body become
one, the two sides differ: an expanded head has each variable once, and a renamed one does not.

* `ListsFirst`: whether one list has the entries of another in the order of their first occurrence.
* `expand_applyRule_iff`: which renamings go together with the expansion of a wildcard head.
* `expand_listsVars`: what expansion does, for all rules and renamings.
-/

namespace OntoQuery

/-- Whether `ys` has the entries of `xs`, each of them once, in the order in which they first occur
in `xs`. -/
structure ListsFirst {α : Type} [BEq α] (xs ys : List α) : Prop where
  /-- The entries are the same. -/
  mem_iff : ∀ x, x ∈ ys ↔ x ∈ xs
  /-- None of them is repeated. -/
  nodup : ys.Nodup
  /-- One that comes earlier occurs earlier. -/
  sorted : ys.Pairwise fun x y => xs.idxOf x < xs.idxOf y

/-- Erasing later duplicates leaves first occurrences. -/
theorem listsFirst_eraseDups {α : Type} [BEq α] [LawfulBEq α] (xs : List α) :
    ListsFirst xs xs.eraseDups := by
  refine ⟨fun x => List.mem_eraseDups, nodup_eraseDups xs, ?_⟩
  induction xs using List.reverseRecOn with
  | nil => exact List.Pairwise.nil
  | append_singleton xs a ih =>
    -- an entry that is not new changes nothing, and a new one occurs behind all others
    have hidx : ∀ x ∈ xs, (xs ++ [a]).idxOf x = xs.idxOf x := fun x hx =>
      List.idxOf_append_of_mem hx
    have hsorted : xs.eraseDups.Pairwise fun x y => (xs ++ [a]).idxOf x < (xs ++ [a]).idxOf y := by
      refine ih.imp_of_mem fun hx hy hxy => ?_
      rwa [hidx _ (List.mem_eraseDups.mp hx), hidx _ (List.mem_eraseDups.mp hy)]
    rw [List.eraseDups_append]
    by_cases ha : a ∈ xs
    · have hnone : [a].removeAll xs = [] := by simp [List.removeAll, ha]
      rwa [hnone, List.eraseDups_nil, List.append_nil]
    · have hlast : [a].removeAll xs = [a] := by simp [List.removeAll, ha]
      rw [hlast, List.pairwise_append]
      refine ⟨hsorted, List.pairwise_singleton _ _, fun x hx y hy => ?_⟩
      rw [eraseDups_of_nodup (List.nodup_singleton a), List.mem_singleton] at hy
      have hx' := List.mem_eraseDups.mp hx
      rw [hy, hidx x hx', List.idxOf_append_of_notMem ha]
      exact Nat.lt_of_lt_of_le (List.idxOf_lt_length_of_mem hx') (Nat.le_add_right _ _)

/-- Renaming entries can be exchanged with erasing duplicates exactly if no two entries become
one. -/
theorem eraseDups_map_eq_iff {α β : Type} [BEq α] [LawfulBEq α] [BEq β] [LawfulBEq β] {f : α → β}
    {xs : List α} : (xs.map f).eraseDups = xs.eraseDups.map f ↔
      ∀ x ∈ xs, ∀ y ∈ xs, f x = f y → x = y := by
  refine ⟨fun h x hx y hy => ?_, eraseDups_map⟩
  have hnodup : (xs.eraseDups.map f).Nodup := h ▸ nodup_eraseDups _
  exact List.inj_on_of_nodup_map hnodup (List.mem_eraseDups.mpr hx) (List.mem_eraseDups.mpr hy)

namespace Rule

variable {r : Rule} {name : String}

theorem expand_of_wildcard (h : r.head = some (.wildcard name)) :
    r.expand = ⟨some (.plain name (r.bodyVars.eraseDups.map .var)), r.body⟩ := by
  rw [expand, h]

theorem expand_of_forall_ne (h : ∀ name, r.head ≠ some (.wildcard name)) : r.expand = r := by
  unfold expand
  split
  · exact absurd ‹_› (h _)
  · rfl

/-- An expanded head is not a wildcard. -/
theorem head_expand_ne (r : Rule) (name : String) : r.expand.head ≠ some (.wildcard name) := by
  rcases exists_or_forall_not fun name => r.head = some (.wildcard name) with ⟨name', h⟩ | h
  · rw [expand_of_wildcard h]
    simp
  · rw [expand_of_forall_ne h]
    exact h name

theorem bodyVars_expand (r : Rule) : r.expand.bodyVars = r.bodyVars := by
  rw [bodyVars, bodyVars, bodyAtoms, bodyAtoms, body_expand]

/-- A wildcard head is safe once it is expanded.  That of a fact has no terms then. -/
theorem isSafe_expand (h : r.head = some (.wildcard name)) : r.expand.IsSafe := by
  intro x hx
  have hargs : x ∈ Term.varsList (r.bodyVars.eraseDups.map .var) := by
    rwa [expand_of_wildcard h] at hx
  obtain ⟨t, ht, hxt⟩ := Term.mem_varsList.mp hargs
  obtain ⟨y, hy, rfl⟩ := List.mem_map.mp ht
  rw [bodyVars_expand, List.mem_singleton.mp hxt]
  exact List.mem_eraseDups.mp hy

theorem expand_expand (r : Rule) : r.expand.expand = r.expand :=
  expand_of_forall_ne r.head_expand_ne

/-! ## Renaming -/

theorem head_bind_eq_wildcard_iff {f : Var → Term} :
    (r.bind f).head = some (.wildcard name) ↔ r.head = some (.wildcard name) := by
  rw [bind]
  rcases r.head with _ | _ | _ <;> simp

theorem vars_of_wildcard (h : r.head = some (.wildcard name)) : r.vars = r.bodyVars := by
  rw [vars, headVars, h]
  rfl

/-- Renaming and expanding a rule with a wildcard head can be exchanged exactly if no two variables
become one. -/
theorem expand_applyRule_iff (h : r.head = some (.wildcard name)) (m : Renaming) :
    (m.applyRule r).expand = m.applyRule r.expand ↔
      ∀ x ∈ r.vars, ∀ y ∈ r.vars, m.applyVar x = m.applyVar y → x = y := by
  have hhead : (m.applyRule r).head = some (.wildcard name) := head_bind_eq_wildcard_iff.mpr h
  have hvars : (m.applyRule r).bodyVars = r.bodyVars.map m.applyVar := bodyVars_rename _ r
  have happly : ∀ xs : List Var, m.applyRule ⟨some (.plain name (xs.map .var)), r.body⟩ =
      ⟨some (.plain name ((xs.map m.applyVar).map .var)), (m.applyRule r).body⟩ := fun xs => by
    simp only [Renaming.applyRule, bind, Option.map_some, Atom.bind_plain, List.map_map]
    rfl
  -- both sides have the same body, so what is left are the terms of their heads
  rw [expand_of_wildcard hhead, expand_of_wildcard h, hvars, happly, vars_of_wildcard h, mk.injEq,
    Option.some_inj, Atom.plain.injEq]
  simp only [true_and, and_true]
  rw [List.map_inj_right fun _ _ => Term.var.inj, eraseDups_map_eq_iff]

/-- **Expansion writes a wildcard head out, once and for all names.**  A rule with a wildcard head
keeps its body, and its head lists the distinct variables of the body in the order of their first
occurrence, which is always valid; it can be renamed before or after that exactly by the renamings
that tell its variables apart.  Any other rule is left as it is.  So expanding twice is expanding
once, and renaming a rule without identifying variables goes together with expanding it. -/
theorem expand_listsVars (r : Rule) :
    (∀ name, r.head = some (.wildcard name) →
      (∃ xs, ListsFirst r.bodyVars xs ∧
        r.expand = ⟨some (.plain name (xs.map .var)), r.body⟩) ∧
      r.expand.validate = .ok () ∧
      ∀ m : Renaming, (m.applyRule r).expand = m.applyRule r.expand ↔
        ∀ x ∈ r.vars, ∀ y ∈ r.vars, m.applyVar x = m.applyVar y → x = y) ∧
    ((∀ name, r.head ≠ some (.wildcard name)) → r.expand = r) ∧
    r.expand.expand = r.expand ∧
    ∀ m : Renaming, (∀ x ∈ r.vars, ∀ y ∈ r.vars, m.applyVar x = m.applyVar y → x = y) →
      (m.applyRule r).expand = m.applyRule r.expand := by
  refine ⟨fun name h => ⟨⟨_, listsFirst_eraseDups _, expand_of_wildcard h⟩,
    validate_eq_ok.mpr (isSafe_expand h), expand_applyRule_iff h⟩, expand_of_forall_ne,
    r.expand_expand, fun m hm => ?_⟩
  rcases exists_or_forall_not fun name => r.head = some (.wildcard name) with ⟨name, h⟩ | h
  · exact (expand_applyRule_iff h m).mpr hm
  · rw [expand_of_forall_ne h]
    exact expand_of_forall_ne fun name hname => h name (head_bind_eq_wildcard_iff.mp hname)

/-- All that is known about three things, two of which occur inside of terms. -/
def allAbout : Rule :=
  ⟨some (.wildcard "p"), some [.plain "q" [.app "f" [.var ⟨"y"⟩, .var ⟨"x"⟩], .var ⟨"x"⟩],
    .plain "r" [.var ⟨"z"⟩, .app "g" [.var ⟨"y"⟩]]]⟩

/-- The variables are listed as they occur, before and after a swap of two names.  A renaming that
identifies two of them leaves one term less if it comes first. -/
theorem expand_listsVars_allAbout :
    ∃ m n, Renaming.ofList [(⟨"x"⟩, ⟨"y"⟩), (⟨"y"⟩, ⟨"x"⟩)] = .ok m ∧
      Renaming.ofList [(⟨"x"⟩, ⟨"y"⟩)] = .ok n ∧
      allAbout.expand.head = some (.plain "p" [.var ⟨"y"⟩, .var ⟨"x"⟩, .var ⟨"z"⟩]) ∧
      allAbout.expand.validate = .ok () ∧
      (m.applyRule allAbout).expand = m.applyRule allAbout.expand ∧
      (m.applyRule allAbout).expand.head =
        some (.plain "p" [.var ⟨"x"⟩, .var ⟨"y"⟩, .var ⟨"z"⟩]) ∧
      (n.applyRule allAbout).expand ≠ n.applyRule allAbout.expand ∧
      (n.applyRule allAbout).expand.head = some (.plain "p" [.var ⟨"y"⟩, .var ⟨"z"⟩]) := by
  obtain ⟨m, hm⟩ : ∃ m, Renaming.ofList [(⟨"x"⟩, ⟨"y"⟩), (⟨"y"⟩, ⟨"x"⟩)] = .ok m := ⟨_, rfl⟩
  obtain ⟨n, hn⟩ : ∃ n, Renaming.ofList [(⟨"x"⟩, ⟨"y"⟩)] = .ok n := ⟨_, rfl⟩
  obtain ⟨hwildcard, -, -, hrename⟩ := expand_listsVars allAbout
  obtain ⟨-, hvalid, hiff⟩ := hwildcard "p" rfl
  refine ⟨m, n, hm, hn, by decide, hvalid, hrename m ?_, ?_, fun he => ?_, ?_⟩
  · obtain rfl := Except.ok.inj hm
    decide
  · obtain rfl := Except.ok.inj hm
    decide
  · have hinj := (hiff n).mp he ⟨"x"⟩ (by decide) ⟨"y"⟩ (by decide)
    obtain rfl := Except.ok.inj hn
    exact absurd (hinj (by decide)) (by decide)
  · obtain rfl := Except.ok.inj hn
    decide

end Rule

end OntoQuery
