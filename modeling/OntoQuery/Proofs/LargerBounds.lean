import OntoQuery.Proofs.Reformulation
import OntoQuery.Proofs.SaturationLevels
import OntoQuery.Proofs.UnfoldingLeaves

/-!
# Larger bounds do not change results

A bound says how far a search may go, and not where it goes.  Two runs with different bounds are
therefore in the same state for as long as neither of them is stopped, down to the names of new
variables, and a run that ends well has not been stopped.

* In the saturation, `deeper` and `maxRules` only decide whether a new rule is taken or is an error
  (`takeNew_of_eq_ok`).  How many rules there will be is known at the end of a run only, so that the
  greater bound is compared to the number of rules in the last state and carried back to the states
  before it.  `rounds_of_eq_ok` does not ask for a greater bound than in the first run, but for one
  that the rules found by it do not exceed.
* In the walk, a rule that is cut off is not an error under the policy `keepPartial`, but it leaves
  a mark, which stays.  A walk that ends without a mark has nowhere been cut off
  (`Walk.explore_of_eq_ok`).
* `ok_of_widened`: rewriting, unfolding and reformulation have the same results when the bounds are
  raised, under any policy.
-/

namespace OntoQuery

/-- Whether the second settings have bounds at least as large as the first, and otherwise agree with
them, up to the policy. -/
structure Settings.Widened (cfg cfg' : Settings) : Prop where
  /-- At least as many steps are allowed. -/
  maxDepth : cfg.maxDepth ≤ cfg'.maxDepth
  /-- At least as many rules are allowed. -/
  maxRules : cfg.maxRules ≤ cfg'.maxRules
  /-- New variables are named alike. -/
  freshStem : cfg'.freshStem = cfg.freshStem
  /-- Plans are optimized in both cases or in neither. -/
  optimizePlan : cfg'.optimizePlan = cfg.optimizePlan
  /-- Optimization goes equally far. -/
  maxOptimizationSteps : cfg'.maxOptimizationSteps = cfg.maxOptimizationSteps

variable {cfg cfg' : Settings}

/-! ## Rewriting -/

namespace Ontology

variable {o : Ontology} {deeper deeper' : Bool} {st st' st'' : Search} {r : Rule} {base : Nat}

/-- How the number of rules found grows. -/
structure Search.Grows (cfg : Settings) (deeper : Bool) (st st' : Search) : Prop where
  /-- No rule is lost. -/
  le : st.found.size ≤ st'.found.size
  /-- Nothing is added beyond the bound. -/
  bounded : st'.found.size ≤ max cfg.maxRules st.found.size
  /-- In the last round nothing is added. -/
  stuck : deeper = false → st'.found.size = st.found.size

theorem Search.Grows.refl (cfg : Settings) (deeper : Bool) (st : Search) :
    Grows cfg deeper st st :=
  ⟨Nat.le_refl _, Nat.le_max_right _ _, fun _ => rfl⟩

theorem Search.Grows.trans (h : Grows cfg deeper st st') (h' : Grows cfg deeper st' st'') :
    Grows cfg deeper st st'' := by
  have hb := h.bounded
  have hb' := h'.bounded
  exact ⟨Nat.le_trans h.le h'.le, by omega, fun hd => (h'.stuck hd).trans (h.stuck hd)⟩

/-- A rule that has been taken was no new one, or there was room for it. -/
theorem takeNew_cases (h : takeNew cfg deeper st r = .ok st') :
    st.seen.contains r = true ∧ st' = st ∨
      ¬st.seen.contains r = true ∧ deeper = true ∧ st.found.size < cfg.maxRules ∧
        st' = { st with seen := st.seen.insert r, found := st.found.push r } := by
  unfold takeNew at h
  by_cases hseen : st.seen.contains r = true
  · rw [if_pos hseen] at h
    exact Or.inl ⟨hseen, (Except.ok.inj h).symm⟩
  · rw [if_neg hseen] at h
    cases deeper with
    | false => exact absurd h (by simp)
    | true =>
      rw [Bool.not_true, if_neg (by simp)] at h
      by_cases hfull : cfg.maxRules ≤ st.found.size
      · rw [if_pos hfull] at h
        exact absurd h (by simp)
      · rw [if_neg hfull] at h
        exact Or.inr ⟨hseen, rfl, by omega, (Except.ok.inj h).symm⟩

theorem takeNew_grows (h : takeNew cfg deeper st r = .ok st') :
    Search.Grows cfg deeper st st' := by
  obtain ⟨-, rfl⟩ | ⟨-, rfl, hroom, rfl⟩ := takeNew_cases h
  · exact .refl _ _ _
  · refine ⟨?_, ?_, fun hd => absurd hd (by simp)⟩
    · rw [Array.size_push]
      omega
    · rw [Array.size_push]
      omega

theorem resolveStep_grows {step : Nat × Rule} (h : resolveStep cfg deeper r st step = .ok st') :
    Search.Grows cfg deeper st st' := by
  obtain ⟨i, d⟩ := step
  cases hres : (r.resolve i d st.fresh).1 with
  | none =>
    rw [resolveStep_of_eq_none hres] at h
    obtain rfl := Except.ok.inj h
    exact ⟨Nat.le_refl _, Nat.le_max_right _ _, fun _ => rfl⟩
  | some r' =>
    rw [resolveStep_of_eq_some hres] at h
    have hgrows := takeNew_grows h
    exact ⟨hgrows.le, hgrows.bounded, hgrows.stuck⟩

theorem expandRule_grows (h : expandRule o cfg deeper st r = .ok st') :
    Search.Grows cfg deeper st st' :=
  foldlM_moves (Search.Grows.refl cfg deeper) Search.Grows.trans
    (fun _ _ _ _ ht => resolveStep_grows ht) h

theorem round_grows {frontier : List Rule}
    (h : frontier.foldlM (expandRule o cfg deeper) st = .ok st') :
    Search.Grows cfg deeper st st' :=
  foldlM_moves (Search.Grows.refl cfg deeper) Search.Grows.trans
    (fun _ _ _ _ ht => expandRule_grows ht) h

/-- A search that is at its end stays there. -/
theorem rounds_nil (o : Ontology) (cfg : Settings) (n : Nat) (st : Search) :
    rounds o cfg n [] st = .ok st := by
  cases n <;> rfl

theorem rounds_grows {n : Nat} {frontier : List Rule}
    (h : rounds o cfg n frontier st = .ok st') : Search.Grows cfg true st st' := by
  induction n generalizing frontier st with
  | zero =>
    have hgrows := round_grows h
    exact ⟨hgrows.le, hgrows.bounded, fun hd => absurd hd (by simp)⟩
  | succ n ih =>
    cases frontier with
    | nil =>
      rw [rounds_nil] at h
      obtain rfl := Except.ok.inj h
      exact .refl _ _ _
    | cons r frontier =>
      rw [rounds] at h
      obtain ⟨mid, hround, hrest⟩ := bind_eq_ok.mp h
      exact (round_grows hround).trans (ih hrest)

/-! ### Two runs -/

/-- A rule that is taken is taken under other bounds that the rules found do not exceed. -/
theorem takeNew_of_eq_ok (hdeeper : deeper = true → deeper' = true) (hbase : base ≤ st.found.size)
    (h : takeNew cfg deeper st r = .ok st') (hroom : st'.found.size ≤ max cfg'.maxRules base) :
    takeNew cfg' deeper' st r = .ok st' := by
  unfold takeNew
  obtain ⟨hseen, rfl⟩ | ⟨hseen, hd, -, rfl⟩ := takeNew_cases h
  · rw [if_pos hseen]
  · rw [Array.size_push] at hroom
    rw [if_neg hseen, hdeeper hd, Bool.not_true, if_neg (by simp), if_neg (by omega)]

theorem resolveStep_of_eq_ok (hdeeper : deeper = true → deeper' = true)
    (hbase : base ≤ st.found.size) {step : Nat × Rule}
    (h : resolveStep cfg deeper r st step = .ok st')
    (hroom : st'.found.size ≤ max cfg'.maxRules base) :
    resolveStep cfg' deeper' r st step = .ok st' := by
  obtain ⟨i, d⟩ := step
  cases hres : (r.resolve i d st.fresh).1 with
  | none =>
    rw [resolveStep_of_eq_none hres] at h ⊢
    exact h
  | some r' =>
    rw [resolveStep_of_eq_some hres] at h ⊢
    exact takeNew_of_eq_ok hdeeper hbase h hroom

/-- A loop is copied if each of its turns is.  What the number of rules in the last state allows, it
allows in all states before. -/
theorem foldlM_of_eq_ok {α : Type} {f f' : Search → α → Except RewritingError Search} {l : List α}
    (hgrows : ∀ x ∈ l, ∀ s t, f s x = .ok t → Search.Grows cfg deeper s t)
    (hcopy : ∀ x ∈ l, ∀ s t, base ≤ s.found.size → f s x = .ok t →
      t.found.size ≤ max cfg'.maxRules base → f' s x = .ok t)
    (hbase : base ≤ st.found.size) (h : l.foldlM f st = .ok st')
    (hroom : st'.found.size ≤ max cfg'.maxRules base) : l.foldlM f' st = .ok st' :=
  (foldlM_ok_of_ok (I := fun s => base ≤ s.found.size)
    (P := fun s => s.found.size ≤ max cfg'.maxRules base)
    (fun x hx s t hs ht => Nat.le_trans hs (hgrows x hx s t ht).le)
    (fun x hx s t hs ht hroom =>
      ⟨Nat.le_trans (hgrows x hx s t ht).le hroom, hcopy x hx s t hs ht hroom⟩)
    hbase h hroom).2

theorem expandRule_of_eq_ok (hdeeper : deeper = true → deeper' = true)
    (hbase : base ≤ st.found.size) (h : expandRule o cfg deeper st r = .ok st')
    (hroom : st'.found.size ≤ max cfg'.maxRules base) :
    expandRule o cfg' deeper' st r = .ok st' :=
  foldlM_of_eq_ok (fun _ _ _ _ ht => resolveStep_grows ht)
    (fun _ _ _ _ hs ht hroom => resolveStep_of_eq_ok hdeeper hs ht hroom) hbase h hroom

theorem round_of_eq_ok (hdeeper : deeper = true → deeper' = true) (hbase : base ≤ st.found.size)
    {frontier : List Rule} (h : frontier.foldlM (expandRule o cfg deeper) st = .ok st')
    (hroom : st'.found.size ≤ max cfg'.maxRules base) :
    frontier.foldlM (expandRule o cfg' deeper') st = .ok st' :=
  foldlM_of_eq_ok (fun _ _ _ _ ht => expandRule_grows ht)
    (fun _ _ _ _ hs ht hroom => expandRule_of_eq_ok hdeeper hs ht hroom) hbase h hroom

/-- A saturation that ends well within some bounds ends in the same state within others, if these
allow as many rounds, and as many rules as it finds. -/
theorem rounds_of_eq_ok {n n' : Nat} (hn : n ≤ n') (hbase : base ≤ st.found.size)
    {frontier : List Rule} (h : rounds o cfg n frontier st = .ok st')
    (hroom : st'.found.size ≤ max cfg'.maxRules base) :
    rounds o cfg' n' frontier st = .ok st' := by
  induction n generalizing n' frontier st with
  | zero =>
    rw [rounds] at h
    have hstuck := (round_grows h).stuck rfl
    cases n' with
    | zero => exact round_of_eq_ok (fun hd => hd) hbase h hroom
    | succ n' =>
      cases frontier with
      | nil =>
        rw [rounds_nil]
        exact h
      | cons r frontier =>
        -- the last round of the first run finds nothing, and so there is no further one
        rw [rounds]
        refine bind_eq_ok.mpr ⟨st', round_of_eq_ok (fun _ => rfl) hbase h hroom, ?_⟩
        rw [List.drop_eq_nil_of_le (by rw [Array.length_toList]; omega), rounds_nil]
  | succ n ih =>
    obtain ⟨n', rfl⟩ : ∃ m, n' = m + 1 := ⟨n' - 1, by omega⟩
    cases frontier with
    | nil =>
      rw [rounds_nil] at h ⊢
      exact h
    | cons r frontier =>
      rw [rounds] at h ⊢
      obtain ⟨mid, hround, hrest⟩ := bind_eq_ok.mp h
      have hmid := (round_grows hround).le
      have hlast := (rounds_grows hrest).le
      exact bind_eq_ok.mpr ⟨mid, round_of_eq_ok (fun hd => hd) hbase hround (by omega),
        ih (by omega) (by omega) hrest⟩

/-- Rewriting has the same result within larger bounds. -/
theorem rewrite_of_widened (h : cfg.Widened cfg') {p q : Program}
    (hq : o.rewrite cfg p = .ok q) : o.rewrite cfg' p = .ok q := by
  cases ho : o.isEmpty with
  | true =>
    unfold rewrite at hq ⊢
    rw [if_pos ho] at hq ⊢
    exact hq
  | false =>
    have hstart : o.start cfg' p = o.start cfg p := by
      unfold start
      rw [h.freshStem]
    rw [rewrite_of_isEmpty_eq_false ho] at hq ⊢
    rw [hstart]
    cases hrounds : o.rounds cfg cfg.maxDepth (o.start cfg p).found.toList (o.start cfg p) with
    | error e =>
      rw [hrounds] at hq
      exact absurd hq (by simp)
    | ok st =>
      rw [hrounds] at hq
      have hbounded := (rounds_grows hrounds).bounded
      have hrules := h.maxRules
      have hrun : o.rounds cfg' cfg'.maxDepth (o.start cfg p).found.toList (o.start cfg p) =
          .ok st := rounds_of_eq_ok h.maxDepth (Nat.le_refl _) hrounds (by omega)
      rw [hrun]
      exact hq

end Ontology

/-! ## Unfolding -/

namespace Walk

variable {d : Definitions} {w w' : Walk} {r : Rule} {depth depth' : Nat}

/-- A leaf that is kept is kept if there is more room. -/
theorem keep_of_eq_ok (hrules : cfg.maxRules ≤ cfg'.maxRules) (h : keep cfg w r = .ok w') :
    w'.hit = w.hit ∧ keep cfg' w r = .ok w' := by
  unfold keep at h ⊢
  by_cases hseen : w.seen.contains r = true
  · rw [if_pos hseen] at h ⊢
    obtain rfl := Except.ok.inj h
    exact ⟨rfl, rfl⟩
  · rw [if_neg hseen] at h ⊢
    by_cases hfull : cfg.maxRules ≤ w.found.size
    · rw [if_pos hfull] at h
      exact absurd h (by simp)
    · rw [if_neg hfull] at h
      rw [if_neg (by omega)]
      obtain rfl := Except.ok.inj h
      exact ⟨rfl, rfl⟩

/-- A walk that is cut off does not end without a mark. -/
theorem hit_of_cut (h : cut cfg w = .ok w') : w'.hit ≠ none := by
  unfold cut at h
  split at h
  · exact absurd h (by simp)
  · obtain rfl := Except.ok.inj h
    simp

/-- At a leaf the depth does not matter. -/
theorem explore_leaf_of_eq_ok (hrules : cfg.maxRules ≤ cfg'.maxRules)
    (hpos : d.position? r = none) (h : explore d cfg depth w r = .ok w') (hw' : w'.hit = none) :
    w.hit = none ∧ explore d cfg' depth' w r = .ok w' := by
  rw [explore_of_leaf hpos] at h ⊢
  split at h
  · next hfinal =>
    rw [if_pos hfinal]
    obtain ⟨hhit, hkeep⟩ := keep_of_eq_ok hrules h
    exact ⟨hhit ▸ hw', hkeep⟩
  · next hfinal =>
    rw [if_neg hfinal]
    obtain rfl := Except.ok.inj h
    exact ⟨hw', rfl⟩

/-- A walk that ends within some bounds without a mark ends in the same state within larger ones. -/
theorem explore_of_eq_ok (hrules : cfg.maxRules ≤ cfg'.maxRules) (hdepth : depth ≤ depth')
    (h : explore d cfg depth w r = .ok w') (hw' : w'.hit = none) :
    w.hit = none ∧ explore d cfg' depth' w r = .ok w' := by
  induction depth generalizing depth' w w' r with
  | zero =>
    cases hpos : d.position? r with
    | none => exact explore_leaf_of_eq_ok hrules hpos h hw'
    | some i =>
      rw [explore_zero hpos] at h
      exact absurd hw' (hit_of_cut h)
  | succ depth ih =>
    cases hpos : d.position? r with
    | none => exact explore_leaf_of_eq_ok hrules hpos h hw'
    | some i =>
      obtain ⟨depth', rfl⟩ : ∃ n, depth' = n + 1 := ⟨depth' - 1, by omega⟩
      rw [explore_succ hpos] at h ⊢
      exact foldlM_ok_of_ok (I := fun _ => True) (P := fun v : Walk => v.hit = none)
        (fun _ _ _ _ _ _ => trivial) (fun _ _ _ _ _ hv hv' => ih (by omega) hv hv') trivial h hw'

end Walk

/-- Unfolding has the same result within larger bounds. -/
theorem Program.unfold_of_widened (h : cfg.Widened cfg') {query result : Program}
    {mappings : List Rule} {target : Symbol}
    (hresult : query.unfold mappings cfg target = .ok result) :
    query.unfold mappings cfg' target = .ok result := by
  have hdef : query.rulesWithHead target ≠ [] := by
    intro hdef
    rw [unfold_of_undefined hdef] at hresult
    exact absurd hresult (by simp)
  obtain ⟨hcyclic, w, hhit, rfl, hw⟩ := unfold_eq_ok hresult
  have hstart (roots : List Rule) (d : Definitions) :
      Walk.start cfg' roots d = Walk.start cfg roots d := by
    rw [Walk.start, Walk.start, h.freshStem]
  have hwalk : query.walk mappings cfg' target = w := by
    rw [walk, hstart, (foldlM_ok_of_ok (I := fun _ => True) (P := fun v : Walk => v.hit = none)
      (fun _ _ _ _ _ _ => trivial)
      (fun _ _ _ _ _ hv hv' => Walk.explore_of_eq_ok h.maxRules h.maxDepth hv hv') trivial hw
      hhit).2, Walk.final]
  rw [unfold_of_acyclic hdef hcyclic, hwalk, hhit]

/-! ## Reformulation -/

theorem Reformulator.reformulate_of_widened (h : cfg.Widened cfg') {o : Ontology}
    {mappings : List Rule} {query : Program} {name : String} {plan : Plan}
    (hplan : (⟨o, mappings, cfg⟩ : Reformulator).reformulate query name = .ok plan) :
    (⟨o, mappings, cfg'⟩ : Reformulator).reformulate query name = .ok plan := by
  obtain ⟨hvalid, target, q, u, p, htarget, hq, hu, hp, hoptimize⟩ :=
    reformulate_eq_ok_iff.mp hplan
  refine reformulate_eq_ok_iff.mpr ⟨hvalid, target, q, u, p, htarget,
    Ontology.rewrite_of_widened h hq, Program.unfold_of_widened h hu, hp, ?_⟩
  unfold optimize at hoptimize ⊢
  dsimp only at hoptimize ⊢
  rw [h.optimizePlan, h.maxOptimizationSteps]
  exact hoptimize

/-- Raising bounds never changes a result, whatever the policies: rewriting and unfolding return the
same rules in the same order and with the same names of variables, and reformulation returns the
same plan with the same numbers of nodes. -/
theorem ok_of_widened (h : cfg.Widened cfg') :
    (∀ (o : Ontology) (p q : Program), o.rewrite cfg p = .ok q → o.rewrite cfg' p = .ok q) ∧
    (∀ (query : Program) (mappings : List Rule) (target : Symbol) (result : Program),
      query.unfold mappings cfg target = .ok result →
        query.unfold mappings cfg' target = .ok result) ∧
    ∀ (o : Ontology) (mappings : List Rule) (query : Program) (name : String) (plan : Plan),
      (⟨o, mappings, cfg⟩ : Reformulator).reformulate query name = .ok plan →
        (⟨o, mappings, cfg'⟩ : Reformulator).reformulate query name = .ok plan :=
  ⟨fun _ _ _ => Ontology.rewrite_of_widened h, fun _ _ _ _ => Program.unfold_of_widened h,
    fun _ _ _ _ _ => Reformulator.reformulate_of_widened h⟩

open Reformulator in
/-- One step and one rule are enough for the plan for the loops of a symmetric relation, and so it
is the plan for all larger bounds. -/
theorem ok_of_widened_loops :
    (⟨Ontology.ofRules symmetry, edges, { maxDepth := 1, maxRules := 1 }⟩ : Reformulator).reformulate
        loops "q" =
      .ok ⟨.node 1 (.projection (.plain "q" [.var ⟨"x"⟩]))
        [.leaf 2 (.data (.plain "s" [.var ⟨"x"⟩, .var ⟨"x"⟩]))], 3⟩ ∧
    ∀ (depth rules : Nat) (policy : CyclePolicy), 1 ≤ depth → 1 ≤ rules →
      (⟨Ontology.ofRules symmetry, edges,
          { maxDepth := depth, maxRules := rules, cyclePolicy := policy }⟩ :
        Reformulator).reformulate loops "q" =
      .ok ⟨.node 1 (.projection (.plain "q" [.var ⟨"x"⟩]))
        [.leaf 2 (.data (.plain "s" [.var ⟨"x"⟩, .var ⟨"x"⟩]))], 3⟩ := by
  have h : (⟨Ontology.ofRules symmetry, edges, { maxDepth := 1, maxRules := 1 }⟩ :
      Reformulator).reformulate loops "q" =
      .ok ⟨.node 1 (.projection (.plain "q" [.var ⟨"x"⟩]))
        [.leaf 2 (.data (.plain "s" [.var ⟨"x"⟩, .var ⟨"x"⟩]))], 3⟩ := by cbv
  refine ⟨h, fun depth rules policy hdepth hrules => ?_⟩
  have hwidened : Settings.Widened { maxDepth := 1, maxRules := 1 }
      { maxDepth := depth, maxRules := rules, cyclePolicy := policy } :=
    ⟨hdepth, hrules, rfl, rfl, rfl⟩
  exact (ok_of_widened hwidened).2.2 _ _ _ _ _ h

end OntoQuery
