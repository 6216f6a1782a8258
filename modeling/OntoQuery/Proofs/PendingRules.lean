import OntoQuery.Proofs.Agenda
import OntoQuery.Proofs.LargerBounds

/-!
# Rewriting and unfolding end

Rewriting and unfolding are recursive on the number of steps that may still be made, and this hides
why they end.  Both can be seen as loops over pending rules, each with the number of steps that have
led to it: rewriting keeps them in a queue (`Ontology.queue`), and unfolding on a stack
(`Walk.stack`).  Nothing bounds the number of pending rules.  Definitions may be recursive, each step
may make bodies and terms longer, and rules that are dropped do not count for the bound on rules.

What gets smaller with each turn is the multiset of the numbers of steps that the pending rules have
left (`Ontology.queue_descends`, `Walk.stack_descends`).  So both loops end, with any rules pending
in any state.  From where they start they end with what the recursions compute: in the queue one
generation of rules follows another, and each of them is a round (`Ontology.round_queue`); from the
stack a rule is taken with all that comes from it before the next one (`Walk.explore_eq_turn`).
-/

namespace OntoQuery

variable {cfg : Settings}

/-! ## Rewriting -/

namespace Ontology

variable {o : Ontology} {deeper : Bool} {st st' : Search} {r : Rule} {frontier : List Rule}
  {n k t : Nat} {x : Except RewritingError Search}

/-- Rewriting as a loop over a queue of rules with the numbers of steps that have led to them.  A
turn makes all steps of a rule, and the rules that are found get pending. -/
def queue (o : Ontology) (cfg : Settings) : Agenda (Rule × Nat) Search RewritingError where
  turn st item := do
    let st' ← expandRule o cfg (item.2 < cfg.maxDepth) st item.1
    return ((st'.found.toList.drop st.found.size).map fun r => (r, item.2 + 1), st')
  join new rest := rest ++ new

theorem turn_queue_eq_ok {item : Rule × Nat} {new : List (Rule × Nat)}
    (h : (queue o cfg).turn st item = .ok (new, st')) :
    expandRule o cfg (item.2 < cfg.maxDepth) st item.1 = .ok st' ∧
      new = (st'.found.toList.drop st.found.size).map fun r => (r, item.2 + 1) := by
  obtain ⟨mid, hmid, heq⟩ := bind_eq_ok.mp h
  obtain ⟨rfl, rfl⟩ := Prod.mk.inj (Except.ok.inj heq)
  exact ⟨hmid, rfl⟩

/-- Rules with a step more have a step less to go, and rules that may go no further leave none. -/
theorem queue_descends (o : Ontology) (cfg : Settings) :
    (queue o cfg).Descends fun item => cfg.maxDepth - item.2 where
  turn := by
    intro st item new st' h j hj
    obtain ⟨hexpand, rfl⟩ := turn_queue_eq_ok h
    obtain ⟨r, hr, rfl⟩ := List.mem_map.mp hj
    by_cases hdeep : item.2 < cfg.maxDepth
    · show cfg.maxDepth - (item.2 + 1) < cfg.maxDepth - item.2
      omega
    · have hsize := (expandRule_grows hexpand).stuck (decide_eq_false hdeep)
      rw [List.drop_eq_nil_of_le (by rw [Array.length_toList, hsize])] at hr
      exact absurd hr (by simp)
  join _ _ := List.perm_append_comm

theorem found_prefix_of_expandRule (h : expandRule o cfg deeper st r = .ok st') :
    st.found.toList <+: st'.found.toList :=
  foldlM_moves (R := fun s s' : Search => s.found.toList <+: s'.found.toList)
    (fun _ => List.prefix_refl _) List.IsPrefix.trans
    (fun _ _ _ _ hs' => found_prefix_of_resolveStep hs') h

theorem found_prefix_of_round (h : frontier.foldlM (expandRule o cfg deeper) st = .ok st') :
    st.found.toList <+: st'.found.toList :=
  foldlM_moves (R := fun s s' : Search => s.found.toList <+: s'.found.toList)
    (fun _ => List.prefix_refl _) List.IsPrefix.trans
    (fun _ _ _ _ hs' => found_prefix_of_expandRule hs') h

/-- What is found in two parts. -/
theorem drop_found_append {mid : Search} (h : st.found.toList <+: mid.found.toList)
    (h' : mid.found.toList <+: st'.found.toList) :
    st'.found.toList.drop st.found.size =
      mid.found.toList.drop st.found.size ++ st'.found.toList.drop mid.found.size := by
  obtain ⟨new, hnew⟩ := h
  obtain ⟨more, hmore⟩ := h'
  rw [← Array.length_toList, ← Array.length_toList, ← hmore, List.drop_left, ← hnew,
    List.append_assoc, List.drop_left, List.drop_left]

/-- A turn for each rule of a generation is a round. -/
theorem round_queue (frontier : List Rule) (st : Search) (k : Nat) :
    (queue o cfg).round (frontier.map fun r => (r, k)) st =
      (frontier.foldlM (expandRule o cfg (k < cfg.maxDepth)) st).map fun st' =>
        ((st'.found.toList.drop st.found.size).map fun r => (r, k + 1), st') := by
  induction frontier generalizing st with
  | nil =>
    have hnone : st.found.toList.drop st.found.size = [] :=
      List.drop_eq_nil_of_le (by rw [Array.length_toList])
    rw [List.foldlM_nil]
    show Except.ok ([], st) = Except.ok (_, st)
    rw [hnone, List.map_nil]
  | cons r frontier ih =>
    rw [List.map_cons, Agenda.round, List.foldlM_cons]
    cases hexpand : expandRule o cfg (k < cfg.maxDepth) st r with
    | error e =>
      have hturn : (queue o cfg).turn st (r, k) = .error e :=
        bind_eq_error.mpr (Or.inl hexpand)
      rw [hturn]
      rfl
    | ok mid =>
      have hturn : (queue o cfg).turn st (r, k) =
          .ok ((mid.found.toList.drop st.found.size).map fun r => (r, k + 1), mid) :=
        bind_eq_ok.mpr ⟨mid, hexpand, rfl⟩
      rw [hturn]
      show Except.map _ ((queue o cfg).round (frontier.map fun r => (r, k)) mid) =
        Except.map _ (frontier.foldlM (expandRule o cfg (k < cfg.maxDepth)) mid)
      rw [ih]
      cases hround : frontier.foldlM (expandRule o cfg (k < cfg.maxDepth)) mid with
      | error e => rfl
      | ok st' =>
        have hfound := drop_found_append (found_prefix_of_expandRule hexpand)
          (found_prefix_of_round hround)
        simp only [Except.map, hfound, List.map_append]

/-- So a queue with rules of one generation stops in their round, or it goes on with the rules that
the round finds. -/
theorem ends_queue_cases (h : (queue o cfg).Ends t (frontier.map fun r => (r, k)) st x) :
    (∃ e, frontier.foldlM (expandRule o cfg (k < cfg.maxDepth)) st = .error e ∧ x = .error e) ∨
      ∃ st' m, frontier.foldlM (expandRule o cfg (k < cfg.maxDepth)) st = .ok st' ∧
        (queue o cfg).Ends m ((st'.found.toList.drop st.found.size).map fun r => (r, k + 1)) st'
          x := by
  have hround := h.round fun _ _ => rfl
  rw [round_queue] at hround
  cases hfold : frontier.foldlM (expandRule o cfg (k < cfg.maxDepth)) st with
  | error e =>
    rw [hfold] at hround
    rcases hround with ⟨e', he, rfl⟩ | ⟨_, _, _, hok, -⟩
    · exact Or.inl ⟨e, rfl, congrArg Except.error (Except.error.inj he).symm⟩
    · exact nomatch hok
  | ok mid =>
    rw [hfold] at hround
    rcases hround with ⟨_, he, -⟩ | ⟨new, st', m, hok, hends⟩
    · exact nomatch he
    · obtain ⟨rfl, rfl⟩ := Prod.mk.inj (Except.ok.inj hok)
      exact Or.inr ⟨mid, m, rfl, hends⟩

/-- A queue with rules of one generation comes to what the rounds come to that are left. -/
theorem eq_rounds_of_ends (hk : k + n = cfg.maxDepth)
    (h : (queue o cfg).Ends t (frontier.map fun r => (r, k)) st x) :
    x = rounds o cfg n frontier st := by
  induction n generalizing k frontier st t with
  | zero =>
    have hlast : decide (k < cfg.maxDepth) = false := decide_eq_false (by omega)
    have hcases := ends_queue_cases h
    rw [hlast] at hcases
    rcases hcases with ⟨e, hround, rfl⟩ | ⟨st', m, hround, hends⟩
    · exact hround.symm
    · -- nothing is found in the last round, and so nothing is pending after it
      rw [List.drop_eq_nil_of_le (by rw [Array.length_toList, (round_grows hround).stuck rfl])]
        at hends
      cases hends
      exact hround.symm
  | succ n ih =>
    have hdeeper : decide (k < cfg.maxDepth) = true := decide_eq_true (by omega)
    cases frontier with
    | nil =>
      cases h
      rfl
    | cons r frontier =>
      have hcases := ends_queue_cases h
      rw [hdeeper] at hcases
      rw [rounds]
      rcases hcases with ⟨e, hround, rfl⟩ | ⟨st', m, hround, hends⟩
      · exact (bind_eq_error.mpr (Or.inl hround)).symm
      · rw [hround]
        exact ih (by omega) hends

/-- The queue with the rules of a program ends, and rewriting answers with what it ends with, unless
there are no ontology rules. -/
theorem exists_ends_rewrite (o : Ontology) (cfg : Settings) (p : Program) :
    ∃ t x, (queue o cfg).Ends t ((o.start cfg p).found.toList.map fun r => (r, 0))
        (o.start cfg p) x ∧
      o.rewrite cfg p = if o.isEmpty then .ok p else x.map fun st => ⟨st.found.toList⟩ := by
  obtain ⟨t, x, hends⟩ := Agenda.exists_ends (queue_descends o cfg)
    ((o.start cfg p).found.toList.map fun r => (r, 0)) (o.start cfg p)
  refine ⟨t, x, hends, ?_⟩
  obtain rfl := eq_rounds_of_ends (Nat.zero_add _) hends
  cases ho : o.isEmpty with
  | true => exact if_pos ho
  | false =>
    rw [rewrite_of_isEmpty_eq_false ho]
    cases o.rounds cfg cfg.maxDepth (o.start cfg p).found.toList (o.start cfg p) <;> rfl

end Ontology

/-! ## Unfolding -/

namespace Walk

variable {d : Definitions} {w : Walk}

/-- Unfolding as a loop over a stack of rules with the numbers of steps that have led to them.  A
turn keeps a leaf or drops it, cuts a rule off, or makes all steps at the first defined atom. -/
def stack (d : Definitions) (cfg : Settings) : Agenda (Rule × Nat) Walk Walk where
  turn w item :=
    match d.position? item.1 with
    | none =>
      if item.1.bodyAtoms.all d.isFinal then (keep cfg w item.1).map fun w' => ([], w')
      else .ok ([], w)
    | some i =>
      if cfg.maxDepth ≤ item.2 then (cut cfg w).map fun w' => ([], w')
      else
        let (children, fresh) := item.1.resolveAll i (d.ofAtom item.1 i) w.fresh
        .ok (children.map fun r => (r, item.2 + 1), { w with fresh := fresh })
  join new rest := new ++ rest

/-- A turn for a leaf leaves nothing. -/
theorem turn_stack_of_leaf {item : Rule × Nat} (h : d.position? item.1 = none) :
    (stack d cfg).turn w item =
      (if item.1.bodyAtoms.all d.isFinal then keep cfg w item.1 else .ok w).map
        fun w' => ([], w') := by
  simp only [stack, h]
  split <;> rfl

/-- Neither does one for a rule that is cut off. -/
theorem turn_stack_of_le {item : Rule × Nat} {i : Nat} (h : d.position? item.1 = some i)
    (hdepth : cfg.maxDepth ≤ item.2) :
    (stack d cfg).turn w item = (cut cfg w).map fun w' => ([], w') := by
  simp only [stack, h, if_pos hdepth]

/-- Other rules leave their resolvents. -/
theorem turn_stack_of_lt {item : Rule × Nat} {i : Nat} (h : d.position? item.1 = some i)
    (hdepth : item.2 < cfg.maxDepth) :
    (stack d cfg).turn w item =
      .ok ((item.1.resolveAll i (d.ofAtom item.1 i) w.fresh).1.map fun r => (r, item.2 + 1),
        { w with fresh := (item.1.resolveAll i (d.ofAtom item.1 i) w.fresh).2 }) := by
  simp only [stack, h, if_neg (Nat.not_le_of_lt hdepth)]

/-- Resolvents have a step less to go. -/
theorem stack_descends (d : Definitions) (cfg : Settings) :
    (stack d cfg).Descends fun item => cfg.maxDepth - item.2 where
  turn := by
    intro w item new w' h j hj
    cases hpos : d.position? item.1 with
    | none =>
      rw [turn_stack_of_leaf hpos] at h
      obtain ⟨_, -, heq⟩ := map_eq_ok.mp h
      obtain ⟨rfl, rfl⟩ := Prod.mk.inj heq
      exact absurd hj (by simp)
    | some i =>
      by_cases hdepth : item.2 < cfg.maxDepth
      · rw [turn_stack_of_lt hpos hdepth] at h
        obtain ⟨rfl, rfl⟩ := Prod.mk.inj (Except.ok.inj h)
        obtain ⟨r, -, rfl⟩ := List.mem_map.mp hj
        show cfg.maxDepth - (item.2 + 1) < cfg.maxDepth - item.2
        omega
      · rw [turn_stack_of_le hpos (Nat.le_of_not_lt hdepth)] at h
        obtain ⟨_, -, heq⟩ := map_eq_ok.mp h
        obtain ⟨rfl, rfl⟩ := Prod.mk.inj heq
        exact absurd hj (by simp)
  join _ _ := List.Perm.refl _

/-- The walk below a rule is a turn for the rule and then a walk below each rule that it leaves. -/
theorem explore_eq_turn (w : Walk) (item : Rule × Nat) :
    explore d cfg (cfg.maxDepth - item.2) w item.1 =
      (stack d cfg).turn w item >>= fun out =>
        out.1.foldlM (fun w item => explore d cfg (cfg.maxDepth - item.2) w item.1) out.2 := by
  have hnone : ∀ y : Except Walk Walk, y = (y.map fun w' => (([] : List (Rule × Nat)), w')) >>=
      fun out => out.1.foldlM (fun w item => explore d cfg (cfg.maxDepth - item.2) w item.1)
        out.2 := by
    intro y
    cases y <;> rfl
  cases hpos : d.position? item.1 with
  | none =>
    rw [turn_stack_of_leaf hpos, explore_of_leaf hpos]
    exact hnone _
  | some i =>
    by_cases hdepth : item.2 < cfg.maxDepth
    · have hsteps : cfg.maxDepth - item.2 = cfg.maxDepth - (item.2 + 1) + 1 := by omega
      rw [turn_stack_of_lt hpos hdepth, hsteps, explore_succ hpos]
      show _ = List.foldlM _ _ (List.map _ _)
      rw [List.foldlM_map]
    · have hsteps : cfg.maxDepth - item.2 = 0 := by omega
      rw [turn_stack_of_le hpos (Nat.le_of_not_lt hdepth), hsteps, explore_zero hpos]
      exact hnone _

/-- A stack with rules that are all at the start comes to what the walk from them comes to. -/
theorem eq_explore_of_ends {t : Nat} {roots : List Rule} {x : Except Walk Walk}
    (h : (stack d cfg).Ends t (roots.map fun r => (r, 0)) w x) :
    x = roots.foldlM (explore d cfg cfg.maxDepth) w := by
  rw [h.eq_foldlM (fun _ _ => rfl) explore_eq_turn, List.foldlM_map]
  rfl

end Walk

/-- How much a bound allows. -/
def Settings.limit (cfg : Settings) : Bound → Nat
  | .depth => cfg.maxDepth
  | .rules => cfg.maxRules

namespace Program

variable {query : Program} {mappings : List Rule} {target : Symbol}

/-- What unfolding answers with, given the recursive predicates and the state in which the walk has
ended. -/
def answer (cfg : Settings) (recursive : List Symbol) (w : Walk) : Except RewritingError Program :=
  if recursive ≠ [] then .error (.cycleDetected recursive (kept cfg w))
  else
    w.hit.elim (.ok ⟨w.found.toList⟩) fun bound =>
      .error (.boundExceeded bound (cfg.limit bound) (kept cfg w))

theorem unfold_eq_answer (hdef : query.rulesWithHead target ≠ []) :
    query.unfold mappings cfg target =
      answer cfg (query.cyclic mappings target) (query.walk mappings cfg target) := by
  by_cases hcyclic : query.cyclic mappings target = []
  · rw [unfold_of_acyclic hdef hcyclic, answer, if_neg (not_not_intro hcyclic)]
    rcases (query.walk mappings cfg target).hit with _ | _ | _ <;> rfl
  · rw [unfold_of_cyclic hdef hcyclic, answer, if_pos hcyclic]

/-- The stack with the rules for a target ends, and unfolding answers with what it ends with, unless
there are no such rules. -/
theorem exists_ends_unfold (query : Program) (mappings : List Rule) (cfg : Settings)
    (target : Symbol) :
    let roots := query.rulesWithHead target
    let d := Definitions.ofQuery query mappings target
    ∃ t x, (Walk.stack d cfg).Ends t (roots.map fun r => (r, 0)) (Walk.start cfg roots d) x ∧
      query.unfold mappings cfg target =
        if roots = [] then .error (.targetNotDefined target.name)
        else answer cfg (query.cyclic mappings target) (Walk.final x) := by
  intro roots d
  obtain ⟨t, x, hends⟩ := Agenda.exists_ends (Walk.stack_descends d cfg)
    (roots.map fun r => (r, 0)) (Walk.start cfg roots d)
  refine ⟨t, x, hends, ?_⟩
  obtain rfl := Walk.eq_explore_of_ends hends
  by_cases hdef : roots = []
  · rw [if_pos hdef, unfold_of_undefined hdef]
  · rw [if_neg hdef, unfold_eq_answer hdef]
    rfl

end Program

/-! ## Both -/

/-- Rewriting and unfolding end.  With any rules pending in any state, the queue of rewriting and the
stack of unfolding end, after a certain number of turns and in a certain way.  This is so in
particular where they start, and there they end with what rewriting and unfolding answer with. -/
theorem loops_end (cfg : Settings) :
    (∀ (o : Ontology) pending st, ∃! e : Nat × Except RewritingError Ontology.Search,
      (o.queue cfg).Ends e.1 pending st e.2) ∧
    (∀ (d : Definitions) pending w, ∃! e : Nat × Except Walk Walk,
      (Walk.stack d cfg).Ends e.1 pending w e.2) ∧
    (∀ (o : Ontology) (p : Program), ∃ t x,
      (o.queue cfg).Ends t ((o.start cfg p).found.toList.map fun r => (r, 0)) (o.start cfg p) x ∧
      o.rewrite cfg p = if o.isEmpty then .ok p else x.map fun st => ⟨st.found.toList⟩) ∧
    ∀ (query : Program) (mappings : List Rule) (target : Symbol),
      let roots := query.rulesWithHead target
      let d := Definitions.ofQuery query mappings target
      ∃ t x, (Walk.stack d cfg).Ends t (roots.map fun r => (r, 0)) (Walk.start cfg roots d) x ∧
        query.unfold mappings cfg target =
          if roots = [] then .error (.targetNotDefined target.name)
          else Program.answer cfg (query.cyclic mappings target) (Walk.final x) :=
  ⟨fun o => Agenda.existsUnique_ends (o.queue_descends cfg),
    fun d => Agenda.existsUnique_ends (Walk.stack_descends d cfg),
    fun o p => o.exists_ends_rewrite cfg p,
    fun query mappings target => query.exists_ends_unfold mappings cfg target⟩

end OntoQuery
