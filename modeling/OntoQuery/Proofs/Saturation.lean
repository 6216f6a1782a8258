import OntoQuery.Ontology
import OntoQuery.Proofs.Derivation
import OntoQuery.Proofs.Success
import OntoQuery.Proofs.Variant

/-!
# Rewriting with an ontology is sound and complete

A list of rules is *saturated* if its rules are reached from the program by ontology steps, if it
has a variant of every rule of the program, and if, with a rule, it has a variant of every resolvent
of it with an ontology rule.

* `rounds_of_step`: what each step of the search keeps is known of its outcome, also of an error.
* `rewrite_saturated`: when rewriting ends well, its result is saturated.  `Search.Valid` is the
  invariant of the search, and `Search.Leads` says how its state moves; a rule counts as `Expanded`
  once all its steps have been made.
* `Saturated.answers_eq`: a saturated list has the same answers over given facts as the program has
  over the least model of the ontology.  For completeness, the atoms of a body are replaced one
  after another, each along its derivation, until all of them are facts (`Replaceable`).
* `rewrite_answers`: both together.
-/

namespace OntoQuery

namespace Ontology

variable {o : Ontology} {cfg : Settings} {p : Program}

theorem mem_steps {r : Rule} {i : Nat} {d : Rule} :
    (i, d) ∈ o.steps r ↔ ∃ a, r.bodyAtoms[i]? = some a ∧ d ∈ o.program.rules ∧
      d.headPredicate? = some a.predicate := by
  simp only [steps, List.mem_flatMap, Prod.exists, List.mem_zipIdx_iff_getElem?, List.mem_map,
    Prod.mk.injEq, Program.rulesWithHead, List.mem_filter, decide_eq_true_eq]
  constructor
  · rintro ⟨a, j, ha, d', ⟨hd, hp⟩, rfl, rfl⟩
    exact ⟨a, ha, hd, hp⟩
  · rintro ⟨a, ha, hd, hp⟩
    exact ⟨a, i, ha, d, ⟨hd, hp⟩, rfl, rfl⟩

/-! ## Saturated lists of rules -/

/-- Whether a list has a variant of what a step of a rule gives, with some renaming apart. -/
def Covered (found : List Rule) (r : Rule) (step : Nat × Rule) : Prop :=
  ∃ g : FreshVars, g.Avoids r.vars ∧
    ∀ r', (r.resolve step.1 step.2 g).1 = some r' → ∃ s ∈ found, s.canonical = r'.canonical

/-- Whether a list has variants of all that the steps of a rule give. -/
def Expanded (o : Ontology) (found : List Rule) (r : Rule) : Prop :=
  ∀ step ∈ o.steps r, Covered found r step

theorem Covered.mono {found found' : List Rule} {r : Rule} {step : Nat × Rule}
    (h : Covered found r step) (hs : found ⊆ found') : Covered found' r step := by
  obtain ⟨g, hg, hcov⟩ := h
  refine ⟨g, hg, fun r' hr' => ?_⟩
  obtain ⟨s, hsf, he⟩ := hcov r' hr'
  exact ⟨s, hs hsf, he⟩

theorem Expanded.mono {found found' : List Rule} {r : Rule} (h : Expanded o found r)
    (hs : found ⊆ found') : Expanded o found' r :=
  fun step hstep => (h step hstep).mono hs

/-- What rewriting computes: all rules that the ontology steps reach, up to variants. -/
structure Saturated (o : Ontology) (p : Program) (rules : List Rule) : Prop where
  /-- Every rule is reached from the program. -/
  reached : ∀ r ∈ rules, Reached p.rules o.steps r
  /-- Every rule of the program has a variant in the list. -/
  start : ∀ r ∈ p.rules, ∃ s ∈ rules, s.canonical = r.canonical
  /-- So has every resolvent of a rule of the list. -/
  expanded : ∀ r ∈ rules, o.Expanded rules r

/-! ## The search -/

/-- The invariant of the search. -/
structure Search.Valid (o : Ontology) (p : Program) (st : Search) : Prop where
  /-- The rules found are reached from the program. -/
  reached : ∀ r ∈ st.found.toList, Reached p.rules o.steps r
  /-- What has been seen are the variants of the rules found. -/
  records : st.seen.Records st.found.toList
  /-- The supply avoids the variables of all rules found. -/
  avoids : ∀ r ∈ st.found.toList, st.fresh.Avoids r.vars

/-- How the state of the search moves: rules are added at the end, unless no round may follow. -/
structure Search.Leads (deeper : Bool) (st st' : Search) : Prop where
  /-- The rules found stay. -/
  found : st.found.toList <+: st'.found.toList
  /-- The supply goes on. -/
  fresh : st.fresh.Before st'.fresh
  /-- In the last round nothing is found. -/
  stuck : deeper = false → st'.found = st.found

namespace Search

variable {deeper : Bool} {st st' st'' : Search}

theorem Leads.refl (deeper : Bool) (st : Search) : Leads deeper st st :=
  ⟨List.prefix_refl _, FreshVars.Before.refl _, fun _ => rfl⟩

theorem Leads.trans (h : Leads deeper st st') (h' : Leads deeper st' st'') :
    Leads deeper st st'' :=
  ⟨h.found.trans h'.found, h.fresh.trans h'.fresh, fun hd => (h'.stuck hd).trans (h.stuck hd)⟩

/-- Going on with the supply. -/
theorem Valid.advance (h : Valid o p st) {g : FreshVars} (hg : st.fresh.Before g) :
    Valid o p { st with fresh := g } :=
  ⟨h.reached, h.records, fun r hr => (h.avoids r hr).mono hg (List.Subset.refl _)⟩

/-- The state with a rule added, unless a variant of it has been seen. -/
def keep (st : Search) (r : Rule) : Search :=
  if st.seen.contains r then st
  else { st with seen := st.seen.insert r, found := st.found.push r }

theorem keep_of_seen {r : Rule} (h : st.seen.contains r = true) : st.keep r = st := by
  rw [keep, if_pos h]

theorem keep_of_not_seen {r : Rule} (h : ¬st.seen.contains r = true) :
    st.keep r = { st with seen := st.seen.insert r, found := st.found.push r } := by
  rw [keep, if_neg h]

theorem fresh_keep (st : Search) (r : Rule) : (st.keep r).fresh = st.fresh := by
  unfold keep
  split <;> rfl

theorem found_prefix_keep (st : Search) (r : Rule) :
    st.found.toList <+: (st.keep r).found.toList := by
  unfold keep
  split
  · exact List.prefix_refl _
  · rw [Array.toList_push]
    exact List.prefix_append _ _

/-- A rule that is kept is reached, and the supply avoids its variables. -/
theorem Valid.keep (h : Valid o p st) {r : Rule} (hr : Reached p.rules o.steps r)
    (hg : st.fresh.Avoids r.vars) : Valid o p (st.keep r) := by
  by_cases hseen : st.seen.contains r = true
  · rw [keep_of_seen hseen]
    exact h
  · rw [keep_of_not_seen hseen]
    have hmem : ∀ s ∈ (st.found.push r).toList, s ∈ st.found.toList ∨ s = r := by
      intro s hs
      rwa [Array.toList_push, List.mem_append, List.mem_singleton] at hs
    refine ⟨fun s hs => ?_, ?_, fun s hs => ?_⟩
    · rcases hmem s hs with hs | rfl
      · exact h.reached s hs
      · exact hr
    · rw [Array.toList_push]
      exact h.records.insert r
    · rcases hmem s hs with hs | rfl
      · exact h.avoids s hs
      · exact hg

/-- After a rule has been kept, a variant of it is there. -/
theorem Valid.exists_variant_keep (h : Valid o p st) (r : Rule) :
    ∃ s ∈ (st.keep r).found.toList, s.canonical = r.canonical := by
  by_cases hseen : st.seen.contains r = true
  · rw [keep_of_seen hseen]
    exact (h.records r).mp hseen
  · rw [keep_of_not_seen hseen, Array.toList_push]
    exact ⟨r, List.mem_append_right _ (List.mem_singleton_self r), rfl⟩

/-- Keeping one rule after another. -/
theorem Valid.foldl_keep {rs : List Rule} (hrs : ∀ r ∈ rs, Reached p.rules o.steps r)
    (h : Valid o p st) (hg : ∀ r ∈ rs, st.fresh.Avoids r.vars) :
    Valid o p (rs.foldl Search.keep st) ∧
      st.found.toList <+: (rs.foldl Search.keep st).found.toList ∧
      ∀ r ∈ rs, ∃ s ∈ (rs.foldl Search.keep st).found.toList, s.canonical = r.canonical := by
  induction rs generalizing st with
  | nil => exact ⟨h, List.prefix_refl _, fun r hr => absurd hr (by simp)⟩
  | cons r rs ih =>
    have hr := h.keep (hrs r (List.mem_cons_self ..)) (hg r (List.mem_cons_self ..))
    have hgs : ∀ s ∈ rs, (st.keep r).fresh.Avoids s.vars := by
      intro s hs
      rw [fresh_keep]
      exact hg s (List.mem_cons_of_mem _ hs)
    obtain ⟨hvalid, hpre, hcov⟩ := ih (fun s hs => hrs s (List.mem_cons_of_mem _ hs)) hr hgs
    rw [List.foldl_cons]
    refine ⟨hvalid, (found_prefix_keep st r).trans hpre, fun s hs => ?_⟩
    rcases List.mem_cons.mp hs with rfl | hs
    · obtain ⟨s', hs', he⟩ := h.exists_variant_keep s
      exact ⟨s', hpre.subset hs', he⟩
    · exact hcov s hs

end Search

/-- The first state is valid, and every rule of the program has a variant in it. -/
theorem start_valid (o : Ontology) (cfg : Settings) (p : Program) :
    (o.start cfg p).Valid o p ∧
      ∀ r ∈ p.rules, ∃ s ∈ (o.start cfg p).found.toList, s.canonical = r.canonical := by
  let st : Search :=
    { fresh := FreshVars.reserve { stem := cfg.freshStem } (p.vars ++ o.program.vars)
      seen := {}
      found := #[] }
  have hst : st.Valid o p :=
    ⟨fun r hr => absurd hr (by simp [st]), RuleSet.records_nil,
      fun r hr => absurd hr (by simp [st])⟩
  have havoids : ∀ r ∈ p.rules, st.fresh.Avoids r.vars := fun r hr =>
    (FreshVars.avoids_reserve _ _).mono (FreshVars.Before.refl _) fun x hx =>
      List.mem_append_left _ (List.mem_flatMap.mpr ⟨r, hr, hx⟩)
  obtain ⟨hvalid, -, hcov⟩ := hst.foldl_keep (fun r hr => .root hr) havoids
  exact ⟨hvalid, hcov⟩

/-! ## One step, one rule, all rounds -/

section

variable {deeper : Bool} {st st' : Search} {r : Rule}

/-- A new rule that is taken in is kept, and in the last round it was no new one. -/
theorem takeNew_eq_ok (h : takeNew cfg deeper st r = .ok st') :
    st' = st.keep r ∧ (deeper = false → st' = st) := by
  unfold takeNew at h
  by_cases hseen : st.seen.contains r = true
  · rw [if_pos hseen] at h
    rw [Search.keep_of_seen hseen]
    exact ⟨(Except.ok.inj h).symm, fun _ => (Except.ok.inj h).symm⟩
  · rw [if_neg hseen] at h
    cases deeper with
    | false => simp at h
    | true =>
      simp only [Bool.not_true, Bool.false_eq_true, if_false] at h
      split at h
      · exact absurd h (by simp)
      · rw [Search.keep_of_not_seen hseen]
        exact ⟨(Except.ok.inj h).symm, fun hd => absurd hd (by simp)⟩

theorem resolveStep_of_eq_none {i : Nat} {d : Rule} (h : (r.resolve i d st.fresh).1 = none) :
    resolveStep cfg deeper r st (i, d) = .ok { st with fresh := (r.resolve i d st.fresh).2 } := by
  simp only [resolveStep, h]

theorem resolveStep_of_eq_some {i : Nat} {d r' : Rule}
    (h : (r.resolve i d st.fresh).1 = some r') :
    resolveStep cfg deeper r st (i, d) =
      takeNew cfg deeper { st with fresh := (r.resolve i d st.fresh).2 } r' := by
  simp only [resolveStep, h]

/-- A resolution step keeps the rules found and adds others at the end. -/
theorem found_prefix_of_resolveStep {step : Nat × Rule}
    (h : resolveStep cfg deeper r st step = .ok st') : st.found.toList <+: st'.found.toList := by
  obtain ⟨i, d⟩ := step
  cases hres : (r.resolve i d st.fresh).1 with
  | none =>
    rw [resolveStep_of_eq_none hres] at h
    obtain rfl := (Except.ok.inj h).symm
    exact List.prefix_refl _
  | some r' =>
    rw [resolveStep_of_eq_some hres] at h
    obtain ⟨rfl, -⟩ := takeNew_eq_ok h
    exact Search.found_prefix_keep { st with fresh := (r.resolve i d st.fresh).2 } r'

/-- What the steps of rules found keep is known of how a round for such rules ends, well or not. -/
theorem round_of_step {P : Except RewritingError Search → Prop} {frontier : List Rule}
    (hstep : ∀ st, ∀ r ∈ st.found.toList, ∀ step ∈ o.steps r, P (.ok st) →
      P (resolveStep cfg deeper r st step))
    (hsub : frontier ⊆ st.found.toList) (h : P (.ok st)) :
    P (frontier.foldlM (expandRule o cfg deeper) st) := by
  -- the rules of the frontier stay found, so that what is known can be taken to the next step
  let Q := fun x => P x ∧ ∀ mid : Search, x = .ok mid → st.found.toList ⊆ mid.found.toList
  have hturn : ∀ r ∈ frontier, ∀ step ∈ o.steps r, ∀ mid, Q (.ok mid) →
      Q (resolveStep cfg deeper r mid step) := by
    rintro r hr step hs mid ⟨hmid, hfound⟩
    have hkept := hfound mid rfl
    exact ⟨hstep mid r (hkept (hsub hr)) step hs hmid,
      fun _ hnext => List.Subset.trans hkept (found_prefix_of_resolveStep hnext).subset⟩
  have hstart : Q (.ok st) :=
    ⟨h, fun mid hmid => by rw [Except.ok.inj hmid]; exact List.Subset.refl _⟩
  have hround : Q (frontier.foldlM (expandRule o cfg deeper) st) :=
    foldlM_outcome (fun r hr _ hr' => foldlM_outcome (hturn r hr) hr') hstart
  exact hround.1

/-- The same for all rounds. -/
theorem rounds_of_step {P : Except RewritingError Search → Prop} {frontier : List Rule}
    (hstep : ∀ deeper st, ∀ r ∈ st.found.toList, ∀ step ∈ o.steps r, P (.ok st) →
      P (resolveStep cfg deeper r st step))
    (hsub : frontier ⊆ st.found.toList) (h : P (.ok st)) (n : Nat) :
    P (rounds o cfg n frontier st) := by
  induction n generalizing frontier st with
  | zero => exact round_of_step (hstep false) hsub h
  | succ n ih =>
    cases frontier with
    | nil => exact h
    | cons r frontier =>
      have hround := round_of_step (hstep true) hsub h
      rw [rounds]
      cases hst : (r :: frontier).foldlM (expandRule o cfg true) st with
      | error e =>
        rw [hst] at hround
        exact hround
      | ok st' =>
        rw [hst] at hround
        exact ih (List.drop_subset _ _) hround

/-- A resolution step covers itself. -/
theorem resolveStep_eq_ok (hst : st.Valid o p) (hr : r ∈ st.found.toList) {step : Nat × Rule}
    (hstep : step ∈ o.steps r) (h : resolveStep cfg deeper r st step = .ok st') :
    st'.Valid o p ∧ Search.Leads deeper st st' ∧ Covered st'.found.toList r step := by
  obtain ⟨i, d⟩ := step
  have hg := hst.avoids r hr
  have hbefore := Rule.resolve_before r i d st.fresh
  have hadv := hst.advance hbefore
  cases hres : (r.resolve i d st.fresh).1 with
  | none =>
    rw [resolveStep_of_eq_none hres] at h
    obtain rfl := (Except.ok.inj h).symm
    refine ⟨hadv, ⟨List.prefix_refl _, hbefore, fun _ => rfl⟩, st.fresh, hg, fun r' hr' => ?_⟩
    rw [hres] at hr'
    exact absurd hr' (by simp)
  | some r' =>
    rw [resolveStep_of_eq_some hres] at h
    obtain ⟨rfl, hstuck⟩ := takeNew_eq_ok h
    refine ⟨hadv.keep (.step (hst.reached r hr) hstep hg hres) (Rule.resolve_avoids hg hres),
      ⟨Search.found_prefix_keep { st with fresh := (r.resolve i d st.fresh).2 } r', ?_,
        fun hd => by rw [hstuck hd]⟩, st.fresh, hg, fun r'' hr'' => ?_⟩
    · rw [Search.fresh_keep]
      exact hbefore
    · obtain rfl : r' = r'' := Option.some.inj (hres.symm.trans hr'')
      exact hadv.exists_variant_keep r'

/-- Making all steps of a rule expands it. -/
theorem expandRule_eq_ok (hst : st.Valid o p) (hr : r ∈ st.found.toList)
    (h : expandRule o cfg deeper st r = .ok st') :
    st'.Valid o p ∧ Search.Leads deeper st st' ∧ o.Expanded st'.found.toList r := by
  obtain ⟨⟨hvalid, -⟩, hleads, hcov⟩ := foldlM_ok
    (I := fun st => st.Valid o p ∧ r ∈ st.found.toList) (R := Search.Leads deeper)
    (Q := fun step st => Covered st.found.toList r step) (Search.Leads.refl deeper)
    Search.Leads.trans (fun hl hc => hc.mono hl.found.subset)
    (fun step hstep s t hs ht => by
      obtain ⟨hvalid, hleads, hcov⟩ := resolveStep_eq_ok hs.1 hs.2 hstep ht
      exact ⟨⟨hvalid, hleads.found.subset hs.2⟩, hleads, hcov⟩) ⟨hst, hr⟩ h
  exact ⟨hvalid, hleads, hcov⟩

/-- A round expands all rules of its frontier. -/
theorem round_eq_ok {frontier : List Rule} (hst : st.Valid o p)
    (hsub : frontier ⊆ st.found.toList)
    (h : frontier.foldlM (expandRule o cfg deeper) st = .ok st') :
    st'.Valid o p ∧ Search.Leads deeper st st' ∧
      ∀ r ∈ frontier, o.Expanded st'.found.toList r := by
  obtain ⟨⟨hvalid, -⟩, hleads, hexp⟩ := foldlM_ok
    (I := fun st => st.Valid o p ∧ frontier ⊆ st.found.toList) (R := Search.Leads deeper)
    (Q := fun r st => o.Expanded st.found.toList r) (Search.Leads.refl deeper)
    Search.Leads.trans (fun hl hc => hc.mono hl.found.subset)
    (fun r hr s t hs ht => by
      obtain ⟨hvalid, hleads, hexp⟩ := expandRule_eq_ok hs.1 (hs.2 hr) ht
      exact ⟨⟨hvalid, fun x hx => hleads.found.subset (hs.2 hx)⟩, hleads, hexp⟩) ⟨hst, hsub⟩ h
  exact ⟨hvalid, hleads, hexp⟩

/-- After all rounds every rule found has been expanded, if before each round the rules outside the
frontier have been. -/
theorem rounds_eq_ok {n : Nat} {frontier : List Rule} (hst : st.Valid o p)
    (hsub : frontier ⊆ st.found.toList)
    (hexp : ∀ r ∈ st.found.toList, r ∈ frontier ∨ o.Expanded st.found.toList r)
    (h : rounds o cfg n frontier st = .ok st') :
    st'.Valid o p ∧ st.found.toList <+: st'.found.toList ∧
      ∀ r ∈ st'.found.toList, o.Expanded st'.found.toList r := by
  induction n generalizing frontier st with
  | zero =>
    rw [rounds] at h
    obtain ⟨hvalid, hleads, hfrontier⟩ := round_eq_ok hst hsub h
    refine ⟨hvalid, hleads.found, fun r hr => ?_⟩
    rw [hleads.stuck rfl] at hr
    rcases hexp r hr with hr | hr
    · exact hfrontier r hr
    · exact hr.mono hleads.found.subset
  | succ n ih =>
    cases frontier with
    | nil =>
      rw [rounds] at h
      obtain rfl := Except.ok.inj h
      refine ⟨hst, List.prefix_refl _, fun r hr => ?_⟩
      exact (hexp r hr).resolve_left (by simp)
    | cons r frontier =>
      rw [rounds] at h
      obtain ⟨mid, hround, hrounds⟩ := bind_eq_ok.mp h
      obtain ⟨hvalid, hleads, hfrontier⟩ := round_eq_ok hst hsub hround
      obtain ⟨new, hnew⟩ := hleads.found
      have hdrop : mid.found.toList.drop st.found.size = new := by
        rw [← hnew, ← Array.length_toList, List.drop_left]
      have hrest := ih hvalid (fun s hs => List.mem_of_mem_drop hs) (fun s hs => ?_) hrounds
      · exact ⟨hrest.1, hleads.found.trans hrest.2.1, hrest.2.2⟩
      · -- a rule found by now is new, or it was there before the round
        rw [hdrop]
        rw [← hnew, List.mem_append] at hs
        rcases hs with hs | hs
        · rcases hexp s hs with hs | hs
          · exact Or.inr (hfrontier s hs)
          · exact Or.inr (hs.mono hleads.found.subset)
        · exact Or.inl hs

end

/-- When rewriting ends well, its result is saturated. -/
theorem rewrite_saturated {q : Program} (h : o.rewrite cfg p = .ok q) :
    o.Saturated p q.rules := by
  unfold rewrite at h
  by_cases ho : o.isEmpty = true
  · rw [if_pos ho] at h
    obtain rfl := Except.ok.inj h
    have hnone : o.program.rules = [] := List.isEmpty_iff.mp ho
    refine ⟨fun r hr => .root hr, fun r hr => ⟨r, hr, rfl⟩, fun r _ step hstep => ?_⟩
    obtain ⟨a, -, hd, -⟩ := mem_steps.mp hstep
    rw [hnone] at hd
    exact absurd hd (by simp)
  · rw [if_neg ho] at h
    obtain ⟨hvalid, hcov⟩ := start_valid o cfg p
    obtain ⟨st, hrounds, hst⟩ := bind_eq_ok.mp h
    obtain rfl := Except.ok.inj hst
    obtain ⟨hst, hpre, hexp⟩ := rounds_eq_ok hvalid (List.Subset.refl _) (fun r hr => Or.inl hr)
      hrounds
    refine ⟨hst.reached, fun r hr => ?_, hexp⟩
    obtain ⟨s, hs, he⟩ := hcov r hr
    exact ⟨s, hpre.subset hs, he⟩

/-! ## Answers of saturated lists -/

/-- Whether some rule of a list has the given instance. -/
def HasInstanceIn (rules : List Rule) (head : Option Atom) (body : List Atom) : Prop :=
  ∃ r ∈ rules, r.HasInstance head body

/-- Whether a body atom can be replaced by atoms that hold, in every instance of rules of a list. -/
def Replaceable (rules : List Rule) (truth facts : Set Atom) (a : Atom) : Prop :=
  ∀ head pre post, HasInstanceIn rules head (pre ++ a :: post) →
    ∃ mid, (∀ b ∈ mid, b.Holds truth facts) ∧ HasInstanceIn rules head (pre ++ mid ++ post)

section

variable {rules : List Rule} {truth facts : Set Atom}

theorem Replaceable.of_holds {a : Atom} (h : a.Holds truth facts) :
    Replaceable rules truth facts a := by
  intro head pre post hi
  refine ⟨[a], fun b hb => ?_, ?_⟩
  · rw [List.mem_singleton.mp hb]
    exact h
  · rw [List.append_assoc]
    exact hi

/-- If all atoms of a stretch of the body can be replaced, they can be replaced together. -/
theorem exists_replacement {atoms : List Atom}
    (h : ∀ a ∈ atoms, Replaceable rules truth facts a) {head : Option Atom} {pre post : List Atom}
    (hi : HasInstanceIn rules head (pre ++ atoms ++ post)) :
    ∃ mid, (∀ b ∈ mid, b.Holds truth facts) ∧ HasInstanceIn rules head (pre ++ mid ++ post) := by
  induction atoms generalizing pre with
  | nil => exact ⟨[], fun b hb => absurd hb (by simp), hi⟩
  | cons a atoms ih =>
    rw [List.append_assoc, List.cons_append] at hi
    obtain ⟨mid, hmid, hi⟩ := h a (List.mem_cons_self ..) head pre (atoms ++ post) hi
    rw [← List.append_assoc] at hi
    obtain ⟨rest, hrest, hi⟩ := ih (fun b hb => h b (List.mem_cons_of_mem _ hb)) hi
    refine ⟨mid ++ rest, fun b hb => ?_, ?_⟩
    · rcases List.mem_append.mp hb with hb | hb
      · exact hmid b hb
      · exact hrest b hb
    · rwa [← List.append_assoc]

/-- A saturated list can make every ontology step on its ground instances. -/
theorem Saturated.hasInstanceIn_step (h : o.Saturated p rules) {head : Option Atom}
    {pre post mid : List Atom} {a : Atom} (hi : HasInstanceIn rules head (pre ++ a :: post))
    {d : Rule} (hd : d ∈ o.program.rules) (hdi : d.HasInstance (some a) mid) :
    HasInstanceIn rules head (pre ++ mid ++ post) := by
  obtain ⟨r, hr, hri⟩ := hi
  have hstep : (pre.length, d) ∈ o.steps r := by
    obtain ⟨b, hb, hpred⟩ := hri.exists_getElem?
    refine mem_steps.mpr ⟨b, hb, hd, ?_⟩
    rw [hpred]
    exact hdi.headPredicate?_eq
  obtain ⟨g, hg, hcov⟩ := h.expanded r hr _ hstep
  obtain ⟨r', hr', hi'⟩ := Rule.resolve_lift hg hri hdi
  obtain ⟨s, hs, he⟩ := hcov r' hr'
  exact ⟨s, hs, (Rule.hasInstance_iff_of_canonical_eq he).mpr hi'⟩

/-- Whatever the ontology derives from facts can be replaced by facts. -/
theorem Saturated.replaceable (h : o.Saturated p rules) {a : Atom}
    (ha : Derivable o.program.rules truth facts a) (hb : a.isBuiltin = false) :
    Replaceable rules truth facts a := by
  induction ha with
  | fact hf => exact .of_holds ((Atom.holds_of_not_isBuiltin hb).mpr hf)
  | @rule d a body hd hdi ht _ ih =>
    intro head pre post hi
    refine exists_replacement (fun b hbm => ?_) (h.hasInstanceIn_step hi hd hdi)
    cases hbb : b.isBuiltin with
    | true => exact .of_holds ((Atom.holds_of_isBuiltin hbb).mpr (ht b hbm hbb))
    | false => exact ih b hbm hbb hbb

/-- A saturated list has the answers over given facts that the program has over the least model of
the ontology. -/
theorem Saturated.answers_eq (h : o.Saturated p rules)
    (hp : ∀ r ∈ p.rules, r.IsPlain) (ho : ∀ r ∈ o.program.rules, r.IsPlain)
    (hbuiltin : ∀ r ∈ o.program.rules, ∀ s, r.headPredicate? = some s → s.isBuiltin = false) :
    answers rules truth facts = answers p.rules truth (leastModel o.program.rules truth facts) := by
  apply Set.Subset.antisymm
  · rintro a ⟨r, hr, body, hi, hb⟩
    refine (h.reached r hr).answers_subset hp ?_ answers_leastModel_subset hi fun b hbm =>
      (hb b hbm).mono fun _ hf => subset_leastModel hf
    rintro r ⟨i, d⟩ hs
    obtain ⟨-, -, hd, -⟩ := mem_steps.mp hs
    exact ⟨hd, ho d hd, hbuiltin d hd⟩
  · rintro a ⟨r, hr, body, hi, hb⟩
    obtain ⟨s, hs, he⟩ := h.start r hr
    have hin : HasInstanceIn rules (some a) ([] ++ body ++ []) := by
      rw [List.append_nil, List.nil_append]
      exact ⟨s, hs, (Rule.hasInstance_iff_of_canonical_eq he).mpr hi⟩
    have hrep : ∀ b ∈ body, Replaceable rules truth facts b := by
      intro b hbm
      cases hbb : b.isBuiltin with
      | true =>
        have htrue := (Atom.holds_of_isBuiltin hbb).mp (hb b hbm)
        exact .of_holds ((Atom.holds_of_isBuiltin hbb).mpr htrue)
      | false => exact h.replaceable ((Atom.holds_of_not_isBuiltin hbb).mp (hb b hbm)) hbb
    obtain ⟨mid, hmid, s', hs', hi'⟩ := exists_replacement hrep hin
    rw [List.append_nil, List.nil_append] at hi'
    exact ⟨s', hs', mid, hi', hmid⟩

end

/-! ## Rules without heads -/

theorem answers_ofRules (rs : List Rule) (truth facts : Set Atom) :
    answers (ofRules rs).program.rules truth facts = answers rs truth facts := by
  apply Set.Subset.antisymm
  · exact answers_mono (List.filter_subset_self rs) (Set.Subset.refl _)
  · rintro a ⟨r, hr, body, hi, hb⟩
    refine ⟨r, List.mem_filter.mpr ⟨hr, ?_⟩, body, hi, hb⟩
    obtain ⟨v, hh, -⟩ := hi
    rw [← Option.isSome_map (f := Atom.bind v), hh]
    rfl

/-- Rules without heads derive nothing. -/
theorem leastModel_ofRules (rs : List Rule) (truth facts : Set Atom) :
    leastModel (ofRules rs).program.rules truth facts = leastModel rs truth facts := by
  apply Set.Subset.antisymm
  · exact leastModel_mono (List.filter_subset_self rs) (Set.Subset.refl _)
  · refine leastModel_subset subset_leastModel ?_
    rw [← answers_ofRules]
    exact answers_leastModel_subset

/-- The answers of a list that is saturated under the rules with a head among the given ones. -/
theorem Saturated.answers_eq_of_ofRules {rs rules : List Rule} {p : Program}
    (h : (ofRules rs).Saturated p rules) (hrs : ∀ r ∈ rs, r.IsPlain)
    (hbuiltin : ∀ r ∈ rs, ∀ s, r.headPredicate? = some s → s.isBuiltin = false)
    (hp : ∀ r ∈ p.rules, r.IsPlain) (truth facts : Set Atom) :
    answers rules truth facts = answers p.rules truth (leastModel rs truth facts) := by
  have hsub : ∀ r ∈ (ofRules rs).program.rules, r ∈ rs := fun r hr => List.filter_subset_self rs hr
  rw [← leastModel_ofRules]
  exact h.answers_eq hp (fun r hr => hrs r (hsub r hr)) fun r hr => hbuiltin r (hsub r hr)

/-! ## Rewriting -/

/-- Rewriting with an ontology is sound and complete: over given facts, its result has exactly the
answers that the program has over what the ontology derives from these facts. -/
theorem rewrite_answers {rs : List Rule} {cfg : Settings} {p q : Program}
    (hbuiltin : ∀ r ∈ rs, ∀ s, r.headPredicate? = some s → s.isBuiltin = false)
    (hrs : ∀ r ∈ rs, r.IsPlain) (hp : ∀ r ∈ p.rules, r.IsPlain)
    (h : (ofRules rs).rewrite cfg p = .ok q) (truth facts : Set Atom) :
    answers q.rules truth facts = answers p.rules truth (leastModel rs truth facts) :=
  (rewrite_saturated h).answers_eq_of_ofRules hrs hbuiltin hp truth facts

/-- Rewriting `q() :- r(?x, ?y)` with `r(?x, ?y) :- r(?y, ?x)` only finds a variant of the rule, and
this loses no answer. -/
theorem rewrite_answers_symmetric :
    (ofRules [⟨some (.plain "r" [.var ⟨"x"⟩, .var ⟨"y"⟩]),
        some [.plain "r" [.var ⟨"y"⟩, .var ⟨"x"⟩]]⟩]).rewrite {}
      ⟨[⟨some (.plain "q" []), some [.plain "r" [.var ⟨"x"⟩, .var ⟨"y"⟩]]⟩]⟩ =
        .ok ⟨[⟨some (.plain "q" []), some [.plain "r" [.var ⟨"x"⟩, .var ⟨"y"⟩]]⟩]⟩ ∧
    ∀ truth facts : Set Atom,
      answers [⟨some (.plain "q" []), some [.plain "r" [.var ⟨"x"⟩, .var ⟨"y"⟩]]⟩] truth facts =
        answers [⟨some (.plain "q" []), some [.plain "r" [.var ⟨"x"⟩, .var ⟨"y"⟩]]⟩] truth
          (leastModel [⟨some (.plain "r" [.var ⟨"x"⟩, .var ⟨"y"⟩]),
            some [.plain "r" [.var ⟨"y"⟩, .var ⟨"x"⟩]]⟩] truth facts) := by
  have h : (ofRules [⟨some (.plain "r" [.var ⟨"x"⟩, .var ⟨"y"⟩]),
        some [.plain "r" [.var ⟨"y"⟩, .var ⟨"x"⟩]]⟩]).rewrite {}
      ⟨[⟨some (.plain "q" []), some [.plain "r" [.var ⟨"x"⟩, .var ⟨"y"⟩]]⟩]⟩ =
        .ok ⟨[⟨some (.plain "q" []), some [.plain "r" [.var ⟨"x"⟩, .var ⟨"y"⟩]]⟩]⟩ := by cbv
  exact ⟨h, rewrite_answers (by decide) (by decide) (by decide) h⟩

end Ontology

end OntoQuery
