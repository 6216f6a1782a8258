import OntoQuery.Proofs.LeastModel
import OntoQuery.Proofs.RenamingApart
import OntoQuery.Proofs.Unifier
import OntoQuery.Resolution

/-!
# Resolvents and their instances

Resolution is exact on ground instances.  The instances of the resolvent of `r` and `d` at position
`i` are those obtained from an instance of `r` by putting the body of an instance of `d` in the
place of the atom at position `i`, where that atom is the head of the instance of `d`.

* `resolve_eq_some`: what a resolvent is made of.
* `exists_meets_of_resolve`: an instance of the rule and one of the definition, of which the first
  *meets* the second at position `i`: the atom there is the head.
* `resolve_sound`: so an instance of the resolvent comes from instances of the two rules.
* `resolve_lift`: two instances that fit together come from a resolvent.  Since the definition is
  renamed apart, the two valuations can be joined into one (`joint`), and this one factors through
  the unifier.  `resolve_lift_bind` says this of instances that need not be ground.
* `resolve_exact`: both together, for instances as rules.
* `resolve_bind`: resolving an instance of a rule gives an instance of the resolvent.
* `resolve_avoids`: the supply goes on avoiding all variables in play.
-/

namespace OntoQuery

/-! ## Atoms without wildcards -/

/-- Whether no atom of a rule is a wildcard. -/
def Rule.IsPlain (r : Rule) : Prop :=
  ∀ a, r.head = some a ∨ a ∈ r.bodyAtoms → a.isWildcard = false

theorem Rule.isPlain_iff {r : Rule} :
    r.IsPlain ↔ (∀ a ∈ r.head, a.isWildcard = false) ∧ ∀ a ∈ r.bodyAtoms, a.isWildcard = false :=
  ⟨fun h => ⟨fun a ha => h a (Or.inl ha), fun a ha => h a (Or.inr ha)⟩,
    fun h a ha => ha.elim (h.1 a) (h.2 a)⟩

instance (r : Rule) : Decidable r.IsPlain := decidable_of_iff _ Rule.isPlain_iff.symm

/-- The variables left in an atom by a replacement are those of the images. -/
theorem Atom.mem_vars_bind {f : Var → Term} {y : Var} {a : Atom} :
    y ∈ (a.bind f).vars ↔ ∃ x ∈ a.vars, y ∈ (f x).vars := by
  have happ : ∀ s : String, y ∈ ((Term.app s a.args).bind f).vars ↔ y ∈ (a.bind f).vars := by
    intro s
    rw [Term.bind_app, Term.vars_app, vars, args_bind]
  rw [← happ "", Term.mem_vars_bind]
  exact Iff.rfl

namespace Rule

theorem vars_head_subset {r : Rule} {a : Atom} (h : r.head = some a) : a.vars ⊆ r.vars := by
  intro x hx
  rw [vars, headVars, h]
  exact List.mem_append_left _ hx

theorem vars_body_subset {r : Rule} {a : Atom} (h : a ∈ r.bodyAtoms) : a.vars ⊆ r.vars := by
  intro x hx
  rw [vars]
  exact List.mem_append_right _ (List.mem_flatMap.mpr ⟨a, h, hx⟩)

theorem mem_vars {r : Rule} {x : Var} :
    x ∈ r.vars ↔ ∃ a, (r.head = some a ∨ a ∈ r.bodyAtoms) ∧ x ∈ a.vars := by
  constructor
  · intro hx
    rcases List.mem_append.mp hx with hx | hx
    · cases hh : r.head with
      | none => simp [headVars, hh] at hx
      | some a =>
        rw [headVars, hh] at hx
        exact ⟨a, Or.inl rfl, hx⟩
    · obtain ⟨a, ha, hxa⟩ := List.mem_flatMap.mp hx
      exact ⟨a, Or.inr ha, hxa⟩
  · rintro ⟨a, ha | ha, hx⟩
    · exact vars_head_subset ha hx
    · exact vars_body_subset ha hx

/-! ## What a resolvent is made of -/

/-- The rule with the atom at position `i` replaced by a list of atoms. -/
def splice (r : Rule) (i : Nat) (atoms : List Atom) : Rule where
  head := r.head
  body := some (r.bodyAtoms.take i ++ atoms ++ r.bodyAtoms.drop (i + 1))

@[simp] theorem bodyAtoms_splice (r : Rule) (i : Nat) (atoms : List Atom) :
    (r.splice i atoms).bodyAtoms = r.bodyAtoms.take i ++ atoms ++ r.bodyAtoms.drop (i + 1) := rfl

/-- Variables may be replaced before atoms are spliced in, or afterwards. -/
theorem bind_splice (f : Var → Term) (r : Rule) (i : Nat) (atoms : List Atom) :
    (r.splice i atoms).bind f = (r.bind f).splice i (atoms.map (Atom.bind f)) := by
  rw [splice, splice, bind, bodyAtoms_bind, Option.map_some, List.map_append, List.map_append,
    List.map_take, List.map_drop]
  rfl

/-- The other atoms of the body stay. -/
theorem mem_bodyAtoms_splice_of_ne {r : Rule} {i : Nat} {atoms : List Atom} {a b : Atom}
    (ha : r.bodyAtoms[i]? = some a) (hb : b ∈ r.bodyAtoms) (hne : b ≠ a) :
    b ∈ (r.splice i atoms).bodyAtoms := by
  obtain ⟨hlt, hget⟩ := List.getElem?_eq_some_iff.mp ha
  rw [← List.take_append_drop i r.bodyAtoms, ← List.getElem_cons_drop hlt, hget,
    List.mem_append, List.mem_cons] at hb
  rw [bodyAtoms_splice, List.mem_append, List.mem_append]
  rcases hb with hb | hb | hb
  · exact Or.inl (Or.inl hb)
  · exact absurd hb hne
  · exact Or.inr hb

variable {r r' d : Rule} {i : Nat} {g : FreshVars}

/-- A resolvent is the rule with the renamed definition spliced in, under the unifier of the renamed
head with the atom. -/
theorem resolve_eq_some :
    (r.resolve i d g).1 = some r' ↔
      ∃ a head u, r.bodyAtoms[i]? = some a ∧ d.head = some head ∧
        unifyAtoms ((g.renamingFor d.vars).1.applyAtom head) a = some u ∧
        u.applyRule (r.splice i ((g.renamingFor d.vars).1.applyRule d).bodyAtoms) = r' := by
  unfold resolve
  cases r.bodyAtoms[i]? with
  | none => simp
  | some a =>
    cases hd : d.head with
    | none => simp [Renaming.applyRule, bind, hd]
    | some head => simp [Renaming.applyRule, Renaming.applyAtom, bind, hd, splice]

theorem resolve_before (r : Rule) (i : Nat) (d : Rule) (g : FreshVars) :
    g.Before (r.resolve i d g).2 := by
  unfold resolve
  cases r.bodyAtoms[i]? with
  | none => exact FreshVars.Before.refl g
  | some a => exact (g.renamingFor_renamesApart d.vars).before

/-- Resolution keeps the predicate of the head. -/
theorem headPredicate?_resolve (h : (r.resolve i d g).1 = some r') :
    r'.headPredicate? = r.headPredicate? := by
  obtain ⟨a, head, u, -, -, -, rfl⟩ := resolve_eq_some.mp h
  rw [Substitution.applyRule, headPredicate?_bind]
  rfl

/-! ## The supply after a step -/

theorem mem_vars_splice {atoms : List Atom} {x : Var} (h : x ∈ (r.splice i atoms).vars) :
    x ∈ r.vars ∨ ∃ a ∈ atoms, x ∈ a.vars := by
  obtain ⟨a, ha, hx⟩ := mem_vars.mp h
  rcases ha with ha | ha
  · exact Or.inl (vars_head_subset (r := r) ha hx)
  · rw [bodyAtoms_splice, List.mem_append, List.mem_append] at ha
    rcases ha with (ha | ha) | ha
    · exact Or.inl (vars_body_subset (List.mem_of_mem_take ha) hx)
    · exact Or.inr ⟨a, ha, hx⟩
    · exact Or.inl (vars_body_subset (List.mem_of_mem_drop ha) hx)

theorem mem_vars_bind {f : Var → Term} {y : Var} (h : y ∈ (r.bind f).vars) :
    ∃ x ∈ r.vars, y ∈ (f x).vars := by
  obtain ⟨b, hb, hy⟩ := mem_vars.mp h
  have hmem : ∃ a, (r.head = some a ∨ a ∈ r.bodyAtoms) ∧ a.bind f = b := by
    rcases hb with hb | hb
    · obtain ⟨a, ha, rfl⟩ := Option.map_eq_some_iff.mp hb
      exact ⟨a, Or.inl ha, rfl⟩
    · rw [bodyAtoms_bind] at hb
      obtain ⟨a, ha, rfl⟩ := List.mem_map.mp hb
      exact ⟨a, Or.inr ha, rfl⟩
  obtain ⟨a, ha, rfl⟩ := hmem
  obtain ⟨x, hx, hyx⟩ := Atom.mem_vars_bind.mp hy
  exact ⟨x, mem_vars.mpr ⟨a, ha, hx⟩, hyx⟩

/-- The variables of a rule that has been renamed apart are new ones. -/
theorem mem_vars_applyRule {m : Renaming} {y : Var} (h : y ∈ (m.applyRule d).vars) :
    y ∈ d.vars.map m.applyVar := by
  obtain ⟨x, hx, hy⟩ := mem_vars_bind h
  rw [Term.vars_var, List.mem_singleton] at hy
  exact List.mem_map.mpr ⟨x, hx, hy.symm⟩

/-- The variables of the head of a definition that has been renamed apart. -/
theorem vars_applyAtom_head_subset {m : Renaming} {head : Atom} (h : d.head = some head) :
    (m.applyAtom head).vars ⊆ (m.applyRule d).vars := by
  refine vars_head_subset ?_
  rw [Renaming.applyRule, bind, h]
  rfl

/-- The variables of a resolvent are those of the rule and of the renamed definition. -/
theorem vars_resolvent_subset {a head : Atom} {m : Renaming} {u : Substitution}
    (ha : r.bodyAtoms[i]? = some a) (hd : d.head = some head)
    (hu : unifyAtoms (m.applyAtom head) a = some u) :
    (u.applyRule (r.splice i (m.applyRule d).bodyAtoms)).vars ⊆ r.vars ++ (m.applyRule d).vars := by
  intro y hy
  rw [List.mem_append]
  -- a variable of the resolvent is one of the spliced rule, or one of the two atoms
  obtain ⟨x, hx, hyx⟩ := mem_vars_bind hy
  rcases mem_vars_lookup_of_unifyAtoms hu hyx with rfl | hya
  · refine (mem_vars_splice hx).imp id ?_
    rintro ⟨b, hb, hyb⟩
    exact vars_body_subset hb hyb
  · rcases List.mem_append.mp hya with hya | hya
    · exact Or.inr (vars_applyAtom_head_subset hd hya)
    · exact Or.inl (vars_body_subset (List.mem_of_getElem? ha) hya)

/-- If there is an atom to resolve, the supply loses what the definition is renamed to. -/
theorem resolve_snd (h : (r.resolve i d g).1 = some r') :
    (r.resolve i d g).2 = (g.renamingFor d.vars).2 := by
  obtain ⟨a, -, -, ha, -⟩ := resolve_eq_some.mp h
  unfold resolve
  rw [ha]

/-- A supply avoids a definition that it has renamed apart. -/
theorem renamingFor_avoids (g : FreshVars) (d : Rule) :
    (g.renamingFor d.vars).2.Avoids ((g.renamingFor d.vars).1.applyRule d).vars :=
  (g.renamingFor_renamesApart d.vars).avoids.mono (FreshVars.Before.refl _) fun _ hy =>
    mem_vars_applyRule hy

/-- A supply that avoids the variables of a rule avoids those of the resolvent afterwards. -/
theorem resolve_avoids (hg : g.Avoids r.vars) (h : (r.resolve i d g).1 = some r') :
    (r.resolve i d g).2.Avoids r'.vars := by
  have hbefore := (g.renamingFor_renamesApart d.vars).before
  rw [resolve_snd h]
  obtain ⟨a, head, u, ha, hd, hu, rfl⟩ := resolve_eq_some.mp h
  exact ((hg.mono hbefore (List.Subset.refl _)).append (renamingFor_avoids g d)).mono
    (FreshVars.Before.refl _) (vars_resolvent_subset ha hd hu)

/-! ## The resolvents with several definitions -/

theorem resolveAll_before (r : Rule) (i : Nat) (ds : List Rule) (g : FreshVars) :
    g.Before (r.resolveAll i ds g).2 := by
  induction ds generalizing g with
  | nil => exact FreshVars.Before.refl g
  | cons d ds ih => exact (resolve_before r i d g).trans (ih (r.resolve i d g).2)

/-- The resolvent with each definition is among the resolvents with all of them. -/
theorem resolve_of_mem {ds : List Rule} (hd : d ∈ ds) :
    ∃ g', g.Before g' ∧
      ∀ r', (r.resolve i d g').1 = some r' → r' ∈ (r.resolveAll i ds g).1 := by
  induction ds generalizing g with
  | nil => exact absurd hd (by simp)
  | cons e ds ih =>
    rcases List.mem_cons.mp hd with rfl | hd
    · exact ⟨g, FreshVars.Before.refl g, fun r' hr' =>
        List.mem_append_left _ (Option.mem_toList.mpr hr')⟩
    · obtain ⟨g', hg', hmem⟩ := ih (g := (r.resolve i e g).2) hd
      exact ⟨g', (resolve_before r i e g).trans hg', fun r' hr' =>
        List.mem_append_right _ (hmem r' hr')⟩

/-- Nothing else is among them, and the supply avoids them all afterwards. -/
theorem exists_of_mem_resolveAll {ds : List Rule} (hg : g.Avoids r.vars)
    (h : r' ∈ (r.resolveAll i ds g).1) :
    (r.resolveAll i ds g).2.Avoids r'.vars ∧
      ∃ d ∈ ds, ∃ g', g'.Avoids r.vars ∧ (r.resolve i d g').1 = some r' := by
  induction ds generalizing g with
  | nil => exact absurd h (by simp [resolveAll])
  | cons d ds ih =>
    have hafter := resolveAll_before r i ds (r.resolve i d g).2
    rcases List.mem_append.mp h with h | h
    · have hres : (r.resolve i d g).1 = some r' := Option.mem_toList.mp h
      exact ⟨(resolve_avoids hg hres).mono hafter (List.Subset.refl _),
        d, List.mem_cons_self .., g, hg, hres⟩
    · obtain ⟨havoids, e, he, hres⟩ :=
        ih (hg.mono (resolve_before r i d g) (List.Subset.refl _)) h
      exact ⟨havoids, e, List.mem_cons_of_mem _ he, hres⟩

end Rule

/-! ## Instances of resolvents -/

/-- The assignment that follows `w` on the new names of the variables `xs`, and `v` elsewhere. -/
def joint (name : Var → Var) (xs : List Var) (v w : Var → Term) (y : Var) : Term :=
  match xs.find? fun x => name x = y with
  | some x => w x
  | none => v y

section

variable {name : Var → Var} {xs : List Var} (v w : Var → Term)

theorem joint_name (hname : ∀ x ∈ xs, ∀ y ∈ xs, name x = name y → x = y) {x : Var}
    (hx : x ∈ xs) : joint name xs v w (name x) = w x := by
  unfold joint
  cases hf : xs.find? fun z => name z = name x with
  | none =>
    rw [List.find?_eq_none] at hf
    exact absurd (decide_eq_true rfl) (hf x hx)
  | some z =>
    have hz : name z = name x := by simpa using List.find?_some hf
    rw [hname z (List.mem_of_find?_eq_some hf) x hx hz]

theorem joint_of_notMem {y : Var} (hy : ∀ x ∈ xs, name x ≠ y) : joint name xs v w y = v y := by
  have hf : (xs.find? fun x => name x = y) = none := by
    rw [List.find?_eq_none]
    intro x hx
    simpa using hy x hx
  rw [joint, hf]

end

/-- Two valuations, joined into one. -/
def Valuation.joint (name : Var → Var) (xs : List Var) (v w : Valuation) : Valuation where
  value := OntoQuery.joint name xs v w
  ground y := by
    unfold OntoQuery.joint
    split
    · exact w.ground _
    · exact v.ground y

/-- Where an assignment factors through a substitution, so do the rules under it. -/
theorem Substitution.Generalizes.bind_applyRule {u : Substitution} {f : Var → Term}
    (h : u.Generalizes f) (r : Rule) : (u.applyRule r).bind f = r.bind f := by
  rw [applyRule, Rule.bind_bind]
  exact Rule.bind_congr fun x _ => h x

namespace Rule

variable {r r' d : Rule} {i : Nat} {g : FreshVars}

/-- Whether the atom at a position of the body of a rule is the head of a definition. -/
def Meets (r : Rule) (i : Nat) (d : Rule) : Prop :=
  ∃ a, r.bodyAtoms[i]? = some a ∧ d.head = some a

theorem Meets.bind (h : r.Meets i d) (f : Var → Term) : (r.bind f).Meets i (d.bind f) := by
  obtain ⟨a, ha, hd⟩ := h
  refine ⟨a.bind f, ?_, ?_⟩
  · rw [bodyAtoms_bind, List.getElem?_map, ha, Option.map_some]
  · rw [Rule.bind, hd, Option.map_some]

/-- An instance of a rule, with the body of a definition in the place of its head, comes from
instances of the two. -/
theorem Meets.exists_hasInstance (h : r.Meets i d) {head : Option Atom} {body : List Atom}
    (hi : (r.splice i d.bodyAtoms).HasInstance head body) :
    ∃ pre a post mid, pre.length = i ∧ r.HasInstance head (pre ++ a :: post) ∧
      d.HasInstance (some a) mid ∧ body = pre ++ mid ++ post := by
  obtain ⟨a, ha, hd⟩ := h
  obtain ⟨v, hhead, hbody⟩ := hi
  obtain ⟨hlen, hget⟩ := List.getElem?_eq_some_iff.mp ha
  refine ⟨(r.bodyAtoms.take i).map (Atom.bind v), a.bind v,
    (r.bodyAtoms.drop (i + 1)).map (Atom.bind v), d.bodyAtoms.map (Atom.bind v), ?_,
    ⟨v, hhead, ?_⟩, ⟨v, by rw [hd, Option.map_some], rfl⟩, ?_⟩
  · rw [List.length_map, List.length_take]
    omega
  · rw [← List.map_cons, ← List.map_append, ← hget, List.getElem_cons_drop, List.take_append_drop]
  · rw [← hbody, bodyAtoms_splice, List.map_append, List.map_append]

/-- A resolvent is made of an instance of the rule and an instance of the definition. -/
theorem exists_meets_of_resolve (hr : r.IsPlain) (hd : d.IsPlain)
    (h : (r.resolve i d g).1 = some r') :
    ∃ e e' : Var → Term, (r.bind e).Meets i (d.bind e') ∧
      (r.bind e).splice i (d.bind e').bodyAtoms = r' := by
  obtain ⟨a, head, u, ha, hdh, hu, rfl⟩ := resolve_eq_some.mp h
  generalize (g.renamingFor d.vars).1 = m at hu ⊢
  have hw : (m.applyAtom head).isWildcard = a.isWildcard := by
    rw [Renaming.applyAtom, Atom.isWildcard_bind, hd head (Or.inl hdh),
      hr a (Or.inr (List.mem_of_getElem? ha))]
  have heq := applyAtom_eq_of_unifyAtoms hu hw
  -- the definition is renamed first
  have hrenamed : d.bind (fun x => u.lookup (m.applyVar x)) = (m.applyRule d).bind u.lookup := by
    rw [Renaming.applyRule, bind_bind]
    rfl
  refine ⟨u.lookup, fun x => u.lookup (m.applyVar x), ⟨a.bind u.lookup, ?_, ?_⟩, ?_⟩
  · rw [bodyAtoms_bind, List.getElem?_map, ha, Option.map_some]
  · rw [hrenamed, Renaming.applyRule, bind, bind, hdh]
    exact congrArg some heq
  · rw [hrenamed, bodyAtoms_bind, ← bind_splice, Substitution.applyRule]

/-- An instance of a resolvent comes from an instance of the rule, in which the body of an instance
of the definition has been put in the place of the head of that instance. -/
theorem resolve_sound (hr : r.IsPlain) (hd : d.IsPlain) (h : (r.resolve i d g).1 = some r')
    {head : Option Atom} {body : List Atom} (hi : r'.HasInstance head body) :
    ∃ pre a post mid, pre.length = i ∧ r.HasInstance head (pre ++ a :: post) ∧
      d.HasInstance (some a) mid ∧ body = pre ++ mid ++ post := by
  obtain ⟨e, e', hmeets, rfl⟩ := exists_meets_of_resolve hr hd h
  obtain ⟨pre, a, post, mid, hlen, hrule, hdef, rfl⟩ := hmeets.exists_hasInstance hi
  exact ⟨pre, a, post, mid, hlen, hrule.of_bind, hdef.of_bind, rfl⟩

/-- Let `v` replace the variables of a rule and `w` those of a definition, in such a way that the
atom at position `i` and the head of the definition have the same terms afterwards.  Then putting
the body of the definition in the place of the atom gives an instance of a resolvent. -/
theorem resolve_lift_bind (hg : g.Avoids r.vars) {v w : Var → Term} {a head : Atom}
    (ha : r.bodyAtoms[i]? = some a) (hd : d.head = some head)
    (hp : head.predicate = a.predicate)
    (hargs : head.args.map (Term.bind w) = a.args.map (Term.bind v)) :
    ∃ r', (r.resolve i d g).1 = some r' ∧
      r'.bind (joint (g.renamingFor d.vars).1.applyVar d.vars v w) =
        (r.bind v).splice i (d.bind w).bodyAtoms := by
  have happ := g.renamingFor_renamesApart d.vars
  generalize hm : (g.renamingFor d.vars).1 = m at happ
  -- the rule does not notice `w`, and the definition, having been renamed, does not notice `v`
  have hrule : ∀ x ∈ r.vars, joint m.applyVar d.vars v w x = v x := fun x hx =>
    joint_of_notMem v w fun y hy he => happ.apart hg y hy (he ▸ hx)
  have hdef : ∀ x ∈ d.vars, joint m.applyVar d.vars v w (m.applyVar x) = w x := fun x hx =>
    joint_name v w happ.injOn hx
  generalize joint m.applyVar d.vars v w = f at hrule hdef
  have hatom : a.bind f = a.bind v := Atom.bind_congr fun x hx =>
    hrule x (vars_body_subset (List.mem_of_getElem? ha) hx)
  have hhead : (m.applyAtom head).bind f = head.bind w := by
    rw [Renaming.applyAtom, Atom.bind_bind]
    exact Atom.bind_congr fun x hx => hdef x (vars_head_subset hd hx)
  have hrenamed : (m.applyRule d).bind f = d.bind w := by
    rw [Renaming.applyRule, bind_bind]
    exact bind_congr hdef
  obtain ⟨u, hu, hgen⟩ : ∃ u, unifyAtoms (m.applyAtom head) a = some u ∧ u.Generalizes f := by
    refine exists_unifyAtoms (by rw [Renaming.applyAtom, Atom.predicate_bind, hp]) ?_
    rw [← Atom.args_bind, ← Atom.args_bind, hhead, hatom, Atom.args_bind, Atom.args_bind, hargs]
  refine ⟨u.applyRule (r.splice i (m.applyRule d).bodyAtoms), ?_, ?_⟩
  · rw [resolve_eq_some, hm]
    exact ⟨a, head, u, ha, hd, hu, rfl⟩
  · rw [hgen.bind_applyRule, bind_splice, ← bodyAtoms_bind, hrenamed, bind_congr hrule]

/-- Instances of a rule and of a definition, of which one has the head of the other at a position of
its body, come from a resolvent. -/
theorem exists_resolve_of_meets (hg : g.Avoids r.vars) {v w : Var → Term}
    (h : (r.bind v).Meets i (d.bind w)) :
    ∃ r', (r.resolve i d g).1 = some r' ∧
      r'.bind (joint (g.renamingFor d.vars).1.applyVar d.vars v w) =
        (r.bind v).splice i (d.bind w).bodyAtoms := by
  obtain ⟨c, hc, hdc⟩ := h
  rw [bodyAtoms_bind, List.getElem?_map, Option.map_eq_some_iff] at hc
  obtain ⟨a, ha, hac⟩ := hc
  obtain ⟨head, hd, hheadc⟩ := Option.map_eq_some_iff.mp hdc
  have heq : head.bind w = a.bind v := hheadc.trans hac.symm
  refine resolve_lift_bind hg ha hd ?_ ?_
  · rw [← Atom.predicate_bind w, heq, Atom.predicate_bind]
  · rw [← Atom.args_bind, heq, Atom.args_bind]

/-- Two instances that fit together, of a rule and of a definition, come from a resolvent. -/
theorem resolve_lift (hg : g.Avoids r.vars) {head : Option Atom} {pre post mid : List Atom}
    {a : Atom} (hr : r.HasInstance head (pre ++ a :: post)) (hd : d.HasInstance (some a) mid) :
    ∃ r', (r.resolve pre.length d g).1 = some r' ∧ r'.HasInstance head (pre ++ mid ++ post) := by
  obtain ⟨v, hhead, hbody⟩ := hr
  obtain ⟨w, hdhead, hmid⟩ := hd
  rw [← bodyAtoms_bind] at hbody hmid
  have hget : (r.bind v).bodyAtoms[pre.length]? = some a := by
    rw [hbody, List.getElem?_append_right (Nat.le_refl _), Nat.sub_self, List.getElem?_cons_zero]
  have hsplice : ((r.bind v).splice pre.length (d.bind w).bodyAtoms).bodyAtoms =
      pre ++ mid ++ post := by
    rw [bodyAtoms_splice, hbody, hmid, List.take_left, ← List.drop_drop, List.drop_left,
      List.drop_one, List.tail_cons]
  obtain ⟨r', hr', hinst⟩ := exists_resolve_of_meets hg ⟨a, hget, hdhead⟩
  refine ⟨r', hr', Valuation.joint (g.renamingFor d.vars).1.applyVar d.vars v w, ?_, ?_⟩
  · exact (congrArg Rule.head hinst).trans hhead
  · rw [← bodyAtoms_bind]
    exact (congrArg Rule.bodyAtoms hinst).trans hsplice

/-- Resolving an instance of a rule with an instance of a definition gives an instance of the
resolvent, whatever variables the definitions are renamed to. -/
theorem resolve_bind {g' : FreshVars} (hg : g.Avoids r.vars) {f f' : Var → Term}
    (h : ((r.bind f).resolve i (d.bind f') g').1 = some r') :
    ∃ r'' f'', (r.resolve i d g).1 = some r'' ∧ r''.bind f'' = r' := by
  obtain ⟨b, dhead, u, hb, hdb, hu, rfl⟩ := resolve_eq_some.mp h
  generalize (g'.renamingFor (d.bind f').vars).1 = m at hu ⊢
  rw [bodyAtoms_bind, List.getElem?_map, Option.map_eq_some_iff] at hb
  obtain ⟨a, ha, rfl⟩ := hb
  obtain ⟨head, hd, rfl⟩ := Option.map_eq_some_iff.mp hdb
  have hp : head.predicate = a.predicate := by
    have hpu := predicate_eq_of_unifyAtoms hu
    rwa [Renaming.applyAtom, Atom.predicate_bind, Atom.predicate_bind, Atom.predicate_bind] at hpu
  have hafter : ∀ (e e' : Var → Term) (c : Atom),
      (c.bind e).bind e' = c.bind fun x => (e x).bind e' := fun e e' c => Atom.bind_bind e e' c
  have hargs := map_args_eq_of_unifyAtoms hu
  rw [Renaming.applyAtom, ← Atom.args_bind, ← Atom.args_bind, hafter, hafter, hafter,
    Atom.args_bind, Atom.args_bind] at hargs
  obtain ⟨r'', hr'', hinst⟩ := resolve_lift_bind hg ha hd hp hargs
  refine ⟨r'', _, hr'', hinst.trans ?_⟩
  rw [Substitution.applyRule, bind_splice, bind_bind, ← bodyAtoms_bind, Renaming.applyRule,
    bind_bind, bind_bind]

/-- **Resolution is exact**, if the supply avoids the variables of the rule.  There is a resolvent
exactly if some ground instance of the rule has the head of some ground instance of the definition
in the place of the atom.  The ground instances of the resolvent are what such pairs turn into when
the atom is replaced by the body of the instance of the definition. -/
theorem resolve_exact (hr : r.IsPlain) (hd : d.IsPlain) (hg : g.Avoids r.vars) :
    ((r.resolve i d g).1.isSome ↔ ∃ v w : Valuation, (r.bind v).Meets i (d.bind w)) ∧
      ∀ r', (r.resolve i d g).1 = some r' → ∀ s : Rule,
        (∃ v : Valuation, r'.bind v = s) ↔
          ∃ v w : Valuation, (r.bind v).Meets i (d.bind w) ∧
            (r.bind v).splice i (d.bind w).bodyAtoms = s := by
  have hsound : ∀ r', (r.resolve i d g).1 = some r' → ∀ v : Valuation, ∃ v' w' : Valuation,
      (r.bind v').Meets i (d.bind w') ∧
        (r.bind v').splice i (d.bind w').bodyAtoms = r'.bind v := by
    intro r' hr' v
    obtain ⟨e, e', hmeets, rfl⟩ := exists_meets_of_resolve hr hd hr'
    refine ⟨v.after e, v.after e', ?_, ?_⟩
    · have hmeetsv := hmeets.bind v
      rwa [bind_bind, bind_bind] at hmeetsv
    · rw [bind_splice, bind_bind, ← bodyAtoms_bind, bind_bind]
      rfl
  have hlift : ∀ v w : Valuation, (r.bind v).Meets i (d.bind w) →
      ∃ r', (r.resolve i d g).1 = some r' ∧ ∃ v' : Valuation,
        r'.bind v' = (r.bind v).splice i (d.bind w).bodyAtoms := by
    intro v w h
    obtain ⟨r', hr', hinst⟩ := exists_resolve_of_meets hg h
    exact ⟨r', hr', Valuation.joint _ _ v w, hinst⟩
  refine ⟨⟨fun h => ?_, fun ⟨v, w, h⟩ => ?_⟩, fun r' hr' s => ⟨?_, ?_⟩⟩
  · obtain ⟨r', hr'⟩ := Option.isSome_iff_exists.mp h
    obtain ⟨v, w, hmeets, -⟩ := hsound r' hr' default
    exact ⟨v, w, hmeets⟩
  · obtain ⟨r', hr', -⟩ := hlift v w h
    exact Option.isSome_of_eq_some hr'
  · rintro ⟨v, rfl⟩
    exact hsound r' hr' v
  · rintro ⟨v, w, hmeets, rfl⟩
    obtain ⟨r'', hr'', hinst⟩ := hlift v w hmeets
    obtain rfl : r' = r'' := Option.some.inj (hr'.symm.trans hr'')
    exact hinst

/-- Resolving `p(?x, ?z) :- q(?x), t(?x, ?z)` with `q(?x) :- s(?x, ?z)`, which uses the same names,
and with a supply that passes over `?_v0`: the two `?z` stay apart, so `p(a, b)` may follow from
`s(a, c)` and `t(a, b)`. -/
theorem resolve_exact_sharedNames :
    ∃ r', (resolve ⟨some (.plain "p" [.var ⟨"x"⟩, .var ⟨"z"⟩]),
          some [.plain "q" [.var ⟨"x"⟩], .plain "t" [.var ⟨"x"⟩, .var ⟨"z"⟩]]⟩ 0
        ⟨some (.plain "q" [.var ⟨"x"⟩]), some [.plain "s" [.var ⟨"x"⟩, .var ⟨"z"⟩]]⟩
        ⟨"v", 0, [⟨"x"⟩, ⟨"z"⟩, ⟨"_v0"⟩]⟩).1 = some r' ∧
      ∃ v : Valuation, r'.bind v = ⟨some (.plain "p" [.iri "a", .iri "b"]),
        some [.plain "s" [.iri "a", .iri "c"], .plain "t" [.iri "a", .iri "b"]]⟩ := by
  let v (other : String) : Valuation :=
    ⟨fun x => if x = ⟨"x"⟩ then .iri "a" else .iri other, fun x => by split <;> rfl⟩
  have hexact := resolve_exact
    (r := ⟨some (.plain "p" [.var ⟨"x"⟩, .var ⟨"z"⟩]),
      some [.plain "q" [.var ⟨"x"⟩], .plain "t" [.var ⟨"x"⟩, .var ⟨"z"⟩]]⟩) (i := 0)
    (d := ⟨some (.plain "q" [.var ⟨"x"⟩]), some [.plain "s" [.var ⟨"x"⟩, .var ⟨"z"⟩]]⟩)
    (g := ⟨"v", 0, [⟨"x"⟩, ⟨"z"⟩, ⟨"_v0"⟩]⟩) (by decide) (by decide)
    fun x hx => Or.inl (by revert x; decide)
  have hmeets : (bind (v "b") ⟨some (.plain "p" [.var ⟨"x"⟩, .var ⟨"z"⟩]),
        some [.plain "q" [.var ⟨"x"⟩], .plain "t" [.var ⟨"x"⟩, .var ⟨"z"⟩]]⟩).Meets 0
      (bind (v "c") ⟨some (.plain "q" [.var ⟨"x"⟩]), some [.plain "s" [.var ⟨"x"⟩, .var ⟨"z"⟩]]⟩) :=
    ⟨.plain "q" [.iri "a"], rfl, rfl⟩
  obtain ⟨r', hr'⟩ := Option.isSome_iff_exists.mp (hexact.1.mpr ⟨_, _, hmeets⟩)
  exact ⟨r', hr', (hexact.2 r' hr' _).mpr ⟨_, _, hmeets, rfl⟩⟩

end Rule

end OntoQuery
