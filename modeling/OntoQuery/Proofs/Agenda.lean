import Mathlib.Logic.Hydra
import OntoQuery.Proofs.Success

/-!
# Loops over pending items

A loop takes the first of its pending items, turn after turn, until none is left or a turn stops it.
Each turn changes a state and may leave new items.  They go before the other items on a stack and
behind them in a queue.

How often such a loop turns cannot be read off the number of its items, since a turn may leave any
number of new ones.  But if each of them has a smaller rank than the item it comes from, then the
multiset of ranks gets smaller with each turn, and so the loop ends.  What gets smaller may also
depend on the state, and on an invariant.

* `Agenda.Ends`: the loop ends after a number of turns; `existsUnique_ends` says that it does if its
  items have ranks, and `exists_ends_of_wellFounded` if anything gets smaller.
* `Ends.eq_foldlM`: a stack visits the tree below each of its items before the next item.
* `Ends.round`: a queue goes through all of its items before it goes through the new ones.
-/

namespace OntoQuery

/-- A loop over pending items of a type `ι` that changes a state of a type `σ`. -/
structure Agenda (ι σ ε : Type) where
  /-- What a turn does with an item: it leaves new items and the next state, or stops the loop. -/
  turn : σ → ι → Except ε (List ι × σ)
  /-- What is pending after a turn, given the new items and those that have been pending. -/
  join : List ι → List ι → List ι

namespace Agenda

variable {ι σ ε : Type} {a : Agenda ι σ ε} {n m : Nat} {pending : List ι} {s : σ}
  {x y : Except ε σ}

/-- `a.Ends n pending s x` says that the loop, with these items pending in this state, ends after
`n` turns with `x`. -/
inductive Ends (a : Agenda ι σ ε) : Nat → List ι → σ → Except ε σ → Prop where
  /-- Nothing is pending. -/
  | done (s : σ) : Ends a 0 [] s (.ok s)
  /-- The first turn stops the loop. -/
  | stop {i : ι} {rest : List ι} {s : σ} {e : ε} (h : a.turn s i = .error e) :
      Ends a 1 (i :: rest) s (.error e)
  /-- The first turn is followed by others. -/
  | next {n : Nat} {i : ι} {rest new : List ι} {s s' : σ} {x : Except ε σ}
      (h : a.turn s i = .ok (new, s')) (hrest : Ends a n (a.join new rest) s' x) :
      Ends a (n + 1) (i :: rest) s x

/-- A loop ends in one way only. -/
theorem Ends.unique (h : a.Ends n pending s x) (h' : a.Ends m pending s y) : n = m ∧ x = y := by
  induction h generalizing m with
  | done s =>
    cases h'
    exact ⟨rfl, rfl⟩
  | stop h =>
    cases h' with
    | stop h' => exact ⟨rfl, congrArg Except.error (Except.error.inj (h.symm.trans h'))⟩
    | next h' => exact nomatch h.symm.trans h'
  | next h _ ih =>
    cases h' with
    | stop h' => exact nomatch h.symm.trans h'
    | next h' hrest =>
      obtain ⟨rfl, rfl⟩ := Prod.mk.inj (Except.ok.inj (h.symm.trans h'))
      obtain ⟨rfl, rfl⟩ := ih hrest
      exact ⟨rfl, rfl⟩

/-! ## Why loops end -/

/-- Whether new items have smaller ranks than the item they come from, and no others get pending. -/
structure Descends (a : Agenda ι σ ε) (rank : ι → Nat) : Prop where
  /-- A turn leaves items of smaller ranks. -/
  turn : ∀ {s i new s'}, a.turn s i = .ok (new, s') → ∀ j ∈ new, rank j < rank i
  /-- They are put among the other items somehow. -/
  join : ∀ new rest, (a.join new rest).Perm (new ++ rest)

/-- A loop ends if its turns keep an invariant and make something smaller, while this holds. -/
theorem exists_ends_of_wellFounded {κ : Type} {r : κ → κ → Prop} (hr : WellFounded r)
    (rank : List ι → σ → κ) {P : List ι → σ → Prop}
    (hturn : ∀ {i rest s new s'}, P (i :: rest) s → a.turn s i = .ok (new, s') →
      P (a.join new rest) s' ∧ r (rank (a.join new rest) s') (rank (i :: rest) s))
    {pending : List ι} {s : σ} (h : P pending s) : ∃ n x, a.Ends n pending s x := by
  generalize hk : rank pending s = k
  induction k using hr.induction generalizing pending s with
  | _ k ih =>
    cases pending with
    | nil => exact ⟨0, _, .done s⟩
    | cons i rest =>
      cases hout : a.turn s i with
      | error e => exact ⟨1, _, .stop hout⟩
      | ok out =>
        obtain ⟨new, s'⟩ := out
        obtain ⟨hP, hlt⟩ := hturn h hout
        rw [hk] at hlt
        obtain ⟨n, x, hx⟩ := ih _ hlt hP rfl
        exact ⟨n + 1, x, .next hout hx⟩

/-- A loop whose items descend ends, whatever is pending. -/
theorem exists_ends {rank : ι → Nat} (h : a.Descends rank) (pending : List ι) (s : σ) :
    ∃ n x, a.Ends n pending s x := by
  have hwf : WellFounded (Relation.CutExpand (InvImage (· < ·) rank)) :=
    (InvImage.wf rank Nat.lt_wfRel.wf).cutExpand
  refine exists_ends_of_wellFounded hwf (fun l _ => (l : Multiset ι)) (P := fun _ _ => True)
    (fun {i rest _ new _} _ hout => ⟨trivial, ?_⟩) trivial
  -- each turn replaces an item in the multiset of what is pending by items of smaller ranks
  have hperm : (a.join new rest ++ [i]).Perm (i :: rest ++ new) := by
    refine ((h.join new rest).append_right [i]).trans ?_
    exact (List.perm_append_singleton i _).trans (List.perm_append_comm.cons i)
  exact ⟨new, i, fun j hj => h.turn hout j hj, Multiset.coe_eq_coe.mpr hperm⟩

/-- A loop that ends does so after a certain number of turns and in a certain way. -/
theorem existsUnique_of_exists_ends (h : ∃ n x, a.Ends n pending s x) :
    ∃! e : Nat × Except ε σ, a.Ends e.1 pending s e.2 := by
  obtain ⟨n, x, hx⟩ := h
  refine ⟨(n, x), hx, fun e he => ?_⟩
  obtain ⟨hn, hx⟩ := he.unique hx
  exact Prod.ext hn hx

theorem existsUnique_ends {rank : ι → Nat} (h : a.Descends rank) (pending : List ι) (s : σ) :
    ∃! e : Nat × Except ε σ, a.Ends e.1 pending s e.2 :=
  existsUnique_of_exists_ends (exists_ends h pending s)

/-! ## Stacks -/

/-- If new items go first, then the loop is a loop over the items that are pending at the start,
where a turn takes care of all that comes from its item. -/
theorem Ends.eq_foldlM (hjoin : ∀ new rest, a.join new rest = new ++ rest)
    {f : σ → ι → Except ε σ} (hf : ∀ s i, f s i = a.turn s i >>= fun out => out.1.foldlM f out.2)
    (h : a.Ends n pending s x) : x = pending.foldlM f s := by
  induction h with
  | done s => rfl
  | @stop i rest s e h =>
    rw [List.foldlM_cons, hf, h]
    rfl
  | @next n i rest new s s' x h _ ih =>
    rw [ih, hjoin, List.foldlM_append, List.foldlM_cons, hf, h]
    rfl

/-! ## Queues -/

/-- A turn for each item of a list, with all items that are new after them. -/
def round (a : Agenda ι σ ε) : List ι → σ → Except ε (List ι × σ)
  | [], s => .ok ([], s)
  | i :: rest, s => do
    let out ← a.turn s i
    (a.round rest out.2).map fun more => (out.1 ++ more.1, more.2)

/-- If new items go last, then the loop stops in a turn for one of the first items, or it goes
through all of them and then on with the others and the new ones. -/
theorem Ends.round_append (hjoin : ∀ new rest, a.join new rest = rest ++ new) {rest : List ι}
    (h : a.Ends n (pending ++ rest) s x) :
    (∃ e, a.round pending s = .error e ∧ x = .error e) ∨
      ∃ new s' m, a.round pending s = .ok (new, s') ∧ a.Ends m (rest ++ new) s' x := by
  induction pending generalizing n rest s with
  | nil =>
    refine Or.inr ⟨[], s, n, rfl, ?_⟩
    rw [List.append_nil]
    exact h
  | cons i pending ih =>
    cases h with
    | stop h => exact Or.inl ⟨_, by rw [round, h]; rfl, rfl⟩
    | @next n _ _ new _ s' _ h hrest =>
      have hmoved : a.Ends n (pending ++ (rest ++ new)) s' x := by
        rw [← List.append_assoc, ← hjoin]
        exact hrest
      rcases ih hmoved with ⟨e, hround, rfl⟩ | ⟨more, s'', m, hround, hends⟩
      · refine Or.inl ⟨e, ?_, rfl⟩
        rw [round]
        exact bind_eq_error.mpr (Or.inr ⟨_, h, by rw [hround]; rfl⟩)
      · refine Or.inr ⟨new ++ more, s'', m, ?_, ?_⟩
        · rw [round]
          exact bind_eq_ok.mpr ⟨_, h, map_eq_ok.mpr ⟨_, hround, rfl⟩⟩
        · rwa [← List.append_assoc]

/-- So the new items get their turns when all items from the start have had theirs. -/
theorem Ends.round (hjoin : ∀ new rest, a.join new rest = rest ++ new)
    (h : a.Ends n pending s x) :
    (∃ e, a.round pending s = .error e ∧ x = .error e) ∨
      ∃ new s' m, a.round pending s = .ok (new, s') ∧ a.Ends m new s' x := by
  have hall : a.Ends n (pending ++ []) s x := by rwa [List.append_nil]
  exact hall.round_append hjoin

end Agenda

end OntoQuery
