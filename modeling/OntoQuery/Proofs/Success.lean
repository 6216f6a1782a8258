import Mathlib

/-!
# Computations that end well

What is known of the parts of a computation in `Except` if it ends well.

* `bind_eq_ok`, `map_eq_ok`, `mapError_eq_ok`: then so does each part.
* `bind_eq_error`: otherwise one of the parts does not.
* `forM_eq_ok`, `forM_eq_error`: a loop without a state ends well if all its turns do.
* `foldlM_ok`: what a loop achieves, given what each of its turns does; `foldlM_moves`, if this is
  only how the state moves.
* `foldlM_outcome`: what is known of how a loop ends, well or not, given what each turn keeps.
* `foldlM_ok_of_ok`: a loop that ends well is copied by a loop with other turns.
* `foldlM_error`: if it does not end well, the error is that of one of its turns.
-/

namespace OntoQuery

theorem bind_eq_ok {ε α β : Type} {x : Except ε α} {f : α → Except ε β} {b : β} :
    x >>= f = .ok b ↔ ∃ a, x = .ok a ∧ f a = .ok b := by
  cases x with
  | error e => simp [bind, Except.bind]
  | ok a => simp [bind, Except.bind]

/-- If it ends with an error, this is the error of the first part or of the second. -/
theorem bind_eq_error {ε α β : Type} {x : Except ε α} {f : α → Except ε β} {e : ε} :
    x >>= f = .error e ↔ x = .error e ∨ ∃ a, x = .ok a ∧ f a = .error e := by
  cases x with
  | error e' => simp [bind, Except.bind]
  | ok a => simp [bind, Except.bind]

theorem map_eq_ok {ε α β : Type} {x : Except ε α} {f : α → β} {b : β} :
    x.map f = .ok b ↔ ∃ a, x = .ok a ∧ f a = b := by
  cases x with
  | error e => simp [Except.map]
  | ok a => simp [Except.map]

theorem mapError_eq_ok {ε ε' α : Type} {f : ε → ε'} {x : Except ε α} {a : α} :
    x.mapError f = .ok a ↔ x = .ok a := by
  cases x with
  | error e => simp [Except.mapError]
  | ok b => simp [Except.mapError]

/-! ## Loops -/

section

variable {α ε : Type} {f : α → Except ε Unit} {l : List α}

theorem forM_eq_ok : l.forM f = .ok () ↔ ∀ x ∈ l, f x = .ok () := by
  induction l with
  | nil => simp [List.forM_eq_forM, pure, Except.pure]
  | cons x l ih =>
    rw [List.forM_eq_forM] at ih ⊢
    rw [List.forM_cons, bind_eq_ok, List.forall_mem_cons, ← ih]
    exact ⟨fun ⟨_, hx, hl⟩ => ⟨hx, hl⟩, fun ⟨hx, hl⟩ => ⟨(), hx, hl⟩⟩

/-- Only the turns for the items of the list matter. -/
theorem forM_congr {g : α → Except ε Unit} (h : ∀ x ∈ l, f x = g x) : l.forM f = l.forM g := by
  induction l with
  | nil => rfl
  | cons x l ih =>
    obtain ⟨hx, hl⟩ := List.forall_mem_cons.mp h
    rw [List.forM_eq_forM] at ih ⊢
    rw [List.forM_cons, List.forM_cons, hx, ih hl]

/-- The error of a loop is that of one of its turns. -/
theorem forM_eq_error {e : ε} (h : l.forM f = .error e) : ∃ x ∈ l, f x = .error e := by
  induction l with
  | nil => exact absurd h (by simp [List.forM_eq_forM, pure, Except.pure])
  | cons x l ih =>
    rw [List.forM_eq_forM] at ih h
    rw [List.forM_cons] at h
    cases hx : f x with
    | error e' =>
      rw [hx] at h
      obtain rfl : e' = e := Except.error.inj h
      exact ⟨x, List.mem_cons_self .., hx⟩
    | ok u =>
      rw [hx] at h
      obtain ⟨y, hy, hfy⟩ := ih h
      exact ⟨y, List.mem_cons_of_mem _ hy, hfy⟩

end

section

variable {σ α ε : Type} {f : σ → α → Except ε σ} {l : List α} {s t : σ}

/-- What a loop in `Except` achieves if it ends well.  Each turn keeps the invariant `I`, moves the
state along `R`, and achieves `Q` for its own item, which later moves do not undo. -/
theorem foldlM_ok {I : σ → Prop} {R : σ → σ → Prop} {Q : α → σ → Prop} (hrefl : ∀ s, R s s)
    (htrans : ∀ {s t u}, R s t → R t u → R s u) (hmono : ∀ {x s t}, R s t → Q x s → Q x t)
    (hstep : ∀ x ∈ l, ∀ s t, I s → f s x = .ok t → I t ∧ R s t ∧ Q x t) (hs : I s)
    (h : l.foldlM f s = .ok t) : I t ∧ R s t ∧ ∀ x ∈ l, Q x t := by
  induction l generalizing s with
  | nil =>
    rw [List.foldlM_nil] at h
    obtain rfl : s = t := Except.ok.inj h
    exact ⟨hs, hrefl s, fun x hx => absurd hx (by simp)⟩
  | cons x l ih =>
    rw [List.foldlM_cons] at h
    obtain ⟨u, hx, hrest⟩ := bind_eq_ok.mp h
    obtain ⟨hu, hsu, hq⟩ := hstep x (List.mem_cons_self ..) s u hs hx
    obtain ⟨ht, hut, hqs⟩ := ih (fun y hy => hstep y (List.mem_cons_of_mem _ hy)) hu hrest
    refine ⟨ht, htrans hsu hut, fun y hy => ?_⟩
    rcases List.mem_cons.mp hy with rfl | hy
    · exact hmono hut hq
    · exact hqs y hy

/-- A loop moves its state as its turns do. -/
theorem foldlM_moves {R : σ → σ → Prop} (hrefl : ∀ s, R s s)
    (htrans : ∀ {s t u}, R s t → R t u → R s u) (hstep : ∀ x ∈ l, ∀ s t, f s x = .ok t → R s t)
    (h : l.foldlM f s = .ok t) : R s t :=
  (foldlM_ok (I := fun _ => True) (Q := fun _ _ => True) hrefl htrans (fun _ hq => hq)
    (fun x hx s t _ ht => ⟨trivial, hstep x hx s t ht, trivial⟩) trivial h).2.1

/-- If each turn of a loop keeps what is known of its outcome, then it is known of the loop. -/
theorem foldlM_outcome {P : Except ε σ → Prop} (hstep : ∀ x ∈ l, ∀ s, P (.ok s) → P (f s x))
    (hs : P (.ok s)) : P (l.foldlM f s) := by
  induction l generalizing s with
  | nil => exact hs
  | cons x l ih =>
    have hx := hstep x (List.mem_cons_self ..) s hs
    rw [List.foldlM_cons]
    cases hfx : f s x with
    | error e =>
      rw [hfx] at hx
      exact hx
    | ok t =>
      rw [hfx] at hx
      exact ih (fun y hy => hstep y (List.mem_cons_of_mem _ hy)) hx

/-- If a loop ends well, a loop with other turns ends in the same state, as long as these do the
same.  They need to do so only between states that keep the invariant `I` and from which the loop
comes to an end in `P`, which is followed back from the end to the start. -/
theorem foldlM_ok_of_ok {ε' : Type} {f' : σ → α → Except ε' σ} {I P : σ → Prop}
    (hI : ∀ x ∈ l, ∀ s t, I s → f s x = .ok t → I t)
    (hstep : ∀ x ∈ l, ∀ s t, I s → f s x = .ok t → P t → P s ∧ f' s x = .ok t) (hs : I s)
    (h : l.foldlM f s = .ok t) (ht : P t) : P s ∧ l.foldlM f' s = .ok t := by
  induction l generalizing s with
  | nil =>
    rw [List.foldlM_nil] at h ⊢
    obtain rfl : s = t := Except.ok.inj h
    exact ⟨ht, rfl⟩
  | cons x l ih =>
    rw [List.foldlM_cons] at h ⊢
    obtain ⟨u, hx, hrest⟩ := bind_eq_ok.mp h
    obtain ⟨hu, hrest'⟩ := ih (fun y hy => hI y (List.mem_cons_of_mem _ hy))
      (fun y hy => hstep y (List.mem_cons_of_mem _ hy)) (hI x (List.mem_cons_self ..) s u hs hx)
      hrest
    obtain ⟨hs', hx'⟩ := hstep x (List.mem_cons_self ..) s u hs hx hu
    exact ⟨hs', bind_eq_ok.mpr ⟨u, hx', hrest'⟩⟩

/-- A loop in `Except` ends with an error of one of its turns. -/
theorem foldlM_error {P : ε → Prop} (hstep : ∀ x ∈ l, ∀ s e, f s x = .error e → P e) {e : ε}
    (h : l.foldlM f s = .error e) : P e := by
  have houtcome : ∀ e, l.foldlM f s = .error e → P e :=
    foldlM_outcome (P := fun x => ∀ e, x = .error e → P e) (fun x hx s _ => hstep x hx s)
      fun e h => absurd h (by simp)
  exact houtcome e h

end

end OntoQuery
