import OntoQuery.Plan.Store.Optimize

/-!
# Edits that check before they change

An edit of a plan in an arena is *atomic* if it either succeeds or leaves the plan as it was.  The
edits look nodes up and check them first; what they change afterwards is there, since they have just
seen it, so that no change fails.

* `Atomic`: what an edit achieves if it succeeds, and that nothing has changed otherwise.
* `atomic_find_bind`, `atomic_check_bind`: looking up and checking change nothing.
* `mapNodes`: all stored nodes changed at once, which is what a series of updates comes down to
  (`run_update`, `run_reparent`).
-/

namespace OntoQuery

namespace PlanStore

/-! ## Changing nodes in place -/

/-- Changes all stored nodes. -/
def mapNodes (f : Arena.Key → PlanNode → PlanNode) (s : PlanStore) : PlanStore :=
  { s with arena :=
    ⟨s.arena.tag, s.arena.slots.mapIdx fun i slot => slot.map (f ⟨s.arena.tag, i⟩)⟩ }

/-- Removes a single node. -/
def erase (k : Arena.Key) (s : PlanStore) : PlanStore := { s with arena := (s.arena.remove k).2 }

/-- Stores a node under a new key. -/
def push (n : PlanNode) (s : PlanStore) : PlanStore := { s with arena := (s.arena.alloc n).2 }

/-- Changes the node under one key only. -/
def updateAt (k : Arena.Key) (f : PlanNode → PlanNode) (l : Arena.Key) (n : PlanNode) : PlanNode :=
  if l = k then f n else n

/-- Gives another parent to the nodes under the given keys. -/
def reparent (parent : Option Arena.Key) (ks : List Arena.Key) (l : Arena.Key) (n : PlanNode) :
    PlanNode :=
  if l ∈ ks then { n with parent := parent } else n

variable (f g : Arena.Key → PlanNode → PlanNode) (s : PlanStore) (k l : Arena.Key)

@[simp] theorem tag_mapNodes : (s.mapNodes f).arena.tag = s.arena.tag := rfl

@[simp] theorem root_mapNodes : (s.mapNodes f).root = s.root := rfl

@[simp] theorem length_slots_mapNodes :
    (s.mapNodes f).arena.slots.length = s.arena.slots.length := by
  simp [mapNodes]

theorem get?_mapNodes : (s.mapNodes f).get? k = (s.get? k).map (f k) := by
  rw [get?, get?, Arena.get?_eq, Arena.get?_eq]
  by_cases htag : k.tag = s.arena.tag
  · have hk : (⟨s.arena.tag, k.offset⟩ : Arena.Key) = k := Arena.Key.eq_of_tag_eq htag.symm rfl
    simp only [mapNodes, htag, if_true, List.getElem?_mapIdx, hk]
    cases s.arena.slots[k.offset]? with
    | none => rfl
    | some slot => cases slot <;> rfl
  · simp [mapNodes, htag]

theorem mapNodes_mapNodes : (s.mapNodes f).mapNodes g = s.mapNodes fun l n => g l (f l n) := by
  simp only [mapNodes, List.mapIdx_mapIdx, Function.comp_def, Option.map_map]

@[simp] theorem tag_erase : (s.erase k).arena.tag = s.arena.tag := Arena.tag_remove _ _

@[simp] theorem root_erase : (s.erase k).root = s.root := rfl

@[simp] theorem length_slots_erase : (s.erase k).arena.slots.length = s.arena.slots.length :=
  Arena.length_slots_remove _ _

theorem get?_erase : (s.erase k).get? l = if l = k then none else s.get? l :=
  Arena.get?_remove _ _ _

@[simp] theorem tag_push (n : PlanNode) : (s.push n).arena.tag = s.arena.tag := rfl

@[simp] theorem root_push (n : PlanNode) : (s.push n).root = s.root := rfl

@[simp] theorem length_slots_push (n : PlanNode) :
    (s.push n).arena.slots.length = s.arena.slots.length + 1 :=
  Arena.length_slots_alloc _ _

theorem get?_push (n : PlanNode) :
    (s.push n).get? l = if l = s.key s.arena.slots.length then some n else s.get? l :=
  Arena.get?_alloc _ _ _

theorem mapNodes_id : s.mapNodes (fun _ n => n) = s := by
  have hslots : (s.arena.slots.mapIdx fun _ slot => slot.map fun n : PlanNode => n) =
      s.arena.slots := by
    refine List.ext_getElem? fun i => ?_
    rw [List.getElem?_mapIdx]
    simp
  rw [mapNodes, hslots]

variable {f g s k l}

theorem mapNodes_congr (h : ∀ l n, s.get? l = some n → f l n = g l n) :
    s.mapNodes f = s.mapNodes g := by
  unfold mapNodes
  congr 2
  refine List.ext_getElem? fun i => ?_
  rw [List.getElem?_mapIdx, List.getElem?_mapIdx]
  cases hslot : s.arena.slots[i]? with
  | none => rfl
  | some slot =>
    cases slot with
    | none => rfl
    | some n =>
      have hn : s.get? ⟨s.arena.tag, i⟩ = some n := Arena.get?_eq_some_iff.mpr ⟨rfl, hslot⟩
      simp [h _ n hn]

theorem exists_of_get?_mapNodes {n : PlanNode} (h : (s.mapNodes f).get? l = some n) :
    ∃ m, s.get? l = some m := by
  rw [get?_mapNodes] at h
  obtain ⟨m, hm, -⟩ := Option.map_eq_some_iff.mp h
  exact ⟨m, hm⟩

theorem get?_updateAt_self {n : PlanNode} {u : PlanNode → PlanNode} (h : s.get? k = some n) :
    (s.mapNodes (updateAt k u)).get? k = some (u n) := by
  rw [get?_mapNodes, h, Option.map_some, updateAt, if_pos rfl]

theorem get?_updateAt_of_ne {u : PlanNode → PlanNode} (h : l ≠ k) :
    (s.mapNodes (updateAt k u)).get? l = s.get? l := by
  have hid : updateAt k u l = id := by
    funext n
    rw [updateAt, if_neg h, id]
  rw [get?_mapNodes, hid, Option.map_id, id]

theorem get?_reparent_of_mem {n : PlanNode} {q : Option Arena.Key} {ks : List Arena.Key}
    (hl : l ∈ ks) (h : s.get? l = some n) :
    (s.mapNodes (reparent q ks)).get? l = some { n with parent := q } := by
  rw [get?_mapNodes, h, Option.map_some, reparent, if_pos hl]

theorem get?_reparent_of_notMem {q : Option Arena.Key} {ks : List Arena.Key} (hl : l ∉ ks) :
    (s.mapNodes (reparent q ks)).get? l = s.get? l := by
  have hid : reparent q ks l = id := by
    funext n
    rw [reparent, if_neg hl, id]
  rw [get?_mapNodes, hid, Option.map_id, id]

/-- Overwriting a node changes this node only. -/
theorem set_eq_mapNodes {n : PlanNode} (h : s.get? k = some n) (f : PlanNode → PlanNode) :
    { s with arena := (s.arena.set k (f n)).2 } = s.mapNodes (updateAt k f) := by
  obtain ⟨htag, hslot⟩ := Arena.get?_eq_some_iff.mp h
  have hset : (s.arena.set k (f n)).2 = ⟨s.arena.tag, s.arena.slots.set k.offset (some (f n))⟩ := by
    unfold Arena.set
    rw [show s.arena.get? k = some n from h]
  unfold mapNodes
  rw [hset]
  congr 2
  refine List.ext_getElem? fun i => ?_
  rw [List.getElem?_mapIdx, List.getElem?_set]
  by_cases hi : k.offset = i
  · subst hi
    have hk : (⟨s.arena.tag, k.offset⟩ : Arena.Key) = k := Arena.Key.eq_of_tag_eq htag.symm rfl
    rw [if_pos rfl, if_pos (List.getElem?_eq_some_iff.mp hslot).1, hslot, hk]
    simp [updateAt]
  · have hne : (⟨s.arena.tag, i⟩ : Arena.Key) ≠ k := fun heq => hi (by rw [← heq])
    have hid : (fun slot : Option PlanNode => slot.map (updateAt k f ⟨s.arena.tag, i⟩)) = id := by
      funext slot
      cases slot <;> simp [updateAt, hne]
    rw [if_neg hi, hid, Option.map_id, id]

end PlanStore

namespace StoreEdit

open PlanStore

variable {α β : Type} {s s' : PlanStore}

/-! ## Runs -/

theorem run_bind_of_ok {x : StoreEdit α} {f : α → StoreEdit β} {a : α} (h : x.run s = .ok a s') :
    (x >>= f).run s = (f a).run s' := by
  rw [EStateM.run_bind, h]

theorem run_find {k : Arena.Key} {n : PlanNode} (h : s.get? k = some n) :
    (find k).run s = .ok n s := by
  have hfind : s.find k = .ok n := by rw [PlanStore.find, h]
  show (ofExcept (s.find k) : StoreEdit PlanNode).run s = _
  rw [hfind]
  rfl

theorem run_check {e : Except PlanError α} {a : α} (h : e = .ok a) :
    (ofExcept e : StoreEdit α).run s = .ok a s := by
  rw [h]
  rfl

theorem run_update {k : Arena.Key} {n : PlanNode} (h : s.get? k = some n)
    (f : PlanNode → PlanNode) : (update k f).run s = .ok () (s.mapNodes (updateAt k f)) := by
  rw [update, run_bind_of_ok (run_find h), ← set_eq_mapNodes h]
  rfl

theorem run_alloc (n : PlanNode) :
    (alloc n).run s = .ok (s.key s.arena.slots.length) (s.push n) := rfl

/-- Giving stored nodes another parent does not fail. -/
theorem run_reparent {ks : List Arena.Key} (parent : Option Arena.Key)
    (h : ∀ k ∈ ks, ∃ n, s.get? k = some n) :
    (ks.forM fun k => update k fun n => { n with parent := parent }).run s =
      .ok () (s.mapNodes (reparent parent ks)) := by
  induction ks generalizing s with
  | nil =>
    have hid : reparent parent [] = fun _ n => n := by
      funext l n
      simp [reparent]
    rw [hid, mapNodes_id]
    rfl
  | cons k ks ih =>
    obtain ⟨⟨n, hn⟩, hks⟩ := List.forall_mem_cons.mp h
    rw [List.forM_eq_forM] at ih ⊢
    rw [List.forM_cons, run_bind_of_ok (run_update hn _), ih, mapNodes_mapNodes]
    · congr 1
      refine mapNodes_congr fun l m _ => ?_
      unfold reparent updateAt
      by_cases hk : l = k <;> by_cases hl : l ∈ ks <;> simp [hk, hl]
    · intro l hl
      obtain ⟨m, hm⟩ := hks l hl
      exact ⟨_, by rw [get?_mapNodes, hm]; rfl⟩

/-! ## Atomic edits -/

/-- Whether an edit either achieves something or fails and leaves the plan as it was. -/
def Atomic (edit : StoreEdit α) (s : PlanStore) (P : α → PlanStore → Prop) : Prop :=
  match edit.run s with
  | .ok a s' => P a s'
  | .error _ s' => s' = s

variable {P : α → PlanStore → Prop}

theorem Atomic.eq_of_error {edit : StoreEdit α} (h : edit.Atomic s P) {e : PlanError}
    (hrun : edit.run s = .error e s') : s' = s := by
  rw [Atomic, hrun] at h
  exact h

theorem Atomic.of_ok {edit : StoreEdit α} (h : edit.Atomic s P) {a : α}
    (hrun : edit.run s = .ok a s') : P a s' := by
  rw [Atomic, hrun] at h
  exact h

theorem atomic_of_run {edit : StoreEdit α} {a : α} (h : edit.run s = .ok a s') (hP : P a s') :
    edit.Atomic s P := by
  rw [Atomic, h]
  exact hP

theorem atomic_throw (e : PlanError) : (throw e : StoreEdit α).Atomic s P := rfl

/-- Looking at the plan does not change it. -/
theorem atomic_get_bind {f : PlanStore → StoreEdit α} (h : (f s).Atomic s P) :
    ((get : StoreEdit PlanStore) >>= f).Atomic s P := h

/-- Looking a node up does not change anything. -/
theorem atomic_find_bind {k : Arena.Key} {f : PlanNode → StoreEdit α}
    (h : ∀ n, s.get? k = some n → (f n).Atomic s P) : (find k >>= f).Atomic s P := by
  cases hk : s.get? k with
  | none =>
    have hfind : s.find k = .error (.unknownNode k.offset) := by rw [PlanStore.find, hk]
    have hrun : (find k).run s = .error (.unknownNode k.offset) s := by
      show (ofExcept (s.find k) : StoreEdit PlanNode).run s = _
      rw [hfind]
      rfl
    rw [Atomic, EStateM.run_bind, hrun]
  | some n =>
    rw [Atomic, run_bind_of_ok (run_find hk)]
    exact h n hk

/-- Checking something does not change anything. -/
theorem atomic_check_bind {e : Except PlanError β} {f : β → StoreEdit α}
    (h : ∀ b, e = .ok b → (f b).Atomic s P) : ((ofExcept e : StoreEdit β) >>= f).Atomic s P := by
  cases he : e with
  | error err => rfl
  | ok b => exact h b he

/-- An edit that looks a node up and checks it has only to be right where the check succeeds. -/
theorem atomic_find_check {k : Arena.Key} {c : PlanNode → Except PlanError Unit}
    {f : PlanNode → StoreEdit α}
    (h : ∀ n, s.get? k = some n → c n = .ok () →
      (find k >>= fun n => (ofExcept (c n) : StoreEdit Unit) >>= fun _ => f n).Atomic s P) :
    (find k >>= fun n => (ofExcept (c n) : StoreEdit Unit) >>= fun _ => f n).Atomic s P := by
  cases hk : s.get? k with
  | none => exact atomic_find_bind fun n hn => absurd (hk.symm.trans hn) (by simp)
  | some n =>
    cases hc : c n with
    | ok => exact h n hk hc
    | error e =>
      refine atomic_find_bind fun m hm => ?_
      obtain rfl := Option.some.inj (hk.symm.trans hm)
      exact atomic_check_bind fun _ hok => absurd (hc.symm.trans hok) (by simp)

theorem Atomic.mono {edit : StoreEdit α} {Q : α → PlanStore → Prop} (h : edit.Atomic s P)
    (hPQ : ∀ a s', P a s' → Q a s') : edit.Atomic s Q := by
  unfold Atomic at h ⊢
  split
  · rename_i a s' hrun
    rw [hrun] at h
    exact hPQ a s' h
  · rename_i e s' hrun
    rw [hrun] at h
    exact h

end StoreEdit

end OntoQuery
