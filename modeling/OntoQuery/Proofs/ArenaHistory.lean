import Mathlib.Data.List.Induction
import Mathlib.Data.List.Nodup
import Mathlib.Logic.Function.Basic
import OntoQuery.Arena

/-!
# The history of several arenas

Several arenas are in use at a time, and each may be asked about any key: of its own or of another
arena, of a value that is stored or of one that has been removed.  All that they answer can be read
off the log of what has been done to them.  So they are one family of finite maps, in which no key
is used a second time.

A key is handed out once by its arena, because slots stay where they are when values are removed,
and it is not handed out by another arena, because their tags differ.  The latter is where the
number of arenas matters: tags are words of 32 bits, and once all have been given they come again.
A copy of an arena has the tag of the original, and is not one of the arenas here.

* `History`: which arenas arise from new ones, with the log of what has been done.
* `Records`: that a log says which keys have been handed out, and what is stored under them.
* `History.refines`: how arenas answer after any history.
-/

namespace OntoQuery

namespace Arena

variable {α : Type} {a : Arena α} {k : Key}

/-! ## Keys that have been handed out -/

/-- The keys that an arena has handed out, in their order. -/
def keys (a : Arena α) : List Key := (List.range a.slots.length).map fun i => ⟨a.tag, i⟩

theorem mem_keys : k ∈ a.keys ↔ k.tag = a.tag ∧ k.offset < a.slots.length := by
  rw [keys, List.mem_map]
  constructor
  · rintro ⟨i, hi, rfl⟩
    exact ⟨rfl, List.mem_range.mp hi⟩
  · rintro ⟨htag, hoffset⟩
    exact ⟨k.offset, List.mem_range.mpr hoffset, Key.eq_of_tag_eq htag.symm rfl⟩

theorem nodup_keys (a : Arena α) : a.keys.Nodup :=
  List.nodup_range.map fun _ _ h => congrArg Key.offset h

theorem nextKey_notMem_keys (a : Arena α) : a.nextKey ∉ a.keys := fun h =>
  Nat.lt_irrefl _ (mem_keys.mp h).2

theorem keys_alloc (a : Arena α) (v : α) : (a.alloc v).2.keys = a.keys ++ [a.nextKey] := by
  rw [keys, keys, length_slots_alloc, List.range_succ, List.map_append]
  rfl

theorem keys_set (a : Arena α) (k : Key) (v : α) : (a.set k v).2.keys = a.keys := by
  rw [keys, keys, length_slots_set, tag_set]

theorem keys_remove (a : Arena α) (k : Key) : (a.remove k).2.keys = a.keys := by
  rw [keys, keys, length_slots_remove, tag_remove]

/-- What is listed are the keys that have been handed out, with their values, in this order. -/
theorem toList_eq (a : Arena α) :
    a.toList = a.keys.filterMap fun k => (a.get? k).map fun v => (k, v) := by
  have hslots : a.slots.zipIdx =
      (List.range a.slots.length).map fun i => (a.slots[i]?.join, i) := by
    refine List.ext_getElem (by simp) fun i hi hi' => ?_
    rw [List.length_zipIdx] at hi
    simp [hi]
  have hget : ∀ i, a.get? ⟨a.tag, i⟩ = a.slots[i]?.join := fun i => by rw [get?_eq, if_pos rfl]
  rw [toList, keys, hslots, List.filterMap_map, List.filterMap_map]
  refine List.filterMap_congr fun i _ => ?_
  simp only [Function.comp_apply, hget]

theorem length_toList (a : Arena α) : a.toList.length = a.size := by
  have hslots : a.slots.zipIdx.map Prod.fst = a.slots := List.zipIdx_map_fst 0 a.slots
  rw [toList, size, List.length_filterMap_eq_countP, ← List.countP_eq_length_filter]
  conv_rhs => rw [← hslots, List.countP_map]
  exact List.countP_congr fun p _ => by rw [Option.isSome_map, Function.comp_apply]

/-! ## What an arena answers -/

/-- Whether an arena takes this for the value under a key, whatever it is asked to do with it. -/
structure Holds (a : Arena α) (k : Key) (x : Option α) : Prop where
  /-- When it is looked up. -/
  get : a.get? k = x
  /-- When it is only asked for. -/
  contains : a.contains k = x.isSome
  /-- When it is replaced. -/
  set : ∀ v, (a.set k v).1 = x
  /-- When it is removed. -/
  remove : (a.remove k).1 = x

theorem holds_get? (a : Arena α) (k : Key) : a.Holds k (a.get? k) where
  get := rfl
  contains := rfl
  set v := by
    unfold Arena.set
    split <;> simp_all
  remove := fst_remove a k

/-- Where no value is, none is stored. -/
theorem snd_set_of_get?_eq_none (h : a.get? k = none) (v : α) : (a.set k v).2 = a := by
  rw [set, h]

theorem snd_remove_of_get?_eq_none (h : a.get? k = none) : (a.remove k).2 = a := by
  rw [remove, h]

theorem get?_snd_set (a : Arena α) (k l : Key) (v : α) :
    (a.set k v).2.get? l = if l = k then (a.get? l).map fun _ => v else a.get? l := by
  cases h : a.get? k with
  | none =>
    rw [snd_set_of_get?_eq_none h]
    split <;> simp_all
  | some old =>
    rw [get?_set h]
    split <;> simp_all

theorem get?_eq_none_of_tag_ne (h : k.tag ≠ a.tag) : a.get? k = none := by
  rw [get?_eq, if_neg h]

/-! ## Histories -/

variable {n : Nat}

/-- A change of one of `n` arenas. -/
inductive Event (n : Nat) (α : Type) where
  /-- A value is stored under a new key. -/
  | alloc (i : Fin n) (k : Key) (v : α)
  /-- The value under a key is replaced, if there is one. -/
  | set (i : Fin n) (k : Key) (v : α)
  /-- The value under a key is removed, if there is one. -/
  | remove (i : Fin n) (k : Key)

namespace Event

/-- The arena that is changed. -/
def arena : Event n α → Fin n
  | alloc i _ _ => i
  | set i _ _ => i
  | remove i _ => i

/-- The key under which something changes. -/
def key : Event n α → Key
  | alloc _ k _ => k
  | set _ k _ => k
  | remove _ k => k

/-- The key that an arena hands out. -/
def newKey? (i : Fin n) : Event n α → Option Key
  | alloc j k _ => if i = j then some k else none
  | set _ _ _ => none
  | remove _ _ => none

/-- What is under a key of an arena after a change, if `x` has been there before. -/
def stored (i : Fin n) (k : Key) (x : Option α) : Event n α → Option α
  | alloc j l v => if i = j ∧ k = l then some v else x
  | set j l v => if i = j ∧ k = l then x.map fun _ => v else x
  | remove j l => if i = j ∧ k = l then none else x

variable {i : Fin n} {x : Option α} {e : Event n α}

theorem newKey?_of_ne (h : i ≠ e.arena) : e.newKey? i = none := by
  cases e with
  | alloc j l v => exact if_neg h
  | set j l v => rfl
  | remove j l => rfl

/-- A change under one key of one arena is no change under others. -/
theorem stored_of_ne (h : ¬ (i = e.arena ∧ k = e.key)) : e.stored i k x = x := by
  cases e <;> exact if_neg h

/-- Something comes to be under a key only when it is handed out. -/
theorem stored_none (h : e.newKey? i ≠ some k) : e.stored i k none = none := by
  cases e with
  | alloc j l v =>
    refine if_neg fun hij => h ?_
    rw [newKey?, if_pos hij.1, hij.2]
  | set j l v => exact ite_self _
  | remove j l => exact ite_self _

end Event

/-- The keys that an arena has handed out. -/
def allocated (i : Fin n) (log : List (Event n α)) : List Key := log.filterMap (Event.newKey? i)

/-- What has been stored last under a key of an arena since it was handed out, if it has not been
removed. -/
def value? (i : Fin n) (k : Key) (log : List (Event n α)) : Option α :=
  log.foldl (Event.stored i k) none

/-- `History log s` says that `n` new arenas have become `s`, and how. -/
inductive History : List (Event n α) → (Fin n → Arena α) → Prop where
  /-- The arenas are new. -/
  | start : History [] fun i => new i
  /-- One of them stores a value. -/
  | alloc {log : List (Event n α)} {s : Fin n → Arena α} (h : History log s) (i : Fin n) (v : α) :
      History (log ++ [.alloc i ((s i).alloc v).1 v]) (Function.update s i ((s i).alloc v).2)
  /-- One of them is told to replace the value under a key. -/
  | set {log : List (Event n α)} {s : Fin n → Arena α} (h : History log s) (i : Fin n) (k : Key)
      (v : α) : History (log ++ [.set i k v]) (Function.update s i ((s i).set k v).2)
  /-- One of them is told to remove the value under a key. -/
  | remove {log : List (Event n α)} {s : Fin n → Arena α} (h : History log s) (i : Fin n)
      (k : Key) : History (log ++ [.remove i k]) (Function.update s i ((s i).remove k).2)

variable {log later : List (Event n α)} {s s' : Fin n → Arena α} {i j : Fin n}

theorem allocated_append (i : Fin n) (log later : List (Event n α)) :
    allocated i (log ++ later) = allocated i log ++ allocated i later :=
  List.filterMap_append

theorem allocated_append_singleton (i : Fin n) (log : List (Event n α)) (e : Event n α) :
    allocated i (log ++ [e]) = allocated i log ++ (e.newKey? i).toList := by
  rw [allocated_append]
  cases hk : e.newKey? i <;> simp [allocated, hk]

theorem value?_append_singleton (i : Fin n) (k : Key) (log : List (Event n α)) (e : Event n α) :
    value? i k (log ++ [e]) = e.stored i k (value? i k log) := by
  rw [value?, List.foldl_append]
  rfl

/-- Under a key where nothing is, nothing will be unless it is handed out. -/
theorem value?_append_of_notMem (hlog : value? i k log = none) (hlater : k ∉ allocated i later) :
    value? i k (log ++ later) = none := by
  induction later using List.reverseRecOn with
  | nil => rwa [List.append_nil]
  | append_singleton later e ih =>
    rw [allocated_append_singleton, List.mem_append, not_or, Option.mem_toList] at hlater
    rw [← List.append_assoc, value?_append_singleton, ih hlater.1, Event.stored_none hlater.2]

/-! ## What arenas are after a history -/

/-- Whether arenas are what the log of their changes says. -/
structure Records (log : List (Event n α)) (s : Fin n → Arena α) : Prop where
  /-- The tags do not change. -/
  tag_eq : ∀ i, (s i).tag = i % UInt32.size
  /-- All keys that have been handed out are known. -/
  keys_eq : ∀ i, (s i).keys = allocated i log
  /-- Under each key is what has been stored there last. -/
  get?_eq : ∀ i k, (s i).get? k = value? i k log

/-- One arena changes as an event says. -/
theorem Records.update (h : Records log s) {e : Event n α} {a : Arena α} (he : i = e.arena)
    (htag : a.tag = (s i).tag) (hkeys : a.keys = (s i).keys ++ (e.newKey? i).toList)
    (hget : ∀ k, a.get? k = e.stored i k ((s i).get? k)) :
    Records (log ++ [e]) (Function.update s i a) where
  tag_eq j := by
    by_cases hj : j = i
    · rw [hj, Function.update_self, htag, h.tag_eq]
    · rw [Function.update_of_ne hj, h.tag_eq]
  keys_eq j := by
    rw [allocated_append_singleton, ← h.keys_eq]
    by_cases hj : j = i
    · rw [hj, Function.update_self, hkeys]
    · rw [Function.update_of_ne hj, Event.newKey?_of_ne fun hij => hj (hij.trans he.symm),
        Option.toList_none, List.append_nil]
  get?_eq j k := by
    rw [value?_append_singleton, ← h.get?_eq]
    by_cases hj : j = i
    · rw [hj, Function.update_self, hget]
    · rw [Function.update_of_ne hj, Event.stored_of_ne fun hij => hj (hij.1.trans he.symm)]

theorem Records.alloc (h : Records log s) (i : Fin n) (v : α) :
    Records (log ++ [.alloc i ((s i).alloc v).1 v]) (Function.update s i ((s i).alloc v).2) := by
  refine h.update rfl (tag_alloc _ v) ?_ fun k => ?_
  · rw [keys_alloc, Event.newKey?, if_pos rfl]
    rfl
  · simp only [get?_alloc, Event.stored, true_and]
    rfl

theorem Records.set (h : Records log s) (i : Fin n) (l : Key) (v : α) :
    Records (log ++ [.set i l v]) (Function.update s i ((s i).set l v).2) := by
  refine h.update rfl (tag_set _ l v) ?_ fun k => ?_
  · rw [keys_set, Event.newKey?, Option.toList_none, List.append_nil]
  · simp only [get?_snd_set, Event.stored, true_and]

theorem Records.remove (h : Records log s) (i : Fin n) (l : Key) :
    Records (log ++ [.remove i l]) (Function.update s i ((s i).remove l).2) := by
  refine h.update rfl (tag_remove _ l) ?_ fun k => ?_
  · rw [keys_remove, Event.newKey?, Option.toList_none, List.append_nil]
  · simp only [get?_remove, Event.stored, true_and]

/-- The log says what the arenas are. -/
theorem History.records (h : History log s) : Records log s := by
  induction h with
  | start => exact ⟨fun i => rfl, fun i => rfl, fun i k => by simp [get?_eq, new, value?]⟩
  | alloc _ i v ih => exact ih.alloc i v
  | set _ i k v ih => exact ih.set i k v
  | remove _ i k ih => exact ih.remove i k

theorem Records.holds (h : Records log s) (i : Fin n) (k : Key) :
    (s i).Holds k (value? i k log) := by
  rw [← h.get?_eq]
  exact holds_get? _ k

theorem Records.listed (h : Records log s) (i : Fin n) : (s i).toList =
    (allocated i log).filterMap fun k => (value? i k log).map fun v => (k, v) := by
  rw [toList_eq, h.keys_eq]
  simp only [h.get?_eq]

/-- An arena does not hand a key out again. -/
theorem Records.notMem_later (h : Records (log ++ later) s) (hk : k ∈ allocated i log) :
    k ∉ allocated i later := by
  -- the keys before and the keys afterwards are the keys of one arena, which are distinct
  have hnodup : (allocated i log ++ allocated i later).Nodup := by
    rw [← allocated_append, ← h.keys_eq]
    exact nodup_keys _
  exact List.disjoint_of_nodup_append hnodup hk

/-! ## Tags -/

theorem Records.tag_ne (h : Records log s) (hn : n ≤ UInt32.size) (hij : i ≠ j) :
    (s i).tag ≠ (s j).tag := by
  rw [h.tag_eq, h.tag_eq, Nat.mod_eq_of_lt (Nat.lt_of_lt_of_le i.2 hn),
    Nat.mod_eq_of_lt (Nat.lt_of_lt_of_le j.2 hn)]
  exact fun he => hij (Fin.ext he)

/-- Other arenas have nothing under the key of an arena. -/
theorem Records.get?_eq_none (h : Records log s) (hn : n ≤ UInt32.size) (hij : j ≠ i)
    (hk : k ∈ allocated i log) : (s j).get? k = none := by
  rw [← h.keys_eq] at hk
  refine get?_eq_none_of_tag_ne ?_
  rw [(mem_keys.mp hk).1]
  exact (h.tag_ne hn hij).symm

/-- No arena hands out a key that any arena has handed out. -/
theorem Records.nextKey_notMem (h : Records log s) (hn : n ≤ UInt32.size) (i j : Fin n) :
    (s i).nextKey ∉ allocated j log := by
  rw [← h.keys_eq]
  by_cases hij : i = j
  · rw [hij]
    exact nextKey_notMem_keys _
  · exact fun hk => h.tag_ne hn hij (mem_keys.mp hk).1

/-- Whether arenas, with this log of what has been done to them, are a family of finite maps in
which no key is used a second time. -/
structure Refines (log : List (Event n α)) (s : Fin n → Arena α) : Prop where
  /-- A key that is handed out has not been handed out before, by any of the arenas. -/
  unused : ∀ i v j, ((s i).alloc v).1 ∉ allocated j log
  /-- Each arena takes for the value under a key what has been stored there last. -/
  holds : ∀ i k, (s i).Holds k (value? i k log)
  /-- Where a value has been removed, there is none any more. -/
  removed : ∀ i, ∀ k ∈ allocated i log, value? i k log = none →
    ∀ later s', History (log ++ later) s' → (s' i).Holds k none
  /-- The key of an arena is refused by all others, which then stay as they are. -/
  refused : ∀ i, ∀ k ∈ allocated i log, ∀ j, j ≠ i → (s j).Holds k none ∧
    (∀ v, ((s j).set k v).2 = s j) ∧ ((s j).remove k).2 = s j
  /-- What is done under one key of an arena changes nothing under other keys, nor under the same
  key of other arenas. -/
  unchanged : ∀ e s', History (log ++ [e]) s' → ∀ i k, ¬ (i = e.arena ∧ k = e.key) →
    (s' i).get? k = (s i).get? k
  /-- Listed are the keys under which a value is, in the order in which they were handed out. -/
  listed : ∀ i, (s i).toList =
    (allocated i log).filterMap fun k => (value? i k log).map fun v => (k, v)
  /-- So many there are. -/
  size_eq : ∀ i, (s i).size = ((allocated i log).filter fun k => (value? i k log).isSome).length

/-- **Arenas are a family of finite maps.**  However values are stored, replaced and removed under
whatever keys, in up to `2 ^ 32` arenas, no key is handed out twice.  Under its key a value is found
from then on, as it was last replaced, until it is removed, and nothing is found there afterwards.
All other arenas refuse the key.  What happens under one key leaves all others as they are, and an
arena lists, in the order of their allocation, the keys under which something is left. -/
theorem History.refines (h : History log s) (hn : n ≤ UInt32.size) : Refines log s where
  unused i _ j := h.records.nextKey_notMem hn i j
  holds := h.records.holds
  removed i k hk hnone later s' h' := by
    have hlater : k ∉ allocated i later := h'.records.notMem_later hk
    exact value?_append_of_notMem hnone hlater ▸ h'.records.holds i k
  refused i k hk j hij := by
    have hnone : (s j).get? k = none := h.records.get?_eq_none hn hij hk
    exact ⟨hnone ▸ holds_get? (s j) k, snd_set_of_get?_eq_none hnone,
      snd_remove_of_get?_eq_none hnone⟩
  unchanged e s' h' i k he := by
    rw [h'.records.get?_eq, value?_append_singleton, Event.stored_of_ne he, h.records.get?_eq]
  listed := h.records.listed
  size_eq i := by
    rw [← length_toList, h.records.listed, List.length_filterMap_eq_countP,
      ← List.countP_eq_length_filter]
    exact List.countP_congr fun k _ => by rw [Option.isSome_map]

/-- One of two arenas stores two values.  The first is replaced, the other arena is told to remove
it, in vain, and then it is removed for ever. -/
theorem refines_twoArenas :
    let log : List (Event 2 String) := [.alloc 0 ⟨0, 0⟩ "a", .alloc 0 ⟨0, 1⟩ "b",
      .set 0 ⟨0, 0⟩ "c", .remove 1 ⟨0, 0⟩, .alloc 1 ⟨1, 0⟩ "d"]
    ∃ s s', History log s ∧ (s 0).toList = [(⟨0, 0⟩, "c"), (⟨0, 1⟩, "b")] ∧
      (s 1).toList = [(⟨1, 0⟩, "d")] ∧ ((s 1).remove ⟨0, 0⟩).2 = s 1 ∧
      History (log ++ [.remove 0 ⟨0, 0⟩]) s' ∧ (s' 0).toList = [(⟨0, 1⟩, "b")] ∧
      (s' 0).size = 1 ∧ ∀ later s'', History (log ++ [.remove 0 ⟨0, 0⟩] ++ later) s'' →
        (s'' 0).Holds ⟨0, 0⟩ none := by
  intro log
  have h : History log _ := ((((History.start.alloc 0 "a").alloc 0 "b").set 0 ⟨0, 0⟩ "c").remove 1
    ⟨0, 0⟩).alloc 1 "d"
  have h' : History (log ++ [.remove 0 ⟨0, 0⟩]) _ := h.remove 0 ⟨0, 0⟩
  have hbefore := h.refines (by decide)
  have hafter := h'.refines (by decide)
  exact ⟨_, _, h, (hbefore.listed 0).trans (by decide), (hbefore.listed 1).trans (by decide),
    (hbefore.refused 0 ⟨0, 0⟩ (by decide) 1 (by decide)).2.2, h',
    (hafter.listed 0).trans (by decide), (hafter.size_eq 0).trans (by decide),
    hafter.removed 0 ⟨0, 0⟩ (by decide) (by decide)⟩

end Arena

end OntoQuery
