/-!
# Arenas

An arena stores values under keys that it hands out, and never hands out a key
twice.  A key knows its arena by a tag, so the keys of other arenas are refused.
Tags are counted up as arenas are made.  Removing a value leaves an empty slot
behind.

A copy of an arena has the same tag and so accepts the keys that were handed out
before.
-/

namespace OntoQuery

/-- The key of a value in an arena. -/
structure Arena.Key where
  /-- The tag of the arena. -/
  tag : Nat
  /-- The number of the slot. -/
  offset : Nat
  deriving DecidableEq, Inhabited, Repr

/-- A store that hands out keys. -/
structure Arena (α : Type) where
  /-- What tells the arena from others. -/
  tag : Nat
  /-- The slots in the order of their allocation, empty where a value was
  removed. -/
  slots : List (Option α) := []
  deriving DecidableEq, Repr

namespace Arena

namespace Key

/-- A key is shown by the number of its slot. -/
def text (k : Key) : String := "#" ++ toString k.offset

/-- Keys are ordered by arena and then by slot. -/
def compare (k l : Key) : Ordering :=
  (Ord.compare k.tag l.tag).then (Ord.compare k.offset l.offset)

instance : Ord Key := ⟨Key.compare⟩

end Key

/-- Why there is no value under a key. -/
inductive Fault where
  /-- The key belongs to another arena. -/
  | wrongArena
  /-- The value has been removed. -/
  | removed
  /-- The slot was never allocated. -/
  | outOfBounds
  deriving DecidableEq, Inhabited, Repr

namespace Fault

/-- The text of a fault. -/
def message : Fault → String
  | wrongArena => "wrong arena"
  | removed => "element has been removed"
  | outOfBounds => "index out of bounds"

end Fault

variable {α : Type}

/-- The arena that is made after `i` others.  Tags are words of 32 bits. -/
def new (i : Nat) : Arena α := { tag := i % UInt32.size }

/-- The key of the next value. -/
def nextKey (a : Arena α) : Key := ⟨a.tag, a.slots.length⟩

/-- Stores a value under a new key. -/
def alloc (a : Arena α) (v : α) : Key × Arena α :=
  (a.nextKey, { a with slots := a.slots ++ [some v] })

/-- The value under a key, or the reason why there is none. -/
def index (a : Arena α) (k : Key) : Except Fault α :=
  if k.tag = a.tag then
    match a.slots[k.offset]? with
    | none => .error .outOfBounds
    | some none => .error .removed
    | some (some v) => .ok v
  else
    .error .wrongArena

/-- The value under a key. -/
def get? (a : Arena α) (k : Key) : Option α := (a.index k).toOption

/-- Whether there is a value under a key. -/
def contains (a : Arena α) (k : Key) : Bool := (a.get? k).isSome

/-- Replaces the value under a key and returns the old one.  Without an old one,
nothing is stored. -/
def set (a : Arena α) (k : Key) (v : α) : Option α × Arena α :=
  match a.get? k with
  | none => (none, a)
  | some old => (some old, { a with slots := a.slots.set k.offset (some v) })

/-- Removes the value under a key and returns it. -/
def remove (a : Arena α) (k : Key) : Option α × Arena α :=
  match a.get? k with
  | none => (none, a)
  | some old => (some old, { a with slots := a.slots.set k.offset none })

/-- The stored values with their keys, in the order of allocation. -/
def toList (a : Arena α) : List (Key × α) :=
  a.slots.zipIdx.filterMap fun (slot, i) => slot.map fun v => (⟨a.tag, i⟩, v)

/-- The number of stored values. -/
def size (a : Arena α) : Nat := (a.slots.filter Option.isSome).length

/-- Whether nothing is stored. -/
def isEmpty (a : Arena α) : Bool := a.slots.all Option.isNone

/-! ## What is stored after a change -/

/-- A value is what lies in the slot of its key. -/
theorem get?_eq (a : Arena α) (k : Key) :
    a.get? k = if k.tag = a.tag then a.slots[k.offset]?.join else none := by
  unfold get? index
  split
  · cases h : a.slots[k.offset]? with
    | none => rfl
    | some slot => cases slot <;> rfl
  · rfl

theorem get?_eq_some_iff {a : Arena α} {k : Key} {v : α} :
    a.get? k = some v ↔ k.tag = a.tag ∧ a.slots[k.offset]? = some (some v) := by
  rw [get?_eq]
  by_cases h : k.tag = a.tag
  · simp [h, Option.join_eq_some_iff]
  · simp [h]

/-- What is listed is what is stored. -/
theorem mem_toList {a : Arena α} {k : Key} {v : α} : (k, v) ∈ a.toList ↔ a.get? k = some v := by
  rw [toList, List.mem_filterMap, get?_eq_some_iff]
  constructor
  · rintro ⟨⟨slot, i⟩, hmem, hslot⟩
    obtain ⟨w, rfl, heq⟩ := Option.map_eq_some_iff.mp hslot
    obtain ⟨rfl, rfl⟩ := Prod.mk.inj heq
    exact ⟨rfl, List.mem_zipIdx_iff_getElem?.mp hmem⟩
  · rintro ⟨htag, hslot⟩
    refine ⟨(some v, k.offset), List.mem_zipIdx_iff_getElem?.mpr hslot, ?_⟩
    rw [← htag]
    rfl

/-- Two arenas with one tag and equally many slots that store the same are equal. -/
theorem ext_get? {a b : Arena α} (htag : a.tag = b.tag)
    (hlength : a.slots.length = b.slots.length) (h : ∀ k, a.get? k = b.get? k) : a = b := by
  obtain ⟨tag, slots⟩ := a
  obtain ⟨tag', slots'⟩ := b
  obtain rfl : tag = tag' := htag
  congr 1
  refine List.ext_getElem hlength fun i hi hi' => ?_
  have hget := h ⟨tag, i⟩
  rwa [get?_eq, get?_eq, if_pos rfl, if_pos rfl, List.getElem?_eq_getElem hi,
    List.getElem?_eq_getElem hi', Option.join_some, Option.join_some] at hget

theorem Key.eq_of_tag_eq {k l : Key} (htag : k.tag = l.tag) (hoffset : k.offset = l.offset) :
    k = l := by
  cases k
  cases l
  simp_all

theorem get?_nextKey (a : Arena α) : a.get? a.nextKey = none := by
  rw [get?_eq]
  simp [nextKey]

@[simp] theorem tag_alloc (a : Arena α) (v : α) : (a.alloc v).2.tag = a.tag := rfl

@[simp] theorem length_slots_alloc (a : Arena α) (v : α) :
    (a.alloc v).2.slots.length = a.slots.length + 1 := by
  simp [alloc]

theorem get?_alloc (a : Arena α) (v : α) (k : Key) :
    (a.alloc v).2.get? k = if k = a.nextKey then some v else a.get? k := by
  by_cases hk : k = a.nextKey
  · subst hk
    simp [get?_eq, alloc, nextKey]
  · rw [if_neg hk, get?_eq, get?_eq]
    by_cases htag : k.tag = a.tag
    · have hoffset : k.offset ≠ a.slots.length := fun h => hk (Key.eq_of_tag_eq htag h)
      simp only [alloc, htag, if_true, List.getElem?_append]
      split
      · rfl
      · rw [List.getElem?_eq_none (by simp; omega), List.getElem?_eq_none (by omega)]
    · simp [alloc, htag]

/-- What is stored after the slot of a value has been overwritten. -/
theorem get?_setSlot {a : Arena α} {k : Key} {old : α} (h : a.get? k = some old)
    (slot : Option α) (l : Key) :
    (⟨a.tag, a.slots.set k.offset slot⟩ : Arena α).get? l = if l = k then slot else a.get? l := by
  obtain ⟨htag, hslot⟩ := get?_eq_some_iff.mp h
  by_cases hl : l = k
  · subst hl
    simp [get?_eq, htag, (List.getElem?_eq_some_iff.mp hslot).1]
  · rw [if_neg hl, get?_eq, get?_eq]
    by_cases hltag : l.tag = a.tag
    · have hoffset : k.offset ≠ l.offset := fun h =>
        hl (Key.eq_of_tag_eq (hltag.trans htag.symm) h.symm)
      simp [hltag, List.getElem?_set_ne hoffset]
    · simp [hltag]

@[simp] theorem tag_set (a : Arena α) (k : Key) (v : α) : (a.set k v).2.tag = a.tag := by
  unfold set
  split <;> rfl

@[simp] theorem length_slots_set (a : Arena α) (k : Key) (v : α) :
    (a.set k v).2.slots.length = a.slots.length := by
  unfold set
  split
  · rfl
  · simp

theorem get?_set {a : Arena α} {k : Key} {old : α} (h : a.get? k = some old) (v : α) (l : Key) :
    (a.set k v).2.get? l = if l = k then some v else a.get? l := by
  rw [← get?_setSlot h]
  simp only [set, h]

@[simp] theorem tag_remove (a : Arena α) (k : Key) : (a.remove k).2.tag = a.tag := by
  unfold remove
  split <;> rfl

@[simp] theorem length_slots_remove (a : Arena α) (k : Key) :
    (a.remove k).2.slots.length = a.slots.length := by
  unfold remove
  split
  · rfl
  · simp

@[simp] theorem fst_remove (a : Arena α) (k : Key) : (a.remove k).1 = a.get? k := by
  unfold remove
  split <;> simp_all

theorem get?_remove (a : Arena α) (k l : Key) :
    (a.remove k).2.get? l = if l = k then none else a.get? l := by
  cases h : a.get? k with
  | none =>
    by_cases hl : l = k
    · simp [remove, h, hl]
    · simp [remove, h, hl]
  | some old =>
    rw [← get?_setSlot h]
    simp only [remove, h]

/-- Removing a value leaves one value less. -/
theorem size_remove_lt {a a' : Arena α} {k : Key} {v : α} (h : a.remove k = (some v, a')) :
    a'.size < a.size := by
  have hget : a.get? k = some v := by rw [← fst_remove, h]
  obtain rfl : (⟨a.tag, a.slots.set k.offset none⟩ : Arena α) = a' := by
    simpa [remove, hget] using congrArg Prod.snd h
  obtain ⟨hlt, hslot⟩ := List.getElem?_eq_some_iff.mp (get?_eq_some_iff.mp hget).2
  have hcount := List.countP_set (p := Option.isSome) (a := none) hlt
  have hpos : 0 < a.slots.countP Option.isSome :=
    List.countP_pos_iff.mpr ⟨_, List.getElem_mem hlt, by rw [hslot]; rfl⟩
  simp only [size, ← List.countP_eq_length_filter]
  rw [hcount, hslot]
  simp only [Option.isSome_some, Option.isSome_none, if_true, Bool.false_eq_true, if_false]
  omega

end Arena

end OntoQuery
