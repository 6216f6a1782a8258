import Std.Data.ExtTreeMap
import OntoQuery.Term

/-!
# Finite maps on variables

Substitutions and renamings are both finite maps on variables, kept sorted by
variable.  Maps with the same entries are equal.  `VarMap.ofList` builds a map
from a list of pairs, and `VarMap.getElem?_ofList` says that the last pair of a
variable counts.
-/

namespace OntoQuery

/-- A finite map from variables, sorted by variable. -/
abbrev VarMap (β : Type) := Std.ExtTreeMap Var β

namespace VarMap

variable {β : Type}

/-- The map with the given entries, of which later ones replace earlier ones. -/
def ofList (pairs : List (Var × β)) : VarMap β :=
  pairs.foldl (fun m p => m.insert p.1 p.2) ∅

/-- The last entry of a variable counts. -/
theorem getElem?_ofList (pairs : List (Var × β)) (x : Var) :
    (ofList pairs)[x]? = (pairs.reverse.find? fun p => p.1 = x).map Prod.snd := by
  suffices h : ∀ m : VarMap β, (pairs.foldl (fun m p => m.insert p.1 p.2) m)[x]? =
      ((pairs.reverse.find? fun p => p.1 = x).map Prod.snd).or m[x]? by
    simpa [ofList] using h ∅
  induction pairs with
  | nil => simp
  | cons p ps ih =>
    intro m
    rw [List.foldl_cons, ih, Std.ExtTreeMap.getElem?_insert, List.reverse_cons, List.find?_append]
    cases ps.reverse.find? fun p => p.1 = x with
    | some q => simp
    | none => by_cases hp : p.1 = x <;> simp [hp]

theorem isSome_getElem?_ofList {pairs : List (Var × β)} {x : Var} :
    (ofList pairs)[x]?.isSome ↔ x ∈ pairs.map Prod.fst := by
  rw [getElem?_ofList, Option.isSome_map, List.find?_isSome]
  simp

/-- An entry of a map built from a list is a pair of the list. -/
theorem mem_of_getElem?_ofList {pairs : List (Var × β)} {x : Var} {b : β}
    (h : (ofList pairs)[x]? = some b) : (x, b) ∈ pairs := by
  rw [getElem?_ofList, Option.map_eq_some_iff] at h
  obtain ⟨⟨y, c⟩, hf, rfl⟩ := h
  have hy : y = x := by simpa using List.find?_some hf
  subst hy
  exact List.mem_reverse.mp (List.mem_of_find?_eq_some hf)

/-- If no variable has two entries, every pair of the list is an entry. -/
theorem getElem?_ofList_of_mem {pairs : List (Var × β)} {x : Var} {b : β} (h : (x, b) ∈ pairs)
    (hu : ∀ c, (x, c) ∈ pairs → c = b) : (ofList pairs)[x]? = some b := by
  rw [getElem?_ofList]
  have hs : (pairs.reverse.find? fun p => p.1 = x).isSome := by
    rw [List.find?_isSome]
    exact ⟨(x, b), List.mem_reverse.mpr h, by simp⟩
  obtain ⟨⟨y, c⟩, hf⟩ := Option.isSome_iff_exists.mp hs
  have hy : y = x := by simpa using List.find?_some hf
  subst hy
  rw [hf, Option.map_some, hu c (List.mem_reverse.mp (List.mem_of_find?_eq_some hf))]

theorem mem_toList {m : VarMap β} {x : Var} {b : β} : (x, b) ∈ m.toList ↔ m[x]? = some b :=
  Std.ExtTreeMap.mem_toList_iff_getElem?_eq_some

end VarMap

end OntoQuery
