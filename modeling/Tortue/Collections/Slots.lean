import Tortue.Collections.Blocks

namespace Collections

universe u

variable {α : Type u}

abbrev Slots (α : Type u) := List (Option α)

namespace Slots

def Vacant (t : Slots α) (i : Nat) : Prop := t[i]? = some none

def fill (t : Slots α) (i : Nat) (a : α) : Slots α := t.set i (some a)

def completedBy (f : Nat → α) (t : Slots α) : List α := t.mapIdx fun i p => p.getD (f i)

def Full (t : Slots α) : Prop := ∀ i, ¬ t.Vacant i

theorem Vacant.lt {t : Slots α} {i : Nat} (h : t.Vacant i) : i < t.length :=
  (List.getElem?_eq_some_iff.mp h).1

theorem vacant_fill {t : Slots α} {i j : Nat} {a : α} :
    Vacant (t.fill i a) j ↔ t.Vacant j ∧ j ≠ i := by
  rw [Vacant, fill, List.getElem?_set]
  split_ifs with hij hlt
  · simp [hij]
  · simp [hij]
  · simp [Vacant, Ne.symm hij]

theorem fill_eq_some {t : Slots α} {i j : Nat} {a b : α} (hi : t.Vacant i) :
    (t.fill i a)[j]? = some (some b) ↔ (j = i ∧ b = a) ∨ t[j]? = some (some b) := by
  rw [fill, List.getElem?_set]
  rcases eq_or_ne i j with rfl | hij
  · have hnone : t[i]? = some none := hi
    rw [if_pos rfl, if_pos hi.lt, hnone]
    simp [eq_comm]
  · simp [hij, Ne.symm hij]

theorem all_isSome_iff {t : Slots α} : t.all Option.isSome = true ↔ t.Full := by
  rw [List.all_eq_true]
  constructor
  · intro h i hi
    have hmem : none ∈ t := List.mem_of_getElem? hi
    exact absurd (h none hmem) (by simp)
  · intro h p hp
    obtain ⟨i, hi⟩ := List.getElem?_of_mem hp
    cases p with
    | none => exact absurd hi (h i)
    | some a => rfl

theorem vacant_blank {n i : Nat} : Vacant (List.replicate n (none : Option α)) i ↔ i < n := by
  rw [Vacant, List.getElem?_replicate]
  split_ifs with h <;> simp [h]

theorem blank_ne_some {n i : Nat} {a : α} : (List.replicate n none)[i]? ≠ some (some a) := by
  rw [List.getElem?_replicate]
  split_ifs <;> simp

theorem completedBy_fill {f : Nat → α} {t : Slots α} {i : Nat} (h : t.Vacant i) :
    completedBy f (t.fill i (f i)) = completedBy f t := by
  refine List.ext_getElem? fun j => ?_
  simp only [completedBy, fill, List.getElem?_mapIdx, List.getElem?_set]
  rcases eq_or_ne i j with rfl | hij
  · rw [h]
    simp [h.lt]
  · rw [if_neg hij]

theorem completedBy_of_right {f : Nat → α} {t : Slots α}
    (h : ∀ i a, t[i]? = some (some a) → a = f i) :
    completedBy f t = (List.range t.length).map f := by
  refine List.ext_getElem? fun j => ?_
  simp only [completedBy, List.getElem?_mapIdx, List.getElem?_map]
  cases hj : t[j]? with
  | none =>
    rw [List.getElem?_eq_none (by simpa using List.getElem?_eq_none_iff.mp hj)]
    rfl
  | some p =>
    have hlt := (List.getElem?_eq_some_iff.mp hj).1
    rw [List.getElem?_range hlt]
    cases p with
    | none => rfl
    | some a => rw [h j a hj]; rfl

theorem flatten_completedBy {β : Type u} {f : Nat → List β} {t : Slots (List β)} (h : t.Full) :
    (completedBy f t).flatten = t.flatMap fun p => p.getD [] := by
  rw [List.flatMap_def]
  congr 1
  refine List.ext_getElem? fun j => ?_
  simp only [completedBy, List.getElem?_mapIdx, List.getElem?_map]
  cases hj : t[j]? with
  | none => rfl
  | some p =>
    cases p with
    | none => exact absurd hj (h j)
    | some a => rfl

end Slots

end Collections
