import Mathlib.Data.List.Sort
import Mathlib.Data.Prod.Lex

namespace Collections

universe u v

variable {α : Type u} {κ : Type v}

theorem orderedInsert_congr {r r' : α → α → Prop} [DecidableRel r] [DecidableRel r'] {a : α}
    {l : List α} (h : ∀ b ∈ l, r a b ↔ r' a b) : l.orderedInsert r a = l.orderedInsert r' a := by
  induction l with
  | nil => rfl
  | cons b l ih =>
    have hb := h b (List.mem_cons_self ..)
    have hrest := ih fun c hc => h c (List.mem_cons_of_mem _ hc)
    rw [List.orderedInsert_cons, List.orderedInsert_cons, hrest]
    exact if_congr hb rfl rfl

variable [LinearOrder α] [LinearOrder κ]

theorem insertionSort_stable (f : α → κ) {l : List α} (h : l.Pairwise (· < ·)) :
    (l.insertionSort fun a b => f a ≤ f b) =
      l.insertionSort fun a b => toLex (f a, a) ≤ toLex (f b, b) := by
  induction l with
  | nil => rfl
  | cons a l ih =>
    obtain ⟨ha, hl⟩ := List.pairwise_cons.mp h
    simp only [List.insertionSort, List.foldr_cons]
    simp only [List.insertionSort] at ih
    rw [ih hl]
    refine orderedInsert_congr fun b hb => ?_
    have hab : a < b := ha b (List.mem_insertionSort _ |>.mp hb)
    rw [Prod.Lex.toLex_le_toLex]
    constructor
    · intro hle
      rcases lt_or_eq_of_le hle with hlt | heq
      · exact .inl hlt
      · exact .inr ⟨heq, hab.le⟩
    · rintro (hlt | ⟨heq, -⟩)
      · exact le_of_lt hlt
      · exact le_of_eq heq

theorem insertionSort_pairwise (f : α → κ) {l : List α} (h : l.Pairwise (· < ·)) :
    (l.insertionSort fun a b => f a ≤ f b).Pairwise
      fun a b => toLex (f a, a) ≤ toLex (f b, b) := by
  rw [insertionSort_stable f h]
  exact List.pairwise_insertionSort _ _

end Collections
