import Mathlib.Data.List.Count
import Mathlib.Order.RelClasses

namespace Collections

universe u v w

variable {σ : Type u} {ι : Type v} {step : σ → ι → Option σ} {s t : σ} {l : List ι}

inductive Walk (step : σ → ι → Option σ) : σ → List ι → σ → Prop
  | nil {s : σ} : Walk step s [] s
  | cons {s t u : σ} {i : ι} {l : List ι} : step s i = some t → Walk step t l u →
      Walk step s (i :: l) u

namespace Walk

theorem append {m : List ι} {u : σ} (h : Walk step s l t) (hrest : Walk step t m u) :
    Walk step s (l ++ m) u := by
  induction h with
  | nil => exact hrest
  | cons hfirst _ ih => exact .cons hfirst (ih hrest)

def run (step : σ → ι → Option σ) : σ → List ι → Option σ
  | s, [] => some s
  | s, i :: l => (step s i).bind fun t => run step t l

theorem of_run (h : run step s l = some t) : Walk step s l t := by
  induction l generalizing s with
  | nil =>
    obtain rfl := Option.some.inj h
    exact .nil
  | cons i l ih =>
    obtain ⟨u, hstep, hrest⟩ := Option.bind_eq_some_iff.mp h
    exact .cons hstep (ih hrest)

theorem invariant {P : σ → Prop} (hkeeps : ∀ s i t, P s → step s i = some t → P t)
    (h : Walk step s l t) (hs : P s) : P t := by
  induction h with
  | nil => exact hs
  | cons hstep _ ih => exact ih (hkeeps _ _ _ hs hstep)

theorem arrives {α : Type w} [Preorder α] [WellFoundedLT α] {Inv Done : σ → Prop}
    (measure : σ → α) (hlive : ∀ s, Inv s → Done s ∨
      ∃ i t, step s i = some t ∧ Inv t ∧ measure t < measure s) (hs : Inv s) :
    ∃ l t, Walk step s l t ∧ Inv t ∧ Done t := by
  induction hn : measure s using WellFoundedLT.induction generalizing s with
  | _ n ih =>
    rcases hlive s hs with hdone | ⟨i, t, hstep, ht, hnearer⟩
    · exact ⟨[], s, .nil, hs, hdone⟩
    · obtain ⟨l, u, hwalk, hu, hdone⟩ := ih (measure t) (hn ▸ hnearer) ht rfl
      exact ⟨i :: l, u, .cons hstep hwalk, hu, hdone⟩

end Walk

structure Ranked (step : σ → ι → Option σ) (Inv : σ → Prop) (rank : σ → Nat)
    (advances : ι → Bool) : Prop where
  keeps : ∀ s i t, Inv s → step s i = some t → Inv t
  holds : ∀ s i t, Inv s → step s i = some t → rank t ≤ rank s
  falls : ∀ s i t, Inv s → step s i = some t → advances i = true → rank t < rank s

namespace Ranked

variable {Inv : σ → Prop} {rank : σ → Nat} {advances : ι → Bool}

theorem bound (h : Ranked step Inv rank advances) (hwalk : Walk step s l t) (hs : Inv s) :
    l.countP advances + rank t ≤ rank s := by
  induction hwalk with
  | nil => exact Nat.le_of_eq (Nat.zero_add _)
  | @cons s t u i l hstep _ ih =>
    have hrest := ih (h.keeps s i t hs hstep)
    by_cases hi : advances i = true
    · have hfall := h.falls s i t hs hstep hi
      rw [List.countP_cons_of_pos hi]
      omega
    · have hhold := h.holds s i t hs hstep
      rw [List.countP_cons_of_neg hi]
      omega

end Ranked

end Collections
