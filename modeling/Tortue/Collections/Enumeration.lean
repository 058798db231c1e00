import Mathlib.Data.List.Nodup
import Mathlib.Data.List.Perm.Basic

namespace Collections

universe u

variable {α : Type u} {l r : List α} {P Q : α → Prop} {a : α}

structure Enumerates (l : List α) (P : α → Prop) : Prop where
  nodup : l.Nodup
  mem : ∀ a, a ∈ l ↔ P a

namespace Enumerates

theorem perm (h : Enumerates l P) (hp : r.Perm l) : Enumerates r P :=
  ⟨hp.nodup_iff.mpr h.nodup, fun a => hp.mem_iff.trans (h.mem a)⟩

theorem congr (h : Enumerates l P) (hPQ : ∀ a, P a ↔ Q a) : Enumerates l Q :=
  ⟨h.nodup, fun a => (h.mem a).trans (hPQ a)⟩

theorem append (h : Enumerates l P) (hr : r.Nodup) (hfresh : ∀ a ∈ r, ¬ P a) :
    Enumerates (l ++ r) fun a => P a ∨ a ∈ r := by
  refine ⟨h.nodup.append hr fun a hl hin => hfresh a hin ((h.mem a).mp hl), fun a => ?_⟩
  rw [List.mem_append, h.mem a]

theorem tail (h : Enumerates (a :: l) P) : Enumerates l fun b => P b ∧ b ≠ a := by
  obtain ⟨ha, hl⟩ := List.nodup_cons.mp h.nodup
  refine ⟨hl, fun b => ?_⟩
  rw [← h.mem b, List.mem_cons]
  constructor
  · intro hb
    exact ⟨.inr hb, fun heq => ha (heq ▸ hb)⟩
  · rintro ⟨rfl | hb, hne⟩
    · exact absurd rfl hne
    · exact hb

theorem length_eq (h : Enumerates l P) (h' : Enumerates r P) : l.length = r.length := by
  have hp : l.Perm r := (List.perm_ext_iff_of_nodup h.nodup h'.nodup).mpr fun a =>
    (h.mem a).trans (h'.mem a).symm
  exact hp.length_eq

end Enumerates

end Collections
