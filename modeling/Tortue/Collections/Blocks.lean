import Mathlib.Algebra.BigOperators.Group.List.Basic
import Mathlib.Algebra.GroupWithZero.Nat
import Mathlib.Data.List.GetD
import Mathlib.Data.List.TakeDrop

namespace Collections

universe u

variable {α β : Type u}

theorem mapM_option_iff {f : α → Option β} {l : List α} {m : List β} :
    l.mapM f = some m ↔ List.Forall₂ (fun a b => f a = some b) l m := by
  induction l generalizing m with
  | nil =>
    cases m with
    | nil => simp
    | cons b m => simp
  | cons a l ih =>
    rw [List.mapM_cons]
    cases hf : f a with
    | none =>
      simp only [Option.bind_eq_bind, Option.bind_none, reduceCtorEq, false_iff]
      intro h
      cases h with
      | cons hab _ => simp [hf] at hab
    | some b =>
      simp only [Option.bind_eq_bind, Option.bind_some, Option.bind_eq_some_iff, Option.pure_def,
        Option.some.injEq, ih]
      constructor
      · rintro ⟨m', hm', rfl⟩
        exact .cons hf hm'
      · intro h
        cases h with
        | cons hab hm' =>
          rw [hf, Option.some.injEq] at hab
          exact ⟨_, hm', by rw [hab]⟩

theorem mapM_eq_map {f : α → Option β} {g : α → β} {l : List α} (h : ∀ a ∈ l, f a = some (g a)) :
    l.mapM f = some (l.map g) :=
  mapM_option_iff.mpr (List.forall₂_map_right_iff.mpr (List.forall₂_same.mpr h))

theorem mapM_option_isSome {f : α → Option β} {l : List α} (h : ∀ a ∈ l, ∃ b, f a = some b) :
    ∃ m, l.mapM f = some m := by
  induction l with
  | nil => exact ⟨[], rfl⟩
  | cons a l ih =>
    obtain ⟨b, hb⟩ := h a (List.mem_cons_self ..)
    obtain ⟨m, hm⟩ := ih fun c hc => h c (List.mem_cons_of_mem _ hc)
    exact ⟨b :: m, by simp [List.mapM_cons, hb, hm]⟩

theorem concat_eq_split {l pre post : List α} {a b : α} (h : l ++ [a] = pre ++ b :: post) :
    (b = a ∧ pre = l) ∨ ∃ post', l = pre ++ b :: post' := by
  rcases List.eq_nil_or_concat post with rfl | ⟨post', c, rfl⟩
  · obtain ⟨hl, ha⟩ := List.append_inj' h rfl
    exact .inl ⟨(List.cons.inj ha).1.symm, hl.symm⟩
  · refine .inr ⟨post', ?_⟩
    have hassoc : l ++ [a] = (pre ++ b :: post') ++ [c] := by simpa using h
    exact (List.append_inj' hassoc rfl).1

theorem sum_map_le_sum {f g : α → Nat} {l : List α} (h : ∀ a ∈ l, f a ≤ g a) :
    (l.map f).sum ≤ (l.map g).sum := by
  induction l with
  | nil => exact Nat.le_refl _
  | cons a l ih =>
    have hhead := h a (List.mem_cons_self ..)
    have htail := ih fun b hb => h b (List.mem_cons_of_mem _ hb)
    simp only [List.map_cons, List.sum_cons]
    omega

theorem sum_map_eq_sum_iff {f g : α → Nat} {l : List α} (h : ∀ a ∈ l, f a ≤ g a) :
    (l.map f).sum = (l.map g).sum ↔ ∀ a ∈ l, f a = g a := by
  induction l with
  | nil => simp
  | cons a l ih =>
    have hhead := h a (List.mem_cons_self ..)
    have hle := sum_map_le_sum fun b hb => h b (List.mem_cons_of_mem a hb)
    have htail := ih fun b hb => h b (List.mem_cons_of_mem _ hb)
    simp only [List.map_cons, List.sum_cons, List.forall_mem_cons, ← htail]
    omega

theorem sum_map_filter (f : α → Nat) (p : α → Bool) (l : List α) :
    ((l.filter p).map f).sum = (l.map fun a => if p a = true then f a else 0).sum := by
  induction l with
  | nil => rfl
  | cons a l ih => cases ha : p a <;> simp [ha, ih]

theorem sum_block_lengths (len size n : Nat) :
    ((List.range n).map fun k => min (len - k * size) size).sum = min len (n * size) := by
  induction n with
  | zero => simp
  | succ n ih =>
    rw [List.range_succ, List.map_append, List.sum_append, ih, Nat.succ_mul]
    simp only [List.map_cons, List.map_nil, List.sum_cons, List.sum_nil]
    omega

theorem flatMap_blocks (l : List α) (len size n : Nat) :
    ((List.range n).flatMap fun k => (l.drop (k * size)).take (min (len - k * size) size)) =
      l.take (min len (n * size)) := by
  induction n with
  | zero => simp
  | succ n ih =>
    rw [List.range_succ, List.flatMap_append, ih, List.flatMap_singleton]
    rcases Nat.le_total len (n * size) with hle | hle
    · have hzero : min (len - n * size) size = 0 := by omega
      have hlen : min len ((n + 1) * size) = min len (n * size) := by
        rw [Nat.succ_mul]
        omega
      rw [hzero, hlen, List.take_zero, List.append_nil]
    · have hsum : min len ((n + 1) * size) = n * size + min (len - n * size) size := by
        rw [Nat.succ_mul]
        omega
      rw [hsum, Nat.min_eq_right hle, List.take_add]

end Collections
