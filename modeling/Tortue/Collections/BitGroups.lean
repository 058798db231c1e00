import Mathlib.Algebra.GroupWithZero.Nat
import Mathlib.Data.List.TakeDrop

namespace Collections

universe u v

def bits : Nat → Nat → List Bool
  | 0, _ => []
  | w + 1, n => n.testBit w :: bits w n

def ofBits : List Bool → Nat
  | [] => 0
  | b :: l => 2 ^ l.length * b.toNat + ofBits l

@[simp] theorem length_bits (w n : Nat) : (bits w n).length = w := by
  induction w with
  | zero => rfl
  | succ w ih => rw [bits, List.length_cons, ih]

theorem bits_congr {w m n : Nat} (h : ∀ i < w, m.testBit i = n.testBit i) :
    bits w m = bits w n := by
  induction w with
  | zero => rfl
  | succ w ih =>
    rw [bits, bits, h w (Nat.lt_succ_self w), ih fun i hi => h i (Nat.lt_succ_of_lt hi)]

theorem bits_append (v : Nat) {w b : Nat} (a : Nat) (hb : b < 2 ^ w) :
    bits (v + w) (2 ^ w * a + b) = bits v a ++ bits w b := by
  induction v with
  | zero =>
    rw [Nat.zero_add, bits, List.nil_append]
    exact bits_congr fun i hi => by rw [Nat.testBit_two_pow_mul_add a hb, if_pos hi]
  | succ v ih =>
    have htop : (2 ^ w * a + b).testBit (v + w) = a.testBit v := by
      rw [Nat.testBit_two_pow_mul_add a hb, if_neg (by omega), Nat.add_sub_cancel]
    rw [Nat.add_right_comm, bits, htop, ih, bits, List.cons_append]

theorem bits_inj {w m n : Nat} (hm : m < 2 ^ w) (hn : n < 2 ^ w) (h : bits w m = bits w n) :
    m = n := by
  have hlow : ∀ {w}, bits w m = bits w n → ∀ i < w, m.testBit i = n.testBit i := by
    intro w h
    induction w with
    | zero => simp
    | succ w ih =>
      obtain ⟨htop, hrest⟩ := List.cons.inj h
      intro i hi
      rcases Nat.lt_succ_iff_lt_or_eq.mp hi with hlt | rfl
      · exact ih hrest i hlt
      · exact htop
  refine Nat.eq_of_testBit_eq fun i => ?_
  rcases Nat.lt_or_ge i w with hi | hi
  · exact hlow h i hi
  · have hpow : 2 ^ w ≤ 2 ^ i := Nat.pow_le_pow_right (by decide) hi
    rw [Nat.testBit_lt_two_pow (Nat.lt_of_lt_of_le hm hpow),
      Nat.testBit_lt_two_pow (Nat.lt_of_lt_of_le hn hpow)]

theorem ofBits_lt (l : List Bool) : ofBits l < 2 ^ l.length := by
  induction l with
  | nil => simp [ofBits]
  | cons b l ih =>
    rw [ofBits, List.length_cons, Nat.pow_succ]
    cases b <;> simp <;> omega

theorem bits_ofBits (l : List Bool) : bits l.length (ofBits l) = l := by
  induction l with
  | nil => rfl
  | cons b l ih =>
    rw [ofBits, List.length_cons, Nat.add_comm l.length 1, bits_append 1 _ (ofBits_lt l), ih]
    cases b <;> rfl

section

variable {α : Type u} {β : Type v}

def groups (w : Nat) (d : α) (l : List α) : List (List α) :=
  (List.range ((l.length + w - 1) / w)).map fun k => (l.drop (w * k)).takeD w d

theorem takeD_add (m n : Nat) (l : List α) (d : α) :
    l.takeD (m + n) d = l.takeD m d ++ (l.drop m).takeD n d := by
  induction m generalizing l with
  | zero => simp
  | succ m ih =>
    rw [Nat.succ_add, List.takeD_succ, ih, List.takeD_succ, List.cons_append, List.drop_tail]

theorem takeD_padded {n : Nat} {l : List α} (h : l.length ≤ n) (d : α) :
    l.takeD n d = l ++ List.replicate (n - l.length) d := by
  induction n generalizing l with
  | zero => simp [List.length_eq_zero_iff.mp (Nat.le_zero.mp h)]
  | succ n ih =>
    cases l with
    | nil => simp [List.replicate_succ]
    | cons a l =>
      rw [List.takeD_succ, List.tail_cons, ih (Nat.le_of_succ_le_succ h)]
      simp

theorem flatten_windows (w m : Nat) (l : List α) (d : α) :
    ((List.range m).map fun k => (l.drop (w * k)).takeD w d).flatten = l.takeD (w * m) d := by
  induction m with
  | zero => simp
  | succ m ih =>
    rw [List.range_succ, List.map_append, List.flatten_append, ih, Nat.mul_succ, takeD_add]
    simp

theorem flatten_groups {w : Nat} (hw : 0 < w) (d : α) (l : List α) :
    ∃ pad < w, (groups w d l).flatten = l ++ List.replicate pad d ∧
      l.length + pad = w * (groups w d l).length := by
  have hceil : l.length ≤ w * ((l.length + w - 1) / w) ∧
      w * ((l.length + w - 1) / w) < l.length + w := by
    have hdiv := Nat.div_add_mod (l.length + w - 1) w
    have hmod := Nat.mod_lt (l.length + w - 1) hw
    omega
  refine ⟨w * ((l.length + w - 1) / w) - l.length, by omega, ?_, ?_⟩
  · rw [groups, flatten_windows, takeD_padded hceil.1]
  · rw [groups, List.length_map, List.length_range]
    omega

theorem length_of_mem_groups {w : Nat} {d : α} {l g : List α} (h : g ∈ groups w d l) :
    g.length = w := by
  obtain ⟨k, -, rfl⟩ := List.mem_map.mp h
  exact List.takeD_length w _ d

theorem flatMap_injective {f : α → List β} {n : Nat} (hn : 0 < n) (hlen : ∀ a, (f a).length = n)
    (hf : Function.Injective f) : Function.Injective fun l : List α => l.flatMap f := by
  intro l l' h
  induction l generalizing l' with
  | nil =>
    cases l' with
    | nil => rfl
    | cons b l' =>
      obtain ⟨hempty, -⟩ := List.append_eq_nil_iff.mp h.symm
      rw [← hlen b, hempty] at hn
      contradiction
  | cons a l ih =>
    cases l' with
    | nil =>
      obtain ⟨hempty, -⟩ := List.append_eq_nil_iff.mp h
      rw [← hlen a, hempty] at hn
      contradiction
    | cons b l' =>
      obtain ⟨hhead, htail⟩ := List.append_inj h ((hlen a).trans (hlen b).symm)
      rw [hf hhead, ih htail]

end

end Collections
