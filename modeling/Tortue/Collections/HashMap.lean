import Mathlib.Algebra.GroupWithZero.Nat
import Mathlib.Data.List.Nodup
import Mathlib.Data.List.Perm.Basic

namespace Collections

structure HashMap (κ β : Type) where
  entries : List (κ × β)
  nodup : (entries.map Prod.fst).Nodup
  deriving DecidableEq

abbrev HashSet (κ : Type) := HashMap κ Unit

namespace HashMap

variable {κ β : Type}

def empty : HashMap κ β := ⟨[], .nil⟩

def keys (m : HashMap κ β) : List κ := m.entries.map Prod.fst

def values (m : HashMap κ β) : List β := m.entries.map Prod.snd

def len (m : HashMap κ β) : Nat := m.entries.length

theorem keys_filterMap_sublist (f : β → Option β) (l : List (κ × β)) :
    ((l.filterMap fun e => (f e.2).map fun v => (e.1, v)).map Prod.fst).Sublist
      (l.map Prod.fst) := by
  induction l with
  | nil => exact .slnil
  | cons e l ih =>
    cases h : f e.2 with
    | none => simpa [h] using ih.cons _
    | some v => simpa [h] using ih.cons_cons e.1

def retain (f : β → Option β) (m : HashMap κ β) : HashMap κ β where
  entries := m.entries.filterMap fun e => (f e.2).map fun v => (e.1, v)
  nodup := m.nodup.sublist (keys_filterMap_sublist f m.entries)

def weight (f : β → Nat) (m : HashMap κ β) : Nat := (m.values.map f).sum

theorem weight_retain_le {f : β → Nat} {g : β → Option β} (hg : ∀ v w, g v = some w → f w ≤ f v)
    (m : HashMap κ β) : (m.retain g).weight f ≤ m.weight f := by
  obtain ⟨entries, nodup⟩ := m
  simp only [weight, values, retain]
  clear nodup
  induction entries with
  | nil => exact Nat.le_refl _
  | cons e entries ih =>
    cases h : g e.2 with
    | none =>
      simp only [List.filterMap_cons, h, Option.map_none, List.map_cons, List.sum_cons]
      exact Nat.le_add_left_of_le ih
    | some w =>
      simp only [List.filterMap_cons, h, Option.map_some, List.map_cons, List.sum_cons]
      exact Nat.add_le_add (hg _ _ h) ih

theorem weight_retain {f : β → Nat} {g : β → Option β} (hg : ∀ v w, g v = some w → f w = f v)
    (m : HashMap κ β) :
    m.weight f = ((m.values.filter fun v => (g v).isNone).map f).sum + (m.retain g).weight f := by
  obtain ⟨entries, nodup⟩ := m
  simp only [weight, values, retain]
  clear nodup
  induction entries with
  | nil => rfl
  | cons e entries ih =>
    cases h : g e.2 with
    | none =>
      simp only [List.filterMap_cons, List.map_cons, List.filter_cons, List.sum_cons, h,
        Option.map_none, Option.isNone_none, if_true, ih, Nat.add_assoc]
    | some w =>
      simp only [List.filterMap_cons, List.map_cons, List.filter_cons, List.sum_cons, h,
        Option.map_some, Option.isNone_some, Bool.false_eq_true, if_false, ih, hg _ _ h]
      exact Nat.add_left_comm ..

variable [DecidableEq κ]

def get (m : HashMap κ β) (k : κ) : Option β :=
  (m.entries.find? fun e => e.1 = k).map Prod.snd

def contains (m : HashMap κ β) (k : κ) : Bool := (m.get k).isSome

def getD (m : HashMap κ β) (k : κ) (d : β) : β := (m.get k).getD d

def remove (m : HashMap κ β) (k : κ) : HashMap κ β where
  entries := m.entries.filter fun e => e.1 ≠ k
  nodup := m.nodup.sublist (List.filter_sublist.map Prod.fst)

def insert (m : HashMap κ β) (k : κ) (v : β) : HashMap κ β where
  entries := (k, v) :: (m.remove k).entries
  nodup := by
    refine List.nodup_cons.mpr ⟨?_, (m.remove k).nodup⟩
    simp [remove]

def modify (m : HashMap κ β) (k : κ) (f : β → β) : HashMap κ β :=
  match m.get k with
  | some v => m.insert k (f v)
  | none => m

@[simp] theorem get_empty (k : κ) : (empty : HashMap κ β).get k = none := rfl

@[simp] theorem contains_empty (k : κ) : (empty : HashMap κ β).contains k = false := rfl

theorem contains_iff {m : HashMap κ β} {k : κ} : m.contains k = true ↔ ∃ v, m.get k = some v := by
  simp [contains, Option.isSome_iff_exists]

theorem get_remove (m : HashMap κ β) (k j : κ) :
    (m.remove k).get j = if j = k then none else m.get j := by
  unfold get remove
  rw [List.find?_filter]
  by_cases h : j = k
  · subst h
    simp
  · rw [if_neg h]
    congr 2
    funext e
    by_cases he : e.1 = j
    · simp [he, h]
    · simp [he]

theorem get_insert (m : HashMap κ β) (k j : κ) (v : β) :
    (m.insert k v).get j = if j = k then some v else m.get j := by
  have hcons : (m.insert k v).get j = if j = k then some v else (m.remove k).get j := by
    by_cases h : j = k
    · simp [get, insert, h]
    · simp [get, insert, h, Ne.symm h]
  rw [hcons, get_remove]
  split <;> rfl

@[simp] theorem get_insert_self (m : HashMap κ β) (k : κ) (v : β) :
    (m.insert k v).get k = some v := by simp [get_insert]

@[simp] theorem get_remove_self (m : HashMap κ β) (k : κ) : (m.remove k).get k = none := by
  simp [get_remove]

theorem get_modify (m : HashMap κ β) (k j : κ) (f : β → β) :
    (m.modify k f).get j = if j = k then (m.get j).map f else m.get j := by
  unfold modify
  cases hk : m.get k with
  | none =>
    by_cases h : j = k
    · subst h; simp [hk]
    · simp [h]
  | some v =>
    rw [get_insert]
    by_cases h : j = k
    · subst h; simp [hk]
    · simp [h]

theorem mem_entries_iff {m : HashMap κ β} {k : κ} {v : β} :
    (k, v) ∈ m.entries ↔ m.get k = some v := by
  obtain ⟨l, hl⟩ := m
  change (k, v) ∈ l ↔ (l.find? fun e => e.1 = k).map Prod.snd = some v
  induction l with
  | nil => simp
  | cons e l ih =>
    obtain ⟨j, w⟩ := e
    obtain ⟨hj, hl'⟩ := List.nodup_cons.mp hl
    by_cases h : j = k
    · subst h
      have hnot : ∀ u, (j, u) ∉ l := fun u hu => hj (List.mem_map.mpr ⟨(j, u), hu, rfl⟩)
      simp [hnot, eq_comm]
    · simp [h, Ne.symm h, ih hl']

theorem get_retain (f : β → Option β) (m : HashMap κ β) (k : κ) :
    (m.retain f).get k = (m.get k).bind f := by
  ext v
  rw [← mem_entries_iff]
  simp only [retain, List.mem_filterMap, Option.map_eq_some_iff, Option.bind_eq_some_iff,
    Prod.mk.injEq, ← mem_entries_iff]
  constructor
  · rintro ⟨e, he, w, hw, rfl, rfl⟩
    exact ⟨e.2, he, hw⟩
  · rintro ⟨w, hw, hf⟩
    exact ⟨(k, w), hw, v, hf, rfl, rfl⟩

theorem mem_keys_iff {m : HashMap κ β} {k : κ} : k ∈ m.keys ↔ m.contains k = true := by
  simp only [keys, List.mem_map, contains_iff, ← mem_entries_iff]
  constructor
  · rintro ⟨e, he, rfl⟩
    exact ⟨e.2, he⟩
  · rintro ⟨v, hv⟩
    exact ⟨(k, v), hv, rfl⟩

theorem mem_values_iff {m : HashMap κ β} {v : β} : v ∈ m.values ↔ ∃ k, m.get k = some v := by
  simp only [values, List.mem_map, ← mem_entries_iff]
  constructor
  · rintro ⟨e, he, rfl⟩
    exact ⟨e.1, he⟩
  · rintro ⟨k, hk⟩
    exact ⟨(k, v), hk, rfl⟩

theorem len_le_of_keys_lt {m : HashMap Nat β} {n : Nat} (h : ∀ k, m.contains k = true → k < n) :
    m.len ≤ n := by
  have hsub : m.keys ⊆ List.range n := fun k hk => List.mem_range.mpr (h k (mem_keys_iff.mp hk))
  have hle := (List.subperm_of_subset m.nodup hsub).length_le
  simpa [keys, len] using hle

theorem len_remove_le (m : HashMap κ β) (k : κ) : (m.remove k).len ≤ m.len :=
  List.length_filter_le ..

theorem len_insert_le (m : HashMap κ β) (k : κ) (v : β) : (m.insert k v).len ≤ m.len + 1 :=
  Nat.succ_le_succ (len_remove_le m k)

theorem remove_of_get_none {m : HashMap κ β} {k : κ} (h : m.get k = none) : m.remove k = m := by
  obtain ⟨entries, nodup⟩ := m
  have hkeep : entries.filter (fun e => e.1 ≠ k) = entries := by
    refine List.filter_eq_self.mpr fun e he => ?_
    have hne : e.1 ≠ k := by
      rintro rfl
      rw [mem_entries_iff (m := ⟨entries, nodup⟩).mp he] at h
      contradiction
    simpa using hne
  simp only [remove, hkeep]

theorem len_insert_new {m : HashMap κ β} {k : κ} (h : m.contains k = false) (v : β) :
    (m.insert k v).len = m.len + 1 := by
  have hnone : m.get k = none := by simpa [contains] using h
  simp only [len, insert, remove_of_get_none hnone, List.length_cons]

theorem contains_eq_false_of_len_eq_zero {m : HashMap κ β} (h : m.len = 0) (k : κ) :
    m.contains k = false := by
  have hnil : m.entries = [] := List.eq_nil_of_length_eq_zero h
  simp [contains, get, hnil]

theorem eq_empty_of_get_none {m : HashMap κ β} (h : ∀ k, m.get k = none) : m = empty := by
  obtain ⟨entries, nodup⟩ := m
  cases entries with
  | nil => rfl
  | cons e entries =>
    have hfirst := h e.1
    simp [get] at hfirst

theorem contains_insert (m : HashMap κ β) (k j : κ) (v : β) :
    (m.insert k v).contains j = (decide (j = k) || m.contains j) := by
  by_cases h : j = k <;> simp [contains, get_insert, h]

theorem contains_remove (m : HashMap κ β) (k j : κ) :
    (m.remove k).contains j = (decide (j ≠ k) && m.contains j) := by
  by_cases h : j = k <;> simp [contains, get_remove, h]

theorem entries_perm {m : HashMap κ β} {k : κ} {v : β} (h : m.get k = some v) :
    m.entries.Perm ((k, v) :: (m.remove k).entries) := by
  refine (List.perm_ext_iff_of_nodup m.nodup.of_map ?_).mpr fun e => ?_
  · refine List.nodup_cons.mpr ⟨fun hin => ?_, (m.remove k).nodup.of_map⟩
    rw [mem_entries_iff, get_remove_self] at hin
    contradiction
  · rw [List.mem_cons, mem_entries_iff, mem_entries_iff, get_remove, Prod.ext_iff]
    grind

theorem len_remove {m : HashMap κ β} {k : κ} {v : β} (h : m.get k = some v) :
    (m.remove k).len + 1 = m.len :=
  (entries_perm h).length_eq.symm

theorem weight_insert (f : β → Nat) (m : HashMap κ β) (k : κ) (v : β) :
    (m.insert k v).weight f = f v + (m.remove k).weight f := rfl

theorem weight_remove (f : β → Nat) {m : HashMap κ β} {k : κ} {v : β} (h : m.get k = some v) :
    m.weight f = f v + (m.remove k).weight f :=
  (((entries_perm h).map Prod.snd).map f).sum_nat

theorem weight_pos_iff (f : β → Nat) (m : HashMap κ β) :
    0 < m.weight f ↔ ∃ k v, m.get k = some v ∧ 0 < f v := by
  rw [weight, List.sum_pos_iff_exists_pos_nat]
  constructor
  · rintro ⟨n, hn, hpos⟩
    obtain ⟨v, hv, rfl⟩ := List.mem_map.mp hn
    obtain ⟨k, hk⟩ := mem_values_iff.mp hv
    exact ⟨k, v, hk, hpos⟩
  · rintro ⟨k, v, hk, hpos⟩
    exact ⟨f v, List.mem_map_of_mem (mem_values_iff.mpr ⟨k, hk⟩), hpos⟩

theorem weight_remove_le (f : β → Nat) (m : HashMap κ β) (k : κ) :
    (m.remove k).weight f ≤ m.weight f := by
  cases h : m.get k with
  | none => exact Nat.le_of_eq (congrArg (weight f) (remove_of_get_none h))
  | some v =>
    rw [weight_remove f h]
    exact Nat.le_add_left ..

end HashMap

namespace HashSet

variable {κ : Type} [DecidableEq κ]

def add (s : HashSet κ) (a : κ) : HashSet κ := s.insert a ()

@[simp] theorem contains_add (s : HashSet κ) (a b : κ) :
    (s.add a).contains b = (decide (b = a) || s.contains b) :=
  HashMap.contains_insert s a b ()

@[simp] theorem contains_remove (s : HashSet κ) (a b : κ) :
    HashMap.contains (HashMap.remove s a) b = (decide (b ≠ a) && HashMap.contains s b) :=
  HashMap.contains_remove s a b

end HashSet

theorem contains_foldl_add {κ : Type} [DecidableEq κ] (l : List κ) (s : HashSet κ) (a : κ) :
    (l.foldl HashSet.add s).contains a = true ↔ a ∈ l ∨ s.contains a = true := by
  induction l generalizing s with
  | nil => simp
  | cons b l ih =>
    rw [List.foldl_cons, ih, HashSet.contains_add, Bool.or_eq_true, decide_eq_true_eq,
      List.mem_cons, or_left_comm, or_assoc]

def tally {α : Type} [DecidableEq α] (l : List α) : HashMap α Nat :=
  l.foldl (fun m a => m.insert a (m.getD a 0 + 1)) .empty

theorem tally_fold {α : Type} [DecidableEq α] (l : List α) (m : HashMap α Nat) (a : α) :
    (l.foldl (fun m a => m.insert a (m.getD a 0 + 1)) m).getD a 0 = m.getD a 0 + l.count a := by
  induction l generalizing m with
  | nil => simp
  | cons b l ih =>
    rw [List.foldl_cons, ih]
    by_cases h : a = b
    · subst h
      simp only [HashMap.getD, HashMap.get_insert_self, Option.getD_some, List.count_cons_self]
      omega
    · simp [HashMap.getD, HashMap.get_insert, h, Ne.symm h]

theorem tally_getD {α : Type} [DecidableEq α] (l : List α) (a : α) :
    (tally l).getD a 0 = l.count a := by
  rw [tally, tally_fold]
  simp [HashMap.getD]

-- A hash table fixes no iteration order, so every traversal of one goes through `arrange`.
structure IterOrder where
  arrange : {α : Type} → List α → List α
  perm : ∀ {α : Type} (l : List α), (arrange l).Perm l

namespace IterOrder

def insertion : IterOrder := ⟨fun l => l, fun l => .refl l⟩

end IterOrder

end Collections
