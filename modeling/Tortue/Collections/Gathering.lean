import Tortue.Collections.History
import Tortue.Collections.Slots

namespace Collections

universe u

variable {α : Type u}

inductive Gathering (α : Type u) where
  | collecting (t : Slots α)
  | done

namespace Slots

def values (t : Slots α) : List α := t.filterMap id

def clear (t : Slots α) : Slots α := t.map fun _ => none

theorem values_of_full {f : Nat → α} {t : Slots α} (hfull : t.Full)
    (h : ∀ i a, t[i]? = some (some a) → a = f i) : t.values = (List.range t.length).map f := by
  have hsome : t = ((List.range t.length).map f).map some := by
    refine List.ext_getElem? fun i => ?_
    rcases Nat.lt_or_ge i t.length with hlt | hge
    · rw [List.getElem?_map, List.getElem?_map, List.getElem?_range hlt]
      cases ht : t[i]? with
      | none => exact absurd hlt (Nat.not_lt.mpr (List.getElem?_eq_none_iff.mp ht))
      | some p =>
        cases p with
        | none => exact absurd ht (hfull i)
        | some a => rw [h i a ht]; rfl
    · rw [List.getElem?_eq_none hge, List.getElem?_eq_none (by simpa using hge)]
  rw [values]
  conv_lhs => rw [hsome]
  rw [List.filterMap_map, Function.id_comp, List.filterMap_some]

theorem clear_eq (t : Slots α) : t.clear = List.replicate t.length none := List.map_const' ..

theorem length_fill (t : Slots α) (i : Nat) (a : α) : (t.fill i a).length = t.length :=
  List.length_set

end Slots

namespace Gathering

def give (accept : List α → Bool) (g : Gathering α) (d : Nat × α) :
    Gathering α × List (Option (List α)) :=
  match g with
  | done => (done, [none])
  | collecting t =>
    match t[d.1]? with
    | some none =>
      if (t.fill d.1 d.2).all Option.isSome then
        if accept (t.fill d.1 d.2).values then (done, [some (t.fill d.1 d.2).values])
        else (collecting t.clear, [none])
      else (collecting (t.fill d.1 d.2), [none])
    | _ => (collecting t, [none])

variable {accept : List α → Bool} {f : Nat → α} {n : Nat} {t : Slots α}

theorem give_occupied {i : Nat} (hi : ¬ t.Vacant i) (a : α) :
    give accept (collecting t) (i, a) = (collecting t, [none]) := by
  simp only [give]
  split
  · next hvacant => exact absurd hvacant hi
  · rfl

theorem give_vacant {i : Nat} (hi : t.Vacant i) (a : α) :
    give accept (collecting t) (i, a) =
      if (t.fill i a).all Option.isSome then
        if accept (t.fill i a).values then (done, [some (t.fill i a).values])
        else (collecting t.clear, [none])
      else (collecting (t.fill i a), [none]) := by
  have hnone : t[i]? = some none := hi
  simp only [give, hnone]

theorem give_partial {i : Nat} {a : α} (hi : t.Vacant i) (hleft : ¬ (t.fill i a).Full) :
    give accept (collecting t) (i, a) = (collecting (t.fill i a), [none]) := by
  rw [give_vacant hi, if_neg fun h => hleft (Slots.all_isSome_iff.mp h)]

theorem give_full {i : Nat} {a : α} (hi : t.Vacant i) (hfull : (t.fill i a).Full) :
    give accept (collecting t) (i, a) =
      if accept (t.fill i a).values then (done, [some (t.fill i a).values])
      else (collecting t.clear, [none]) := by
  rw [give_vacant hi, if_pos (Slots.all_isSome_iff.mpr hfull)]

theorem give_cases (accept : List α → Bool) (t : Slots α) (i : Nat) (a : α) :
    (¬ t.Vacant i ∧ give accept (collecting t) (i, a) = (collecting t, [none])) ∨
    (t.Vacant i ∧ ¬ (t.fill i a).Full ∧
      give accept (collecting t) (i, a) = (collecting (t.fill i a), [none])) ∨
    (t.Vacant i ∧ (t.fill i a).Full ∧ accept (t.fill i a).values = true ∧
      give accept (collecting t) (i, a) = (done, [some (t.fill i a).values])) ∨
    (t.Vacant i ∧ (t.fill i a).Full ∧ accept (t.fill i a).values = false ∧
      give accept (collecting t) (i, a) = (collecting t.clear, [none])) := by
  by_cases hi : t.Vacant i
  · by_cases hfull : (t.fill i a).Full
    · cases haccept : accept (t.fill i a).values with
      | true => exact .inr (.inr (.inl
        ⟨hi, hfull, rfl, by rw [give_full hi hfull, if_pos haccept]⟩))
      | false =>
        refine .inr (.inr (.inr ⟨hi, hfull, rfl, ?_⟩))
        rw [give_full hi hfull, haccept]
        rfl
    · exact .inr (.inl ⟨hi, hfull, give_partial hi hfull⟩)
  · exact .inl ⟨hi, give_occupied hi a⟩

structure Right (f : Nat → α) (n : Nat) (t : Slots α) : Prop where
  length : t.length = n
  values : ∀ i a, t[i]? = some (some a) → a = f i

theorem Right.fill (h : Right f n t) {i : Nat} (hi : t.Vacant i) : Right f n (t.fill i (f i)) where
  length := by rw [Slots.length_fill, h.length]
  values j a hj := by
    rcases (Slots.fill_eq_some hi).mp hj with ⟨rfl, rfl⟩ | hold
    · rfl
    · exact h.values j a hold

theorem Right.full (h : Right f n t) (hfull : t.Full) : t.values = (List.range n).map f := by
  rw [Slots.values_of_full hfull h.values, h.length]

theorem right_blank (f : Nat → α) (n : Nat) : Right f n (List.replicate n none) where
  length := List.length_replicate
  values _ _ hj := absurd hj Slots.blank_ne_some

def Completes (t : Slots α) (ks : List Nat) (j : Nat) : Prop :=
  (∀ i, t.Vacant i → i ∈ ks.take (j + 1)) ∧ ∃ i, t.Vacant i ∧ i ∉ ks.take j

section Completes

variable {t' : Slots α} {k : Nat} {ks : List Nat}

theorem completes_zero (h : ∀ i, t'.Vacant i ↔ t.Vacant i ∧ i ≠ k) :
    Completes t (k :: ks) 0 ↔ t'.Full ∧ ∃ i, t.Vacant i := by
  simp only [Completes, Slots.Full, h, List.take_succ_cons, List.take_zero, List.mem_singleton,
    List.not_mem_nil, not_false_eq_true, and_true, not_and, not_not]

theorem completes_succ (h : ∀ i, t'.Vacant i ↔ t.Vacant i ∧ i ≠ k) (j : Nat) :
    Completes t (k :: ks) (j + 1) ↔ Completes t' ks j := by
  simp only [Completes, h, List.take_succ_cons, List.mem_cons, not_or, and_imp]
  refine and_congr (forall_congr' fun i => ?_) (exists_congr fun i => ?_)
  · exact ⟨fun hi hvacant hne => (hi hvacant).resolve_left hne, fun hi hvacant =>
      or_iff_not_imp_left.mpr (hi hvacant)⟩
  · rw [and_assoc]

theorem not_completes_full (h : t.Full) (j : Nat) : ¬ Completes t ks j :=
  fun hj => hj.2.elim fun i hi => h i hi.1

theorem not_full_iff : ¬ t.Full ↔ ∃ i, t.Vacant i := by
  simp only [Slots.Full, not_forall, not_not]

theorem vacant_same (hk : ¬ t.Vacant k) (i : Nat) : t.Vacant i ↔ t.Vacant i ∧ i ≠ k := by
  refine ⟨fun hi => ⟨hi, ?_⟩, And.left⟩
  rintro rfl
  exact hk hi

end Completes

theorem run_done (accept : List α → Bool) (ds : List (Nat × α)) :
    History.run (give accept) done ds = (done, List.replicate ds.length none) := by
  induction ds with
  | nil => rfl
  | cons d ds ih =>
    rw [History.run, give, ih]
    rfl

variable (f) in
def deliveries (ks : List Nat) : List (Nat × α) := ks.map fun k => (k, f k)

open Classical in
theorem results_right (haccept : accept ((List.range n).map f) = true) (h : Right f n t)
    (hopen : ¬ t.Full) (ks : List Nat) :
    (History.run (give accept) (collecting t) (deliveries f ks)).2 =
      (List.range ks.length).map fun j =>
        if Completes t ks j then some ((List.range n).map f) else none := by
  induction ks generalizing t with
  | nil => rfl
  | cons k ks ih =>
    have hvacant := not_full_iff.mp hopen
    rw [deliveries, List.map_cons, ← deliveries, List.length_cons, List.range_succ_eq_map,
      List.map_cons, List.map_map]
    rcases give_cases accept t k (f k) with ⟨hk, hg⟩ | ⟨hk, hleft, hg⟩ | ⟨hk, hfull, -, hg⟩ |
      ⟨hk, hfull, hreject, -⟩
    · have hsame := vacant_same hk
      rw [History.run, hg, ih h hopen, if_neg fun h0 => hopen ((completes_zero hsame).mp h0).1]
      simp only [Function.comp_def, completes_succ hsame, List.singleton_append]
    · have hfill : ∀ i, (t.fill k (f k)).Vacant i ↔ t.Vacant i ∧ i ≠ k := fun i =>
        Slots.vacant_fill
      rw [History.run, hg, ih (h.fill hk) hleft,
        if_neg fun h0 => hleft ((completes_zero hfill).mp h0).1]
      simp only [Function.comp_def, completes_succ hfill, List.singleton_append]
    · have hfill : ∀ i, (t.fill k (f k)).Vacant i ↔ t.Vacant i ∧ i ≠ k := fun i =>
        Slots.vacant_fill
      rw [History.run, hg, run_done, if_pos ((completes_zero hfill).mpr ⟨hfull, hvacant⟩),
        (h.fill hk).full hfull]
      simp only [Function.comp_def, completes_succ hfill, not_completes_full hfull, if_false,
        List.singleton_append, List.map_const', List.length_range, deliveries, List.length_map]
    · rw [(h.fill hk).full hfull, haccept] at hreject
      contradiction

def Settled (f : Nat → α) (n : Nat) (g : Gathering α) : Prop :=
  g = done ∨ ∃ t, g = collecting t ∧ Right f n t ∧ ¬ t.Full

theorem settled_give (haccept : accept ((List.range n).map f) = true) {g : Gathering α}
    (h : Settled f n g) (k : Nat) : Settled f n (give accept g (k, f k)).1 := by
  obtain rfl | ⟨t, rfl, hright, hopen⟩ := h
  · exact .inl rfl
  · rcases give_cases accept t k (f k) with ⟨-, hg⟩ | ⟨hk, hleft, hg⟩ | ⟨-, -, -, hg⟩ |
      ⟨hk, hfull, hreject, -⟩
    · exact .inr ⟨t, by rw [hg], hright, hopen⟩
    · exact .inr ⟨_, by rw [hg], hright.fill hk, hleft⟩
    · exact .inl (by rw [hg])
    · rw [(hright.fill hk).full hfull, haccept] at hreject
      contradiction

theorem settled_run (haccept : accept ((List.range n).map f) = true) {g : Gathering α}
    (h : Settled f n g) (ks : List Nat) :
    Settled f n (History.run (give accept) g (deliveries f ks)).1 := by
  induction ks generalizing g with
  | nil => exact h
  | cons k ks ih => exact ih (settled_give haccept h k)

theorem exists_filling (accept : List α → Bool) {ks : List Nat} (hopen : ¬ t.Full)
    (hcover : ∀ i, t.Vacant i → i ∈ ks) :
    ∃ (s : Slots α) (k : Nat) (post : List Nat), s.Vacant k ∧ (s.fill k (f k)).Full ∧
      s.length = t.length ∧ (Right f n t → Right f n s) ∧
      (History.run (give accept) (collecting t) (deliveries f ks)).1 =
        (History.run (give accept) (give accept (collecting s) (k, f k)).1
          (deliveries f post)).1 := by
  induction ks generalizing t with
  | nil =>
    obtain ⟨i, hi⟩ := not_full_iff.mp hopen
    exact absurd (hcover i hi) List.not_mem_nil
  | cons k ks ih =>
    rcases give_cases accept t k (f k) with ⟨hk, hg⟩ | ⟨hk, hleft, hg⟩ | ⟨hk, hfull, -⟩ |
      ⟨hk, hfull, -⟩
    · rw [deliveries, List.map_cons, ← deliveries, History.run, hg]
      refine ih hopen fun i hi => ?_
      exact (List.mem_cons.mp (hcover i hi)).resolve_left ((vacant_same hk i).mp hi).2
    · obtain ⟨s, j, post, hs, hfull, hlength, hright, hrun⟩ := ih hleft fun i hi => by
        obtain ⟨hi, hne⟩ := Slots.vacant_fill.mp hi
        exact (List.mem_cons.mp (hcover i hi)).resolve_left hne
      refine ⟨s, j, post, hs, hfull, hlength.trans (Slots.length_fill ..), fun h => ?_, ?_⟩
      · exact hright (h.fill hk)
      · rw [deliveries, List.map_cons, ← deliveries, History.run, hg, hrun]
    · exact ⟨t, k, ks, hk, hfull, rfl, id, rfl⟩
    · exact ⟨t, k, ks, hk, hfull, rfl, id, rfl⟩

theorem give_filling {k : Nat} (hk : t.Vacant k) (hfull : (t.fill k (f k)).Full) :
    (give accept (collecting t) (k, f k)).1 = done ∨
      (accept (t.fill k (f k)).values = false ∧
        (give accept (collecting t) (k, f k)).1 = collecting (List.replicate t.length none)) := by
  rcases give_cases accept t k (f k) with ⟨hfilled, -⟩ | ⟨-, hleft, -⟩ | ⟨-, -, -, hg⟩ |
    ⟨-, -, hreject, hg⟩
  · exact absurd hk hfilled
  · exact absurd hfull hleft
  · exact .inl (by rw [hg])
  · exact .inr ⟨hreject, by rw [hg, Slots.clear_eq]⟩

theorem settled_of_covered (haccept : accept ((List.range n).map f) = true)
    (hlength : t.length = n) {ks : List Nat} (hopen : ¬ t.Full)
    (hcover : ∀ i, t.Vacant i → i ∈ ks) :
    Settled f n (History.run (give accept) (collecting t) (deliveries f ks)).1 := by
  obtain ⟨s, k, post, hk, hfull, hsame, -, hrun⟩ := exists_filling accept (n := n) hopen hcover
  rw [hrun]
  refine settled_run haccept ?_ post
  rcases give_filling hk hfull with hdone | ⟨-, hcleared⟩
  · exact .inl hdone
  · refine .inr ⟨_, hcleared, ?_, ?_⟩
    · rw [hsame, hlength]
      exact right_blank f n
    · exact not_full_iff.mpr ⟨k, Slots.vacant_blank.mpr hk.lt⟩

theorem done_of_covered (haccept : accept ((List.range n).map f) = true) {g : Gathering α}
    (h : Settled f n g) {ks : List Nat} (hcover : ∀ i < n, i ∈ ks) :
    (History.run (give accept) g (deliveries f ks)).1 = done := by
  obtain rfl | ⟨t, rfl, hright, hopen⟩ := h
  · rw [run_done]
  · obtain ⟨s, k, post, hk, hfull, -, hkept, hrun⟩ := exists_filling accept hopen fun i hi =>
      hcover i (hright.length ▸ hi.lt)
    rw [hrun]
    rcases give_filling hk hfull with hdone | ⟨hreject, -⟩
    · rw [hdone, run_done]
    · rw [((hkept hright).fill hk).full hfull, haccept] at hreject
      contradiction

end Gathering

end Collections
