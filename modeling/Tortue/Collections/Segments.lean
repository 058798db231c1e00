import Mathlib.Data.List.TakeDrop

namespace Collections

universe u

variable {α : Type u}

def window (l : List α) (offset len : Nat) : List α := (l.drop offset).take len

def splice (l : List α) (offset : Nat) (data : List α) : List α :=
  l.take offset ++ data ++ l.drop (offset + data.length)

theorem length_window {l : List α} {offset len : Nat} (h : offset + len ≤ l.length) :
    (window l offset len).length = len := by
  unfold window
  rw [List.length_take, List.length_drop]
  omega

theorem getElem?_window (l : List α) (offset len i : Nat) :
    (window l offset len)[i]? = if i < len then l[offset + i]? else none := by
  unfold window
  rw [List.getElem?_take, List.getElem?_drop]

theorem length_splice {l data : List α} {offset : Nat} (h : offset + data.length ≤ l.length) :
    (splice l offset data).length = l.length := by
  unfold splice
  rw [List.length_append, List.length_append, List.length_take, List.length_drop]
  omega

theorem splice_nil (l : List α) (offset : Nat) : splice l offset [] = l := by
  unfold splice
  rw [List.append_nil, List.length_nil, Nat.add_zero, List.take_append_drop]

theorem getElem?_splice {l data : List α} {offset : Nat} (h : offset + data.length ≤ l.length)
    (i : Nat) : (splice l offset data)[i]? =
      if offset ≤ i ∧ i < offset + data.length then data[i - offset]? else l[i]? := by
  have htake : (l.take offset).length = offset := by
    rw [List.length_take]
    omega
  unfold splice
  rw [List.append_assoc, List.getElem?_append, List.getElem?_append, htake]
  by_cases hlow : i < offset
  · rw [if_pos hlow, if_neg (by omega), List.getElem?_take_of_lt hlow]
  · by_cases hhigh : i < offset + data.length
    · rw [if_neg hlow, if_pos (by omega), if_pos (by omega)]
    · rw [if_neg hlow, if_neg (by omega), if_neg (by omega), List.getElem?_drop]
      congr 1
      omega

theorem window_splice_self {l data : List α} {offset : Nat}
    (h : offset + data.length ≤ l.length) :
    window (splice l offset data) offset data.length = data := by
  refine List.ext_getElem? fun i => ?_
  rw [getElem?_window, getElem?_splice h]
  by_cases hi : i < data.length
  · rw [if_pos hi, if_pos (by omega), Nat.add_sub_cancel_left]
  · rw [if_neg hi, List.getElem?_eq_none (by omega)]

theorem window_splice_disjoint {l data : List α} {offset from' len : Nat}
    (h : offset + data.length ≤ l.length)
    (hd : offset + data.length ≤ from' ∨ from' + len ≤ offset) :
    window (splice l offset data) from' len = window l from' len := by
  refine List.ext_getElem? fun i => ?_
  rw [getElem?_window, getElem?_window, getElem?_splice h]
  by_cases hi : i < len
  · rw [if_pos hi, if_pos hi, if_neg (by omega)]
  · rw [if_neg hi, if_neg hi]

theorem window_window {l : List α} {offset len from' n : Nat} (h : from' + n ≤ len) :
    window (window l offset len) from' n = window l (offset + from') n := by
  refine List.ext_getElem? fun i => ?_
  rw [getElem?_window, getElem?_window, getElem?_window]
  by_cases hi : i < n
  · rw [if_pos hi, if_pos (by omega), if_pos hi, Nat.add_assoc]
  · rw [if_neg hi, if_neg hi]

theorem window_append (a b : List α) (offset len : Nat) :
    window (a ++ b) offset len =
      window a offset len ++ window b (offset - a.length) (len - (a.length - offset)) := by
  unfold window
  rw [List.drop_append, List.take_append, List.length_drop]

theorem window_clip (l : List α) (offset len : Nat) :
    window l offset len = window l offset (min len (l.length - offset)) := by
  refine List.ext_getElem? fun i => ?_
  rw [getElem?_window, getElem?_window]
  by_cases hi : i < min len (l.length - offset)
  · rw [if_pos hi, if_pos (by omega)]
  · rw [if_neg hi]
    by_cases hlen : i < len
    · rw [if_pos hlen, List.getElem?_eq_none (by omega)]
    · rw [if_neg hlen]

theorem splice_append {a b data : List α} {offset : Nat} :
    splice (a ++ b) offset data = splice a offset (data.take (a.length - offset)) ++
      splice b (offset - a.length) (data.drop (a.length - offset)) := by
  rcases Nat.le_total a.length offset with hle | hle
  · have hzero : a.length - offset = 0 := by omega
    rw [hzero, List.take_zero, splice_nil, List.drop_zero]
    unfold splice
    rw [List.take_append, List.take_of_length_le hle, List.drop_append,
      List.drop_eq_nil_of_le (by omega : a.length ≤ offset + data.length), List.nil_append]
    have hsub : offset + data.length - a.length = offset - a.length + data.length := by omega
    rw [hsub]
    simp only [List.append_assoc]
  · have hzero : offset - a.length = 0 := by omega
    unfold splice
    rw [hzero, List.take_append_of_le_length hle, List.drop_append, List.take_zero,
      List.nil_append, Nat.zero_add, List.length_take, List.length_drop]
    rcases Nat.le_total data.length (a.length - offset) with hshort | hlong
    · have hrest : data.drop (a.length - offset) = [] := List.drop_eq_nil_of_le hshort
      have hsub : offset + data.length - a.length = data.length - (a.length - offset) := by omega
      rw [List.take_of_length_le hshort, hrest, Nat.min_eq_right hshort, hsub]
      simp only [List.append_assoc, List.nil_append]
    · have hdrop : a.drop (offset + data.length) = [] := List.drop_eq_nil_of_le (by omega)
      have hmin : offset + min (a.length - offset) data.length = a.length := by omega
      have hsub : offset + data.length - a.length = data.length - (a.length - offset) := by omega
      rw [hdrop, hmin, List.drop_length, hsub, List.nil_append, List.append_nil]
      have hsplit := List.take_append_drop (a.length - offset) data
      calc a.take offset ++ data ++ b.drop (data.length - (a.length - offset))
          = a.take offset ++ (data.take (a.length - offset) ++ data.drop (a.length - offset)) ++
              b.drop (data.length - (a.length - offset)) := by rw [hsplit]
        _ = a.take offset ++ data.take (a.length - offset) ++ (data.drop (a.length - offset) ++
              b.drop (data.length - (a.length - offset))) := by simp only [List.append_assoc]

def overwrite (l : List α) (writes : List (Nat × List α)) : List α :=
  writes.foldl (fun l w => splice l w.1 w.2) l

def Fits (size : Nat) (writes : List (Nat × List α)) : Prop :=
  ∀ w ∈ writes, w.1 + w.2.length ≤ size

theorem overwrite_append (l : List α) (ws vs : List (Nat × List α)) :
    overwrite l (ws ++ vs) = overwrite (overwrite l ws) vs := List.foldl_append ..

theorem overwrite_invariant {P : List α → Prop} {l : List α} {writes : List (Nat × List α)}
    (hl : P l) (hstep : ∀ w ∈ writes, ∀ l, P l → P (splice l w.1 w.2)) :
    P (overwrite l writes) := by
  induction writes generalizing l with
  | nil => exact hl
  | cons w writes ih =>
    have hnow : P (splice l w.1 w.2) := hstep w (List.mem_cons_self ..) l hl
    exact ih hnow fun v hv => hstep v (List.mem_cons_of_mem _ hv)

theorem length_overwrite {l : List α} {writes : List (Nat × List α)}
    (h : Fits l.length writes) : (overwrite l writes).length = l.length := by
  refine overwrite_invariant (P := fun (m : List α) => m.length = l.length) rfl ?_
  intro w hw m hm
  rw [length_splice (hm ▸ h w hw), hm]

theorem window_overwrite_disjoint {l : List α} {writes : List (Nat × List α)} {offset len : Nat}
    (h : Fits l.length writes)
    (hd : ∀ w ∈ writes, w.1 + w.2.length ≤ offset ∨ offset + len ≤ w.1) :
    window (overwrite l writes) offset len = window l offset len := by
  have hboth := overwrite_invariant
    (P := fun (m : List α) => m.length = l.length ∧ window m offset len = window l offset len)
    (l := l) ⟨rfl, rfl⟩ fun w (hw : w ∈ writes) m hm => by
      have hfit : w.1 + w.2.length ≤ m.length := hm.1 ▸ h w hw
      exact ⟨(length_splice hfit).trans hm.1,
        (window_splice_disjoint hfit (hd w hw)).trans hm.2⟩
  exact hboth.2

structure Segment (α : Type u) where
  start : Nat
  content : List α

namespace Segment

def overlay (offset : Nat) (data : List α) (s : Segment α) : Segment α where
  start := s.start
  content := splice s.content (offset - s.start)
    (window data (s.start - offset) (s.content.length - (offset - s.start)))

def part (offset stop : Nat) (s : Segment α) : List α :=
  window s.content (max offset s.start - s.start)
    (min stop (s.start + s.content.length) - max offset s.start)

def Contiguous : Nat → List (Segment α) → Prop
  | _, [] => True
  | start, s :: rest => s.start = start ∧ Contiguous (start + s.content.length) rest

def contents (l : List (Segment α)) : List α := l.flatMap content

theorem contents_cons (s : Segment α) (l : List (Segment α)) :
    contents (s :: l) = s.content ++ contents l := List.flatMap_cons ..

theorem contiguous_end {l : List (Segment α)} {start : Nat} (hl : Contiguous start l)
    {s : Segment α} (hs : s ∈ l) :
    s.start + s.content.length ≤ start + (contents l).length := by
  induction l generalizing start with
  | nil => contradiction
  | cons t l ih =>
    obtain ⟨rfl, htail⟩ := hl
    rw [contents_cons, List.length_append]
    rcases List.mem_cons.mp hs with rfl | hs
    · omega
    · have hrest := ih htail hs
      omega

theorem length_overlay (offset : Nat) (data : List α) (s : Segment α) :
    (overlay offset data s).content.length = s.content.length := by
  unfold overlay
  rcases Nat.le_total (offset - s.start) s.content.length with hle | hle
  · refine length_splice ?_
    unfold window
    rw [List.length_take]
    omega
  · have hzero : s.content.length - (offset - s.start) = 0 := by omega
    simp only [hzero, window, List.take_zero, splice_nil]

theorem contiguous_overlay {l : List (Segment α)} {start : Nat} (hl : Contiguous start l)
    (offset : Nat) (data : List α) : Contiguous start (l.map (overlay offset data)) := by
  induction l generalizing start with
  | nil => trivial
  | cons s l ih =>
    obtain ⟨hstart, htail⟩ := hl
    refine ⟨hstart, ?_⟩
    rw [length_overlay]
    exact ih htail

theorem contents_overlay {l : List (Segment α)} {start offset : Nat} {data : List α}
    (hl : Contiguous start l) (hfit : offset + data.length ≤ start + (contents l).length) :
    contents (l.map (overlay offset data)) =
      splice (contents l) (offset - start) (data.drop (start - offset)) := by
  induction l generalizing start with
  | nil =>
    have hnil : data.drop (start - offset) = [] := by
      refine List.drop_eq_nil_of_le ?_
      simp only [contents, List.flatMap_nil, List.length_nil] at hfit
      omega
    rw [hnil, splice_nil]
    rfl
  | cons s l ih =>
    obtain ⟨rfl, htail⟩ := hl
    rw [contents_cons, List.length_append] at hfit
    have hrest := ih htail (by omega)
    have hoffset : offset - s.start - s.content.length =
        offset - (s.start + s.content.length) := by omega
    have hskip : s.start - offset + (s.content.length - (offset - s.start)) =
        s.start + s.content.length - offset := by omega
    rw [List.map_cons, contents_cons, contents_cons, hrest, splice_append, List.drop_drop, hoffset,
      hskip]
    rfl

theorem overlay_outside (offset : Nat) (data : List α) (s : Segment α) {i : Nat}
    (h : s.start + i < offset ∨ offset + data.length ≤ s.start + i) :
    (overlay offset data s).content[i]? = s.content[i]? := by
  unfold overlay
  dsimp only
  have hlength : (window data (s.start - offset) (s.content.length - (offset - s.start))).length =
      min (s.content.length - (offset - s.start)) (data.length - (s.start - offset)) := by
    unfold window
    rw [List.length_take, List.length_drop]
  rcases Nat.le_total (offset - s.start) s.content.length with hle | hle
  · rw [getElem?_splice (by omega), if_neg (by omega)]
  · have hzero : s.content.length - (offset - s.start) = 0 := by omega
    simp only [hzero, window, List.take_zero, splice_nil]

theorem contiguous_modify {l : List (Segment α)} {start : Nat} (hl : Contiguous start l) (k : Nat)
    (offset : Nat) (data : List α) : Contiguous start (l.modify k (overlay offset data)) := by
  induction l generalizing start k with
  | nil => rwa [List.modify_nil]
  | cons s l ih =>
    obtain ⟨hstart, htail⟩ := hl
    cases k with
    | zero =>
      refine ⟨hstart, ?_⟩
      rw [length_overlay]
      exact htail
    | succ k => exact ⟨hstart, ih htail k⟩

theorem getElem?_contents_modify {l : List (Segment α)} {start : Nat} (hl : Contiguous start l)
    (k offset : Nat) (data : List α) {i : Nat}
    (h : start + i < offset ∨ offset + data.length ≤ start + i) :
    (contents (l.modify k (overlay offset data)))[i]? = (contents l)[i]? := by
  induction l generalizing start k i with
  | nil => rw [List.modify_nil]
  | cons s l ih =>
    obtain ⟨rfl, htail⟩ := hl
    cases k with
    | zero =>
      rw [List.modify_zero_cons, contents_cons, contents_cons, List.getElem?_append,
        List.getElem?_append, length_overlay, overlay_outside offset data s h]
    | succ k =>
      rw [List.modify_succ_cons, contents_cons, contents_cons, List.getElem?_append,
        List.getElem?_append]
      split_ifs with hi
      · rfl
      · exact ih htail k (by omega)

theorem window_contents_modify {l : List (Segment α)} (hl : Contiguous 0 l) (k offset : Nat)
    (data : List α) {from' len : Nat}
    (h : from' + len ≤ offset ∨ offset + data.length ≤ from') :
    window (contents (l.modify k (overlay offset data))) from' len =
      window (contents l) from' len := by
  refine List.ext_getElem? fun i => ?_
  rw [getElem?_window, getElem?_window]
  split_ifs with hi
  · exact getElem?_contents_modify hl k offset data (by omega)
  · rfl

theorem parts_eq_window {l : List (Segment α)} {start : Nat} (hl : Contiguous start l)
    (offset stop : Nat) :
    l.flatMap (part offset stop) =
      window (contents l) (offset - start) (stop - max offset start) := by
  induction l generalizing start with
  | nil => simp [contents, window]
  | cons s l ih =>
    obtain ⟨rfl, htail⟩ := hl
    have hoffset : offset - s.start - s.content.length =
        offset - (s.start + s.content.length) := by omega
    have hlen : stop - max offset s.start - (s.content.length - (offset - s.start)) =
        stop - max offset (s.start + s.content.length) := by omega
    have hlocal : max offset s.start - s.start = offset - s.start := by omega
    have hshare : min (stop - max offset s.start) (s.content.length - (offset - s.start)) =
        min stop (s.start + s.content.length) - max offset s.start := by omega
    rw [List.flatMap_cons, ih htail, contents_cons, window_append, hoffset, hlen,
      window_clip s.content, hshare]
    unfold part
    rw [hlocal]

end Segment

end Collections
