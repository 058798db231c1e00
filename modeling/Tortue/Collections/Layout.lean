import Mathlib.Algebra.GroupWithZero.Nat
import Tortue.Collections.Segments

namespace Collections

universe u

variable {α : Type u}

def layout (l : List α) : Nat → List Nat → List (List α)
  | _, [] => []
  | offset, width :: widths => window l offset width :: layout l (offset + width) widths

theorem window_middle (l data r : List α) :
    window (l ++ data ++ r) l.length data.length = data := by
  unfold window
  rw [List.append_assoc, List.drop_left, List.take_left]

theorem layout_flatten (l : List α) (fields : List (List α)) (r : List α) :
    layout (l ++ fields.flatten ++ r) l.length (fields.map List.length) = fields := by
  induction fields generalizing l with
  | nil => rfl
  | cons field fields ih =>
    have hsplit : l ++ (field :: fields).flatten ++ r = l ++ field ++ fields.flatten ++ r := by
      rw [List.flatten_cons, ← List.append_assoc l]
    have hfirst := window_middle l field (fields.flatten ++ r)
    rw [← List.append_assoc] at hfirst
    have hrest := ih (l ++ field)
    rw [List.length_append] at hrest
    rw [List.map_cons, layout, hsplit, hfirst, hrest]

theorem window_append_drop (l : List α) (offset width : Nat) :
    window l offset width ++ l.drop (offset + width) = l.drop offset := by
  rw [window, ← List.drop_drop, List.take_append_drop]

theorem flatten_layout_append (l : List α) (offset : Nat) (widths : List Nat) :
    (layout l offset widths).flatten ++ l.drop (offset + widths.sum) = l.drop offset := by
  induction widths generalizing offset with
  | nil => rfl
  | cons width widths ih =>
    rw [layout, List.flatten_cons, List.sum_cons, List.append_assoc, ← Nat.add_assoc, ih]
    exact window_append_drop l offset width

theorem flatten_layout {l : List α} {offset : Nat} {widths : List Nat}
    (h : offset + widths.sum = l.length) : (layout l offset widths).flatten = l.drop offset := by
  have hall := flatten_layout_append l offset widths
  rwa [h, List.drop_length, List.append_nil] at hall

theorem eq_flatten_append {l : List α} {widths : List Nat} {fields : List (List α)}
    (h : layout l 0 widths = fields) : l = fields.flatten ++ l.drop widths.sum := by
  have hall := flatten_layout_append l 0 widths
  rw [h, Nat.zero_add] at hall
  exact hall.symm

theorem layout_append {widths : List Nat} {fields : List (List α)}
    (h : fields.map List.length = widths) (rest : List α) :
    layout (fields.flatten ++ rest) 0 widths = fields := by
  have hall := layout_flatten [] fields rest
  rwa [h] at hall

end Collections
