import Tortue.Domain.Message

namespace Tortue

open Collections

structure BlockAssignments where
  byPeer : HashMap SocketAddr (HashSet BlockRange)

namespace BlockAssignments

def maxInFlightPerPeer : Nat := 32

def new : BlockAssignments := ⟨.empty⟩

def blocksOf (a : BlockAssignments) (addr : SocketAddr) : HashSet BlockRange :=
  a.byPeer.getD addr .empty

def assign (a : BlockAssignments) (b : BlockRange) (addr : SocketAddr) : BlockAssignments :=
  ⟨a.byPeer.insert addr ((a.blocksOf addr).add b)⟩

def unassign (a : BlockAssignments) (b : BlockRange) (addr : SocketAddr) : BlockAssignments :=
  ⟨a.byPeer.modify addr fun blocks => blocks.remove b⟩

def isHolder (a : BlockAssignments) (b : BlockRange) (addr : SocketAddr) : Bool :=
  match a.byPeer.get addr with
  | some blocks => blocks.contains b
  | none => false

def holderCounts (a : BlockAssignments) : HashMap BlockRange Nat :=
  tally (a.byPeer.values.flatMap HashMap.keys)

def releasePeer (a : BlockAssignments) (addr : SocketAddr) : BlockAssignments :=
  ⟨a.byPeer.remove addr⟩

def inFlight (a : BlockAssignments) (addr : SocketAddr) : Nat :=
  match a.byPeer.get addr with
  | some blocks => blocks.len
  | none => 0

def freeSlotsFor (a : BlockAssignments) (addr : SocketAddr) : Nat :=
  maxInFlightPerPeer - a.inFlight addr

def requestsInFlight (a : BlockAssignments) : Nat := (a.byPeer.values.map HashMap.len).sum

theorem isHolder_eq_blocksOf (a : BlockAssignments) (b : BlockRange) (x : SocketAddr) :
    a.isHolder b x = (a.blocksOf x).contains b := by
  unfold isHolder blocksOf HashMap.getD
  cases a.byPeer.get x <;> rfl

theorem inFlight_eq_blocksOf (a : BlockAssignments) (x : SocketAddr) :
    a.inFlight x = (a.blocksOf x).len := by
  unfold inFlight blocksOf HashMap.getD
  cases a.byPeer.get x <;> rfl

theorem blocksOf_assign (a : BlockAssignments) (b : BlockRange) (x y : SocketAddr) :
    (a.assign b x).blocksOf y = if y = x then (a.blocksOf y).add b else a.blocksOf y := by
  by_cases h : y = x
  · subst h; simp [blocksOf, assign, HashMap.getD]
  · simp [blocksOf, assign, HashMap.getD, HashMap.get_insert, h]

theorem blocksOf_unassign (a : BlockAssignments) (b : BlockRange) (x y : SocketAddr) :
    (a.unassign b x).blocksOf y = if y = x then (a.blocksOf y).remove b else a.blocksOf y := by
  by_cases h : y = x
  · subst h
    cases hg : a.byPeer.get y with
    | none =>
      simp [blocksOf, unassign, HashMap.getD, HashMap.get_modify, hg, HashMap.remove, HashMap.empty]
    | some blocks => simp [blocksOf, unassign, HashMap.getD, HashMap.get_modify, hg]
  · simp [blocksOf, unassign, HashMap.getD, HashMap.get_modify, h]

theorem blocksOf_releasePeer (a : BlockAssignments) (x y : SocketAddr) :
    (a.releasePeer x).blocksOf y = if y = x then .empty else a.blocksOf y := by
  by_cases h : y = x
  · subst h; simp [blocksOf, releasePeer, HashMap.getD]
  · simp [blocksOf, releasePeer, HashMap.getD, HashMap.get_remove, h]

theorem isHolder_assign (a : BlockAssignments) (b r : BlockRange) (x y : SocketAddr) :
    (a.assign b x).isHolder r y = true ↔ (y = x ∧ r = b) ∨ a.isHolder r y = true := by
  rw [isHolder_eq_blocksOf, blocksOf_assign, isHolder_eq_blocksOf]
  by_cases h : y = x <;> simp [h]

theorem isHolder_unassign (a : BlockAssignments) (b r : BlockRange) (x y : SocketAddr) :
    (a.unassign b x).isHolder r y = true ↔ a.isHolder r y = true ∧ ¬ (y = x ∧ r = b) := by
  rw [isHolder_eq_blocksOf, blocksOf_unassign, isHolder_eq_blocksOf]
  by_cases h : y = x
  · simp [h, and_comm]
  · simp [h]

theorem isHolder_releasePeer (a : BlockAssignments) (r : BlockRange) (x y : SocketAddr) :
    (a.releasePeer x).isHolder r y = true ↔ a.isHolder r y = true ∧ y ≠ x := by
  rw [isHolder_eq_blocksOf, blocksOf_releasePeer, isHolder_eq_blocksOf]
  by_cases h : y = x <;> simp [h]

theorem inFlight_assign_le (a : BlockAssignments) (b : BlockRange) (x y : SocketAddr) :
    (a.assign b x).inFlight y ≤ if y = x then a.inFlight y + 1 else a.inFlight y := by
  rw [inFlight_eq_blocksOf, blocksOf_assign, inFlight_eq_blocksOf]
  split
  · exact HashMap.len_insert_le _ _ _
  · exact le_refl _

theorem inFlight_assign_new (a : BlockAssignments) {b : BlockRange} {x : SocketAddr}
    (h : a.isHolder b x = false) (y : SocketAddr) :
    (a.assign b x).inFlight y = if y = x then a.inFlight y + 1 else a.inFlight y := by
  rw [inFlight_eq_blocksOf, blocksOf_assign, inFlight_eq_blocksOf]
  split
  · next hy =>
    subst hy
    rw [isHolder_eq_blocksOf] at h
    exact HashMap.len_insert_new h ()
  · rfl

theorem inFlight_unassign_le (a : BlockAssignments) (b : BlockRange) (x y : SocketAddr) :
    (a.unassign b x).inFlight y ≤ a.inFlight y := by
  rw [inFlight_eq_blocksOf, blocksOf_unassign, inFlight_eq_blocksOf]
  split
  · exact HashMap.len_remove_le _ _
  · exact le_refl _

theorem inFlight_unassign_held (a : BlockAssignments) {b : BlockRange} {x : SocketAddr}
    (h : a.isHolder b x = true) : (a.unassign b x).inFlight x + 1 = a.inFlight x := by
  rw [isHolder_eq_blocksOf] at h
  obtain ⟨v, hv⟩ := HashMap.contains_iff.mp h
  rw [inFlight_eq_blocksOf, blocksOf_unassign, if_pos rfl, inFlight_eq_blocksOf]
  exact HashMap.len_remove hv

theorem inFlight_unassign_free (a : BlockAssignments) {b : BlockRange} {x : SocketAddr}
    (h : a.isHolder b x = false) : (a.unassign b x).inFlight x = a.inFlight x := by
  have hnone : (a.blocksOf x).get b = none := by
    rw [isHolder_eq_blocksOf] at h
    simpa [HashMap.contains] using h
  rw [inFlight_eq_blocksOf, blocksOf_unassign, if_pos rfl, HashMap.remove_of_get_none hnone,
    inFlight_eq_blocksOf]

theorem inFlight_unassign_other (a : BlockAssignments) (b : BlockRange) {x y : SocketAddr}
    (h : y ≠ x) : (a.unassign b x).inFlight y = a.inFlight y := by
  rw [inFlight_eq_blocksOf, blocksOf_unassign, if_neg h, inFlight_eq_blocksOf]

theorem inFlight_releasePeer_other (a : BlockAssignments) {x y : SocketAddr} (h : y ≠ x) :
    (a.releasePeer x).inFlight y = a.inFlight y := by
  rw [inFlight_eq_blocksOf, blocksOf_releasePeer, if_neg h, inFlight_eq_blocksOf]

theorem inFlight_releasePeer_le (a : BlockAssignments) (x y : SocketAddr) :
    (a.releasePeer x).inFlight y ≤ a.inFlight y := by
  rw [inFlight_eq_blocksOf, blocksOf_releasePeer, inFlight_eq_blocksOf]
  split
  · exact Nat.zero_le _
  · exact le_refl _

theorem holderCounts_eq_zero_iff (a : BlockAssignments) (b : BlockRange) :
    a.holderCounts.getD b 0 = 0 ↔ ∀ x, a.isHolder b x = false := by
  rw [holderCounts, tally_getD, List.count_eq_zero, List.mem_flatMap]
  constructor
  · intro h x
    by_contra hx
    rw [Bool.not_eq_false] at hx
    unfold isHolder at hx
    cases hg : a.byPeer.get x with
    | none => simp [hg] at hx
    | some blocks =>
      rw [hg] at hx
      exact h ⟨blocks, HashMap.mem_values_iff.mpr ⟨x, hg⟩, HashMap.mem_keys_iff.mpr hx⟩
  · rintro h ⟨blocks, hblocks, hb⟩
    obtain ⟨x, hx⟩ := HashMap.mem_values_iff.mp hblocks
    have hfalse := h x
    unfold isHolder at hfalse
    rw [hx] at hfalse
    simp [HashMap.mem_keys_iff.mp hb] at hfalse

end BlockAssignments

end Tortue
