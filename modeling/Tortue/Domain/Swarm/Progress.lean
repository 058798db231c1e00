import Tortue.Domain.Swarm.Geometry

namespace Tortue

open Collections

namespace Piece

structure Unfilled (p : Piece) : Prop where
  blocks : 0 < p.blocksTotal
  missing : p.isComplete = false → p.blocksReceived < p.blocksTotal

theorem blocksReceived_complete {p : Piece} (h : p.isComplete = true) :
    p.blocksReceived = p.blocksTotal := by
  unfold isComplete at h
  unfold blocksReceived
  split at h
  · contradiction
  · rfl

theorem Unfilled.received_le {p : Piece} (h : Unfilled p) : p.blocksReceived ≤ p.blocksTotal := by
  cases hc : p.isComplete with
  | false => exact (h.missing hc).le
  | true => exact (blocksReceived_complete hc).le

theorem Unfilled.received_eq_iff {p : Piece} (h : Unfilled p) :
    p.blocksReceived = p.blocksTotal ↔ p.isComplete = true := by
  refine ⟨fun heq => ?_, blocksReceived_complete⟩
  by_contra hopen
  have hlt := h.missing (by simpa using hopen)
  omega

theorem unfilled_new (hash : PieceHash) {len : Nat} (hlen : 0 < len) :
    Unfilled (.new hash len) := by
  have hpos : 0 < (Piece.new hash len).blocksTotal := Bitfield.divCeil_pos hlen blockSize_pos
  exact ⟨hpos, fun _ => hpos⟩

theorem unfilled_of_buffer_none {p : Piece} (hs : p.Sound) (hpos : 0 < p.blocksTotal)
    (h : p.buffer = none) : Unfilled p := by
  refine ⟨hpos, fun hopen => ?_⟩
  unfold isComplete at hopen
  split at hopen
  · next blocks received hstate =>
    have hsize := hs.size blocks received hstate
    have hcount := hs.count blocks received hstate
    have hle := List.countP_le_length (p := fun b => decide (b ≠ .missing)) (l := blocks)
    simp only [buffer, hstate] at h
    simp only [blocksReceived, hstate]
    split_ifs at h with hfull
    omega
  · contradiction

theorem unfilled_reset {p : Piece} (h : 0 < p.blocksTotal) : Unfilled p.reset := by
  have htotal : p.reset.blocksTotal = p.blocksTotal := by simp [blocksTotal]
  refine ⟨htotal ▸ h, fun hopen => ?_⟩
  rw [htotal]
  unfold reset at hopen ⊢
  split
  · next hs =>
    rw [hs] at hopen
    simp [isComplete, hs] at hopen
  · exact h

theorem unfilled_complete {p : Piece} (h : 0 < p.blocksTotal) :
    Unfilled { p with state := .complete } :=
  ⟨h, fun hopen => by simp [isComplete] at hopen⟩

theorem unfilled_receiveBlock {p : Piece} (hs : Sound p) (h : Unfilled p) (sha1 : Sha1) (k : Nat)
    (data : Bytes) : Unfilled (p.receiveBlock sha1 k data).2 := by
  have hstore : (p.store k data).blocksTotal = p.blocksTotal := by simp [blocksTotal]
  rcases receiveBlock_cases sha1 p k data with ⟨-, hsame, -⟩ | ⟨ha, hbuf, hres⟩ |
    ⟨-, _, -, -, hres⟩ | ⟨-, _, -, -, hres⟩
  · rw [hsame]
    exact h
  · rw [hres]
    exact unfilled_of_buffer_none (sound_store hs ha) (hstore ▸ h.blocks) hbuf
  · rw [hres]
    exact unfilled_reset (hstore ▸ h.blocks)
  · rw [hres]
    exact unfilled_complete h.blocks

end Piece

namespace PieceManager

def Underway (pm : PieceManager) : Prop := ∀ (i : Nat) (p : Piece), pm.pieces[i]? = some p →
  p.Unfilled

variable {sha1 : Sha1} {m : Metainfo} {pm : PieceManager}

theorem underway_receiveBlock (hs : Sound pm) (h : Underway pm) (range : BlockRange)
    (data : Bytes) : Underway (pm.receiveBlock sha1 range data).2 := by
  intro i q hq
  obtain hq | ⟨k, p, hp, rfl⟩ := piece_receiveBlock hq
  · exact h i q hq
  · exact Piece.unfilled_receiveBlock (hs.pieces i p hp) (h i p hp) sha1 k data

end PieceManager

namespace Metainfo

open PieceManager

def Reached (m : Metainfo) : Prop := ∀ i < m.pieces.length,
  0 < m.pieceLength ∧ i * m.pieceLength < m.totalSize ∧ i * m.pieceLength < 2 ^ 64

variable {m : Metainfo} {pm : PieceManager}

theorem Reached.last (h : m.Reached) (hn : 0 < m.pieces.length) :
    pieceLengthAt m (m.pieces.length - 1) =
      some (m.totalSize - (m.pieces.length - 1) * m.pieceLength) := by
  obtain ⟨-, hlt, hsmall⟩ := h (m.pieces.length - 1) (by omega)
  unfold pieceLengthAt
  rw [if_pos rfl, wrap_of_lt hsmall]
  exact if_pos hlt.le

theorem Reached.length_pos (h : m.Reached) {i len : Nat} (hi : i < m.pieces.length)
    (hlen : pieceLengthAt m i = some len) : 0 < len := by
  obtain ⟨hpl, hlt, hsmall⟩ := h i hi
  unfold pieceLengthAt at hlen
  split at hlen
  · rw [wrap_of_lt hsmall, if_pos hlt.le, Option.some.injEq] at hlen
    omega
  · rw [Option.some.injEq] at hlen
    omega

theorem Reached.sum_lengths (h : m.Reached) (hm : Described m pm) (hn : 0 < m.pieces.length) :
    (pm.pieces.map Piece.length).sum = m.totalSize := by
  obtain ⟨-, hlt, -⟩ := h (m.pieces.length - 1) (by omega)
  rw [lengths_eq hm hn (h.last hn)]
  simp
  omega

end Metainfo

namespace PieceManager

variable {sha1 : Sha1} {m : Metainfo} {pm : PieceManager}

theorem delivered_underway {h : Deliveries} (hreach : m.Reached) (hist : Delivered sha1 m h pm) :
    Underway pm := by
  have hboth := hist.invariant (P := fun pm => Sound pm ∧ Underway pm)
    (fun pm hn => by
      refine ⟨sound_new hn, fun i p hp => ?_⟩
      obtain ⟨hlength, -, hspec⟩ := new_spec hn
      obtain ⟨hash, len, -, hlen, rfl⟩ := hspec i p hp
      have hi : i < m.pieces.length := hlength ▸ (List.getElem?_eq_some_iff.mp hp).1
      exact Piece.unfilled_new hash (hreach.length_pos hi hlen))
    fun _ d h => ⟨sound_receiveBlock h.1 sha1 d.1 d.2, underway_receiveBlock h.1 h.2 d.1 d.2⟩
  exact hboth.2

theorem neededPieces_nil_iff (pm : PieceManager) :
    pm.neededPieces = [] ↔ pm.isComplete = true := by
  unfold neededPieces
  rw [List.filter_eq_nil_iff, isComplete_iff]
  refine forall_congr' fun i => ?_
  rw [List.mem_range]
  refine imp_congr_right fun hi => ?_
  simp [CompleteAt, List.getElem?_eq_getElem hi]

theorem availableBytes_eq (pm : PieceManager) : pm.availableBytes =
    (pm.pieces.map fun p => if p.isComplete = true then p.length else 0).sum :=
  sum_map_filter Piece.length Piece.isComplete pm.pieces

theorem availableBytes_le (pm : PieceManager) :
    pm.availableBytes ≤ (pm.pieces.map Piece.length).sum := by
  rw [availableBytes_eq]
  refine sum_map_le_sum fun p _ => ?_
  split
  · exact Nat.le_refl _
  · exact Nat.zero_le _

theorem availableBytes_eq_iff (h : ∀ p ∈ pm.pieces, 0 < p.length) :
    pm.availableBytes = (pm.pieces.map Piece.length).sum ↔ pm.isComplete = true := by
  rw [availableBytes_eq, sum_map_eq_sum_iff, isComplete, List.all_eq_true]
  · refine forall₂_congr fun p hp => ?_
    have hpos := h p hp
    split
    · simp [*]
    · simp only [*, Bool.false_eq_true, iff_false]
      omega
  · intro p _
    split
    · exact Nat.le_refl _
    · exact Nat.zero_le _

theorem blocksReceived_le (h : Underway pm) : pm.blocksReceived ≤ pm.blocksTotal :=
  sum_map_le_sum fun p hp => by
    obtain ⟨i, hi⟩ := List.mem_iff_getElem?.mp hp
    exact (h i p hi).received_le

theorem blocksReceived_eq_iff (h : Underway pm) :
    pm.blocksReceived = pm.blocksTotal ↔ pm.isComplete = true := by
  have hpiece : ∀ p ∈ pm.pieces, p.Unfilled := fun p hp => by
    obtain ⟨i, hi⟩ := List.mem_iff_getElem?.mp hp
    exact h i p hi
  unfold blocksReceived blocksTotal
  rw [sum_map_eq_sum_iff fun p hp => (hpiece p hp).received_le, isComplete, List.all_eq_true]
  exact forall₂_congr fun p hp => (hpiece p hp).received_eq_iff

end PieceManager

end Tortue
