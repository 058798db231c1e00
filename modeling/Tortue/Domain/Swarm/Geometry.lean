import Tortue.Domain.Swarm.Frame
import Tortue.Domain.Swarm.PieceHistory

namespace Tortue

open Collections

namespace Piece

def slice (p : Piece) (data : Bytes) (k : Nat) : Bytes :=
  (data.drop (k * blockSize)).take (p.blockLengthAt k)

def fill (sha1 : Sha1) (data : Bytes) (p : Piece) : Piece :=
  p.unreceivedBlocks.foldl (fun q k => (q.receiveBlock sha1 k (p.slice data k)).2) p

def received (p : Piece) (data : Bytes) (j : Nat) : List BlockState :=
  (List.range p.blocksTotal).map fun k => if k < j then .received (p.slice data k) else .missing

def filled (p : Piece) (data : Bytes) (j : Nat) : Piece :=
  { p with state := .partialBlocks (p.received data j) j }

theorem length_slice {p : Piece} {data : Bytes} (h : data.length = p.length) (k : Nat) :
    (p.slice data k).length = p.blockLengthAt k := by
  unfold slice blockLengthAt
  rw [List.length_take, List.length_drop, h]
  omega

theorem length_slice_of_fits {p : Piece} {data : Bytes} {k : Nat}
    (h : k * blockSize + p.blockLengthAt k ≤ data.length) :
    (p.slice data k).length = p.blockLengthAt k := by
  unfold slice
  rw [List.length_take, List.length_drop]
  omega

theorem getElem?_received {p : Piece} {data : Bytes} {j k : Nat} (hk : k < p.blocksTotal) :
    (p.received data j)[k]? =
      some (if k < j then .received (p.slice data k) else .missing) := by
  unfold received
  rw [List.getElem?_map, List.getElem?_range hk, Option.map_some]

theorem store_filled {p : Piece} {data : Bytes} {j : Nat} :
    (p.filled data j).store j (p.slice data j) = p.filled data (j + 1) := by
  have hset : (p.received data j).set j (.received (p.slice data j)) = p.received data (j + 1) := by
    refine List.ext_getElem? fun k => ?_
    have hlength : (p.received data j).length = p.blocksTotal := by simp [received]
    by_cases hk : k < p.blocksTotal
    · rw [List.getElem?_set, getElem?_received hk, getElem?_received hk, hlength]
      by_cases hjk : j = k
      · subst hjk
        simp [hk]
      · have hiff : k < j + 1 ↔ k < j := by omega
        simp [hjk, hiff]
    · rw [List.getElem?_eq_none, List.getElem?_eq_none]
      · simpa [received] using hk
      · simpa [received] using hk
  unfold store filled
  simp only [hset]

theorem accepts_filled {p : Piece} {data : Bytes} (h : data.length = p.length) {j : Nat}
    (hj : j < p.blocksTotal) : (p.filled data j).Accepts j (p.slice data j) := by
  refine ⟨p.received data j, j, rfl, ?_, length_slice h j⟩
  rw [getElem?_received hj, if_neg (Nat.lt_irrefl j)]

theorem buffer_filled {p : Piece} {data : Bytes} (h : data.length = p.length) (j : Nat) :
    (p.filled data j).buffer = if j = p.blocksTotal then some data else none := by
  have hlength : (p.received data j).length = p.blocksTotal := by simp [received]
  unfold buffer filled
  simp only [hlength]
  by_cases hfull : j = p.blocksTotal
  · have hdata : (p.received data j).flatMap BlockState.data = data := by
      have hge : p.length ≤ p.blocksTotal * blockSize :=
        Bitfield.divCeil_mul_ge p.length blockSize_pos
      have hall := flatMap_blocks data p.length blockSize p.blocksTotal
      rw [Nat.min_eq_left hge, ← h, List.take_length, h] at hall
      unfold received
      rw [List.flatMap_map]
      refine Eq.trans (List.flatMap_congr fun k hk => ?_) hall
      rw [List.mem_range] at hk
      rw [if_pos (hfull ▸ hk)]
      rfl
    simp [hfull ▸ hdata, hfull]
  · simp [hfull]

theorem fold_filled {p : Piece} {data : Bytes} (sha1 : Sha1) (h : data.length = p.length) (j : Nat)
    (hj : j < p.blocksTotal) :
    (List.range j).foldl (fun q k => (q.receiveBlock sha1 k (p.slice data k)).2)
      (p.filled data 0) = p.filled data j := by
  induction j with
  | zero => rfl
  | succ j ih =>
    rw [List.range_succ, List.foldl_append, ih (by omega)]
    have hopen : (p.filled data (j + 1)).buffer = none := by
      rw [buffer_filled h, if_neg (by omega)]
    simp only [List.foldl_cons, List.foldl_nil]
    rcases receiveBlock_cases sha1 (p.filled data j) j (p.slice data j) with
      ⟨hno, -⟩ | ⟨-, -, hs⟩ | ⟨-, b, hb, -⟩ | ⟨-, b, hb, -⟩
    · exact absurd (accepts_filled h (by omega)) hno
    · rw [hs, store_filled]
    · rw [store_filled, hopen] at hb
      contradiction
    · rw [store_filled, hopen] at hb
      contradiction

theorem reset_filled (p : Piece) (data : Bytes) (j : Nat) :
    (p.filled data j).reset = p.filled data 0 := by
  unfold reset filled received
  simp [List.map_map, Function.comp_def]

theorem filled_zero (hash : PieceHash) (len : Nat) (data : Bytes) :
    (Piece.new hash len).filled data 0 = Piece.new hash len := by
  unfold filled received Piece.new
  simp [blocksTotal]

theorem unreceivedBlocks_new (hash : PieceHash) (len : Nat) :
    (Piece.new hash len).unreceivedBlocks = List.range (Piece.new hash len).blocksTotal := by
  simp only [unreceivedBlocks, Piece.new, List.length_replicate, blocksTotal]
  refine List.filter_eq_self.mpr fun k hk => ?_
  rw [List.mem_range] at hk
  simp [hk]

theorem fill_new (sha1 : Sha1) (hash : PieceHash) {data : Bytes} (hlen : 0 < data.length) :
    (Piece.new hash data.length).fill sha1 data =
      if sha1 data = hash then ⟨data.length, hash, .complete⟩
      else Piece.new hash data.length := by
  have hstart := filled_zero hash data.length data
  have hunreceived := unreceivedBlocks_new hash data.length
  obtain ⟨n, hn⟩ : ∃ n, (Piece.new hash data.length).blocksTotal = n + 1 :=
    Nat.exists_eq_succ_of_ne_zero (Bitfield.divCeil_pos hlen blockSize_pos).ne'
  have hdata : data.length = (Piece.new hash data.length).length := rfl
  have hcomplete : (⟨data.length, hash, .complete⟩ : Piece) =
      { Piece.new hash data.length with state := .complete } := rfl
  have hexpected : (Piece.new hash data.length).expectedHash = hash := rfl
  rw [hcomplete]
  generalize Piece.new hash data.length = p at *
  unfold fill
  rw [hunreceived, hn, List.range_succ, List.foldl_append]
  have hfold := fold_filled sha1 hdata n (by omega)
  rw [hstart] at hfold
  simp only [List.foldl_cons, List.foldl_nil]
  rw [hfold]
  have hfull : (p.filled data (n + 1)).buffer = some data := by
    rw [buffer_filled hdata, if_pos hn.symm]
  have hhash : (p.filled data n).expectedHash = hash := hexpected
  rcases receiveBlock_cases sha1 (p.filled data n) n (p.slice data n) with
    ⟨hno, -⟩ | ⟨-, hb, -⟩ | ⟨-, b, hb, hbad, hs⟩ | ⟨-, b, hb, hgood, hs⟩
  · exact absurd (accepts_filled hdata (by omega)) hno
  · rw [store_filled, hfull] at hb
    contradiction
  · rw [store_filled, hfull, Option.some.injEq] at hb
    rw [hhash, ← hb] at hbad
    rw [hs, store_filled, reset_filled, hstart, if_neg hbad]
  · rw [store_filled, hfull, Option.some.injEq] at hb
    rw [hhash, ← hb] at hgood
    rw [hs, if_pos hgood]
    rfl

end Piece

namespace Metainfo

open PieceManager

def ReachesLast (m : Metainfo) : Prop := (m.pieces.length - 1) * m.pieceLength < m.totalSize

theorem pieceLengthAt_full {m : Metainfo} {i : Nat} (hi : i + 1 < m.pieces.length) :
    pieceLengthAt m i = some m.pieceLength := by
  unfold pieceLengthAt
  rw [if_neg (by omega)]

theorem lengths_eq {m : Metainfo} {pm : PieceManager} (hm : Described m pm)
    (hn : 0 < m.pieces.length) {last : Nat}
    (hlast : pieceLengthAt m (m.pieces.length - 1) = some last) :
    pm.pieces.map Piece.length = List.replicate (m.pieces.length - 1) m.pieceLength ++ [last] := by
  refine List.ext_getElem? fun i => ?_
  rw [List.getElem?_map]
  cases hp : pm.pieces[i]? with
  | none =>
    rw [List.getElem?_eq_none_iff, hm.length] at hp
    rw [List.getElem?_eq_none]
    · rfl
    · simp
      omega
  | some p =>
    have hlen := (hm.piece i p hp).1
    have hi : i < m.pieces.length := hm.length ▸ (List.getElem?_eq_some_iff.mp hp).1
    by_cases hil : i + 1 < m.pieces.length
    · rw [pieceLengthAt_full hil, Option.some.injEq] at hlen
      rw [List.getElem?_append_left (by simp; omega), List.getElem?_replicate, if_pos (by omega)]
      simp [hlen]
    · have hieq : i = m.pieces.length - 1 := by omega
      rw [hieq, hlast, Option.some.injEq] at hlen
      rw [List.getElem?_append_right (by simp; omega), hieq]
      simp [hlen]

def Narrow (m : Metainfo) : Prop :=
  ∀ i len, i < m.pieces.length → pieceLengthAt m i = some len → 0 < len →
    i < 2 ^ 32 ∧ len ≤ 2 ^ 32

end Metainfo

end Tortue
