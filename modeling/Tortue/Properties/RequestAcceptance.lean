import Tortue.Properties.BlockOrder
import Tortue.Properties.RequestWidths

namespace Tortue

open Collections

namespace Piece

theorem receiveBlock_fitting {p : Piece} (h : Sound p) (sha1 : Sha1) {k : Nat} {data : Bytes}
    (hk : k < p.blocksTotal) (hlength : data.length = p.blockLengthAt k) :
    ∃ r, (p.receiveBlock sha1 k data).1 = .ok r := by
  obtain ⟨r, -, hresult⟩ := receive_gathering sha1 h hk hlength
  exact ⟨r.map List.flatten, (List.cons.inj hresult).1⟩

theorem lt_blocksTotal {p : Piece} (h : Sound p) {k : Nat} (hk : k ∈ p.unreceivedBlocks) :
    k < p.blocksTotal ∧ p.isComplete = false := by
  cases hstate : p.state with
  | complete => simp [unreceivedBlocks, hstate] at hk
  | partialBlocks blocks received =>
    rw [unreceivedBlocks, hstate] at hk
    have hlt := List.mem_range.mp (List.mem_filter.mp hk).1
    exact ⟨h.size blocks received hstate ▸ hlt, by rw [isComplete, hstate]⟩

end Piece

namespace PieceManager

variable {pm : PieceManager} {m : Metainfo}

structure Tiles (i len : Nat) (blocks : List BlockRange) : Prop where
  ranges : blocks = (List.range (Bitfield.divCeil len blockSize)).map fun k =>
    ⟨i, k * blockSize, min (len - k * blockSize) blockSize⟩
  lengths : ∀ b ∈ blocks, 1 ≤ b.len ∧ b.len ≤ blockSize
  total : (blocks.map BlockRange.len).sum = len

theorem tiles_blocks (i len : Nat) : Tiles i len
    ((List.range (Bitfield.divCeil len blockSize)).map fun k =>
      ⟨i, k * blockSize, min (len - k * blockSize) blockSize⟩) where
  ranges := rfl
  lengths b hb := by
    obtain ⟨k, hk, rfl⟩ := List.mem_map.mp hb
    have hlt := Bitfield.mul_lt_of_lt_divCeil blockSize_pos (List.mem_range.mp hk)
    have hpos := blockSize_pos
    simp only
    omega
  total := by
    rw [List.map_map]
    refine (sum_block_lengths len blockSize _).trans ?_
    exact Nat.min_eq_left (Bitfield.divCeil_mul_ge len blockSize_pos)

theorem unreceivedBlocks_fresh {hash : PieceHash} {i len : Nat}
    (hp : pm.pieces[i]? = some (.new hash len)) : pm.unreceivedBlocks i =
      (List.range (Bitfield.divCeil len blockSize)).map fun k =>
        ⟨i, k * blockSize, min (len - k * blockSize) blockSize⟩ := by
  rw [Swarm.unreceivedBlocks_eq hp (Piece.sound_new hash len), Piece.unreceivedBlocks_new]
  rfl

theorem tiles_fresh (hnew : PieceManager.new m = some pm) {i : Nat} {p : Piece}
    (hp : pm.pieces[i]? = some p) : pieceLengthAt m i = some p.length ∧
      Tiles i p.length (pm.unreceivedBlocks i) := by
  obtain ⟨-, -, hspec⟩ := new_spec hnew
  obtain ⟨hash, len, -, hlen, rfl⟩ := hspec i p hp
  refine ⟨hlen, ?_⟩
  rw [unreceivedBlocks_fresh hp]
  exact tiles_blocks i len

theorem unreceived_fresh {pm' : PieceManager} (hnew : PieceManager.new m = some pm)
    (hs : Sound pm') (hm : Described m pm') {b : BlockRange}
    (hb : b ∈ pm'.unreceivedBlocks b.pieceIndex) :
    b ∈ pm.unreceivedBlocks b.pieceIndex ∧ ¬ pm'.CompleteAt b.pieceIndex ∧
      ∃ len k, pieceLengthAt m b.pieceIndex = some len ∧ k < Bitfield.divCeil len blockSize ∧
        b = ⟨b.pieceIndex, k * blockSize, min (len - k * blockSize) blockSize⟩ := by
  cases hp : pm'.pieces[b.pieceIndex]? with
  | none => simp [unreceivedBlocks, hp] at hb
  | some p =>
    have hi : b.pieceIndex < m.pieces.length := hm.length ▸ (List.getElem?_eq_some_iff.mp hp).1
    obtain ⟨hlen, -⟩ := hm.piece _ p hp
    obtain ⟨hash, hfresh⟩ := Swarm.new_piece hnew hi hlen
    have hsound := hs.pieces _ p hp
    rw [Swarm.unreceivedBlocks_eq hp hsound] at hb
    obtain ⟨k, hk, heq⟩ := List.mem_map.mp hb
    obtain ⟨hlt, hopen⟩ := Piece.lt_blocksTotal hsound hk
    refine ⟨?_, ?_, p.length, k, hlen, hlt, heq.symm⟩
    · rw [unreceivedBlocks_fresh hfresh]
      exact List.mem_map.mpr ⟨k, List.mem_range.mpr hlt, heq⟩
    · rintro ⟨q, hq, hcomplete⟩
      rw [hp, Option.some.injEq] at hq
      rw [← hq, hopen] at hcomplete
      contradiction

theorem receiveBlock_fitting (hs : Sound pm) (hm : Described m pm) (sha1 : Sha1) {i k len : Nat}
    {data : Bytes} (hlen : pieceLengthAt m i = some len) (hi : i < m.pieces.length)
    (hk : k < Bitfield.divCeil len blockSize)
    (hdata : data.length = min (len - k * blockSize) blockSize) :
    ∃ c, (pm.receiveBlock sha1 ⟨i, k * blockSize, data.length⟩ data).1 = .ok c := by
  have hget := List.getElem?_eq_getElem (hm.length ▸ hi : i < pm.pieces.length)
  obtain ⟨hsame, -⟩ := hm.piece i _ hget
  rw [hlen, Option.some.injEq] at hsame
  subst hsame
  obtain ⟨r, hr⟩ := Piece.receiveBlock_fitting (hs.pieces i _ hget) sha1 hk hdata
  have hdelivers : Delivers pm ⟨i, k * blockSize, data.length⟩ data i k _ := ⟨rfl, hget⟩
  rw [hdelivers.receiveBlock, hr]
  cases r with
  | none => exact ⟨none, rfl⟩
  | some b =>
    obtain ⟨bf, hbf⟩ := (Bitfield.setBit_ok_iff pm.bitfield i).mpr
      (by rw [hs.bits, hm.length]; exact hi)
    exact ⟨_, by simp only [hbf]; rfl⟩

end PieceManager

namespace Swarm

open PieceManager

theorem requested_is_accepted (sha1 : Sha1) {m : Metainfo} {pm : PieceManager}
    (hnew : PieceManager.new m = some pm) :
    (∀ i p, pm.pieces[i]? = some p →
      pieceLengthAt m i = some p.length ∧ Tiles i p.length (pm.unreceivedBlocks i)) ∧
    ∀ clientId h s, History (step sha1) (Started clientId m) h s → ∀ e ∈ h, ∀ x range,
      .sendToPeer x (.request range) ∈ e.outputs →
        range ∈ pm.unreceivedBlocks range.pieceIndex ∧
        ¬ (step sha1 e.before e.input).1.pieces.CompleteAt range.pieceIndex ∧
        ∀ data : Bytes, data.length = range.len →
          ∃ c, (s.pieces.receiveBlock sha1 range data).1 = .ok c := by
  refine ⟨fun i p => tiles_fresh hnew, fun clientId h s hist e he x range hout => ?_⟩
  obtain ⟨newer, older, hh⟩ := List.mem_iff_append.mp he
  obtain ⟨hbefore, heq⟩ := hist.event_before hh
  rw [heq] at hout
  have hafter := hbefore.next e.input
  obtain ⟨hfresh, hopen, len, k, hlen, hk, hrange⟩ := unreceived_fresh hnew
    (history_sound hafter) (history_described hafter) (requested_unreceived hout)
  refine ⟨hfresh, hopen, fun data hdata => ?_⟩
  have hi : range.pieceIndex < m.pieces.length := by
    by_contra hge
    have hnone : pm.pieces[range.pieceIndex]? = none :=
      List.getElem?_eq_none ((new_spec hnew).1 ▸ Nat.not_lt.mp hge)
    simp [PieceManager.unreceivedBlocks, hnone] at hfresh
  have hlength : data.length = min (len - k * blockSize) blockSize := by rw [hdata, hrange]
  obtain ⟨c, hc⟩ := receiveBlock_fitting (history_sound hist) (history_described hist) sha1 hlen hi
    hk hlength
  rw [hlength] at hc
  exact ⟨c, hrange ▸ hc⟩

theorem sample_request_accepted : ∃ h, History (step Sample.sha1)
      (Started (Sample.peerId 1) Sample.pairMetainfo) h Sample.pairRequested ∧
    ∃ e ∈ h, .sendToPeer (Sample.addr 80) (.request ⟨0, 16384, 16384⟩) ∈ e.outputs ∧
      ∀ data : Bytes, data.length = 16384 → ∃ c,
        (Sample.pairRequested.pieces.receiveBlock Sample.sha1 ⟨0, 16384, 16384⟩ data).1 =
          .ok c := by
  have hnew : PieceManager.new Sample.pairMetainfo = some Sample.pair.pieces := rfl
  have hist := Sample.run_history Sample.pair_started Sample.pairRequesting
  have hsent : (History.events (step Sample.sha1) Sample.pair Sample.pairRequesting).any (fun e =>
      decide (.sendToPeer (Sample.addr 80) (.request ⟨0, 16384, 16384⟩) ∈ e.outputs)) = true := by
    decide +kernel
  obtain ⟨e, he, hout⟩ := List.any_eq_true.mp hsent
  exact ⟨_, hist, e, he, of_decide_eq_true hout,
    ((requested_is_accepted Sample.sha1 hnew).2 _ _ _ hist e he _ _ (of_decide_eq_true hout)).2.2⟩

end Swarm

end Tortue
