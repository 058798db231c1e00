import Tortue.Domain.Swarm.CheckedPieces
import Tortue.Domain.Swarm.Completion
import Tortue.Domain.Swarm.Progress

namespace Tortue

open Collections

namespace Piece

variable {p : Piece}

theorem length_filter_missing (blocks : List BlockState) :
    ((List.range blocks.length).filter fun i => blocks[i]? = some .missing).length =
      blocks.countP (· = .missing) := by
  induction blocks with
  | nil => rfl
  | cons b blocks ih =>
    rw [List.length_cons, List.range_succ_eq_map, List.filter_cons, List.filter_map,
      List.countP_cons, ← ih]
    cases b <;> simp [Function.comp_def]

theorem unreceived_add_received (h : p.Sound) :
    p.unreceivedBlocks.length + p.blocksReceived = p.blocksTotal := by
  cases hstate : p.state with
  | complete => simp [unreceivedBlocks, blocksReceived, hstate]
  | partialBlocks blocks received =>
    have hsplit := List.length_eq_countP_add_countP (fun b => decide (b = .missing)) (l := blocks)
    simp only [unreceivedBlocks, blocksReceived, hstate, length_filter_missing,
      h.count blocks received hstate, ← h.size blocks received hstate]
    simpa using hsplit.symm

end Piece

namespace PieceManager

variable {sha1 : Sha1} {m : Metainfo} {pm : PieceManager} {h : Deliveries}

theorem delivered_marked (hist : Delivered sha1 m h pm) : Marked m.pieces.length pm :=
  hist.invariant (fun _ => marked_new) fun _ d hm => marked_receiveBlock hm sha1 d.1 d.2

def Prompt (pm : PieceManager) : Prop := ∀ (i : Nat) (p : Piece), pm.pieces[i]? = some p →
  0 < p.blocksTotal → p.Unfilled

theorem delivered_prompt (hist : Delivered sha1 m h pm) : Prompt pm := by
  have hboth := hist.invariant (P := fun pm => Sound pm ∧ Prompt pm)
    (fun pm hn => by
      refine ⟨sound_new hn, fun i p hp hpos => ?_⟩
      obtain ⟨-, -, hspec⟩ := new_spec hn
      obtain ⟨hash, len, -, -, rfl⟩ := hspec i p hp
      exact ⟨hpos, fun _ => hpos⟩)
    fun pm d hb => ⟨sound_receiveBlock hb.1 sha1 d.1 d.2, fun i q hq hpos => by
      rcases piece_receiveBlock hq with hsame | ⟨k, p, hp, rfl⟩
      · exact hb.2 i q hsame hpos
      · have htotal : (p.receiveBlock sha1 k d.2).2.blocksTotal = p.blocksTotal := by
          rw [Piece.blocksTotal, (Piece.receiveBlock_length sha1 p k d.2).1]
          rfl
        exact Piece.unfilled_receiveBlock (hb.1.pieces i p hp) (hb.2 i p hp (htotal ▸ hpos)) sha1 k
          d.2⟩
  exact hboth.2

theorem unreceived_sum (hs : pm.Sound) :
    ((List.range pm.pieces.length).map fun i => (pm.unreceivedBlocks i).length).sum +
      pm.blocksReceived = pm.blocksTotal := by
  have hmap : ((List.range pm.pieces.length).map fun i => (pm.unreceivedBlocks i).length) =
      pm.pieces.map fun p => p.unreceivedBlocks.length := by
    refine List.ext_getElem? fun i => ?_
    rw [List.getElem?_map, List.getElem?_map]
    cases hp : pm.pieces[i]? with
    | none =>
      rw [List.getElem?_eq_none_iff] at hp
      rw [List.getElem?_eq_none (by simpa using hp)]
      rfl
    | some p =>
      rw [List.getElem?_range (List.getElem?_eq_some_iff.mp hp).1]
      simp [unreceivedBlocks, hp]
  rw [hmap, blocksReceived, blocksTotal, ← List.sum_map_add]
  refine congrArg List.sum (List.map_congr_left fun p hp => ?_)
  obtain ⟨i, hi⟩ := List.mem_iff_getElem?.mp hp
  exact Piece.unreceived_add_received (hs.pieces i p hi)

theorem receiveBlock_error (hs : pm.Sound) {range : BlockRange} {data : Bytes} {e : PieceError}
    (he : (pm.receiveBlock sha1 range data).1 = .error e) :
    (pm.receiveBlock sha1 range data).2 = pm := by
  rcases receiveBlock_cases hs sha1 range data with ⟨hsame, -⟩ | ⟨_, _, _, -, -, ⟨-, hres⟩ |
    ⟨_, -, -, hres⟩ | ⟨_, _, -, -, -, hres⟩⟩
  · exact hsame
  · rw [hres] at he
    contradiction
  · rw [hres] at he
    contradiction
  · rw [hres] at he
    contradiction

theorem partial_consistent (hs : pm.Sound) (hp : Prompt pm) {i : Nat} {p : Piece}
    {blocks : List BlockState} {received : Nat} (hi : pm.pieces[i]? = some p)
    (hstate : p.state = .partialBlocks blocks received) (hblocks : blocks ≠ []) :
    received = blocks.countP (· ≠ .missing) ∧ received < blocks.length ∧
      ∀ k data, blocks[k]? = some (.received data) → p.blockLength k = .ok data.length := by
  have hsound := hs.pieces i p hi
  have hsize := hsound.size blocks received hstate
  refine ⟨hsound.count blocks received hstate, ?_, fun k data hk => ?_⟩
  · have hpos : 0 < p.blocksTotal := hsize ▸ List.length_pos_iff.mpr hblocks
    have hlt := (hp i p hi hpos).missing (by rw [Piece.isComplete, hstate])
    rwa [Piece.blocksReceived, hstate, ← hsize] at hlt
  · have hin : ¬ k ≥ blocks.length := Nat.not_le_of_lt (List.getElem?_eq_some_iff.mp hk).1
    simp only [Piece.blockLength, hstate, hin, if_false, Except.ok.injEq]
    exact (hsound.lengths blocks received hstate k data hk).symm

theorem representation_invariant (hist : Delivered sha1 m h pm) :
    (∀ i, pm.bitfield.hasBit i = .ok true ↔ pm.CompleteAt i) ∧
      (∀ (i : Nat) (p : Piece) blocks received, pm.pieces[i]? = some p →
        p.state = .partialBlocks blocks received → blocks ≠ [] →
          received = blocks.countP (· ≠ .missing) ∧ received < blocks.length ∧
            ∀ k data, blocks[k]? = some (.received data) → p.blockLength k = .ok data.length) ∧
      (pm.blocksReceived ≤ pm.blocksTotal ∧ pm.blocksTotal - pm.blocksReceived =
        ((List.range pm.pieces.length).map fun i => (pm.unreceivedBlocks i).length).sum) ∧
      (∀ range data e, (pm.receiveBlock sha1 range data).1 = .error e →
        (pm.receiveBlock sha1 range data).2 = pm) ∧
      (∀ range data,
        pm.receiveBlock? sha1 range data = some (pm.receiveBlock sha1 range data)) ∧
      (∀ i, pm.unreceivedBlocks? i = some (pm.unreceivedBlocks i)) ∧
      ∀ (i : Nat) (p : Piece), pm.pieces[i]? = some p →
        p.buffer? = some p.buffer ∧ ∀ k, p.blockLength? k = some (p.blockLength k) := by
  have hm := delivered_marked hist
  have hs := hm.sound
  have hsum := unreceived_sum hs
  have hsize : pm.bitfield.data.length =
      Bitfield.divCeil pm.bitfield.pieces Bitfield.bitsPerByte := by
    rw [hm.size, hs.bits, hm.count]
    rfl
  refine ⟨fun i => ?_, fun i p blocks received => partial_consistent hs (delivered_prompt hist),
    ⟨by omega, by omega⟩, fun range data e => receiveBlock_error hs,
    receiveBlock?_eq hs hsize sha1, unreceivedBlocks?_eq hs, fun i p hp =>
      ⟨Piece.buffer?_eq (hs.pieces i p hp), Piece.blockLength?_eq (hs.pieces i p hp)⟩⟩
  rw [Bitfield.hasBit_iff, hm.marks i, hs.bits]
  exact ⟨And.right, fun hc => ⟨completeAt_lt hc, hc⟩⟩

theorem representation_delivered :
    (History.run (deliver Sample.sha1) Sample.swarm.pieces
        [(⟨0, 1, 2⟩, [7, 7]), (⟨0, 0, 2⟩, [7, 7])]).1.bitfield.hasBit 0 = .ok true ∧
      (History.run (deliver Sample.sha1) Sample.swarm.pieces
        [(⟨0, 1, 2⟩, [7, 7])]).1 = Sample.swarm.pieces := by
  have hfresh : Delivered Sample.sha1 Sample.metainfo [] Sample.swarm.pieces := .start rfl
  have hrun := hfresh.run_events [(⟨0, 1, 2⟩, [7, 7]), (⟨0, 0, 2⟩, [7, 7])]
  refine ⟨((representation_invariant hrun).1 0).mpr
    ⟨⟨2, Sample.octets 0, .complete⟩, by decide +kernel, rfl⟩, ?_⟩
  exact (representation_invariant hfresh).2.2.2.1 ⟨0, 1, 2⟩ [7, 7] (.unalignedBlockOffset 1)
    (by decide +kernel)

end PieceManager

end Tortue
