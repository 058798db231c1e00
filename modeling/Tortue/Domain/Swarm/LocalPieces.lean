import Tortue.Domain.Swarm.Completion
import Tortue.Domain.Swarm.Geometry
import Mathlib.Data.List.TakeWhile

namespace Tortue

open Collections

namespace Piece

structure Matches (sha1 : Sha1) (content : Bytes) (p : Piece) : Prop where
  length : content.length = p.length
  blocks : ∀ k b, p.block k = some b → b = p.slice content k
  complete : p.isComplete = true → sha1 content = p.expectedHash

variable {sha1 : Sha1} {content : Bytes} {p : Piece}

theorem block_new (hash : PieceHash) (len k : Nat) : (Piece.new hash len).block k = none := by
  simp only [block, Piece.new, List.getElem?_replicate]
  split
  · next heq => split at heq <;> simp at heq
  · rfl

theorem matches_new {hash : PieceHash} : Matches sha1 content (.new hash content.length) where
  length := rfl
  blocks k b h := by
    rw [block_new] at h
    contradiction
  complete h := by contradiction

@[simp] theorem slice_store (k j : Nat) (data : Bytes) :
    (p.store k data).slice content j = p.slice content j := by
  unfold slice blockLengthAt
  rw [store_length]

theorem buffer_matches (hs : p.Sound) (hlen : content.length = p.length)
    (hblocks : ∀ k b, p.block k = some b → b = p.slice content k) {bytes : Bytes}
    (hb : p.buffer = some bytes) : bytes = content := by
  obtain ⟨blocks, hflat, hcount, hblock, -⟩ := buffer_eq hs hb
  have hslices : blocks = (List.range p.blocksTotal).map (p.slice content) := by
    refine List.ext_getElem? fun k => ?_
    rw [List.getElem?_map]
    cases hk : blocks[k]? with
    | none =>
      rw [List.getElem?_eq_none_iff, hcount] at hk
      rw [List.getElem?_eq_none (by simpa using hk)]
      rfl
    | some b =>
      have hlt : k < p.blocksTotal := hcount ▸ (List.getElem?_eq_some_iff.mp hk).1
      rw [List.getElem?_range hlt, Option.map_some, ← hblocks k b (hblock k b hk)]
  have hge : p.length ≤ p.blocksTotal * blockSize :=
    Bitfield.divCeil_mul_ge p.length blockSize_pos
  have hall := flatMap_blocks content p.length blockSize p.blocksTotal
  rw [Nat.min_eq_left hge, ← hlen, List.take_length, hlen] at hall
  rw [hflat, hslices, ← List.flatMap_def]
  exact hall

theorem matches_receiveBlock (hs : p.Sound) (h : Matches sha1 content p) {k : Nat} {data : Bytes}
    (hdata : data = (content.drop (k * blockSize)).take data.length) :
    Matches sha1 content (p.receiveBlock sha1 k data).2 := by
  have hstored : p.Accepts k data → ∀ j b, (p.store k data).block j = some b →
      b = p.slice content j := by
    intro ha j b hb
    rw [block_store ha] at hb
    split at hb
    · next heq =>
      subst heq
      obtain ⟨_, _, -, -, hlen⟩ := ha
      rw [Option.some.injEq] at hb
      rw [hlen] at hdata
      exact hb ▸ hdata
    · exact h.blocks j b hb
  rcases receiveBlock_cases sha1 p k data with
    ⟨-, hres, -⟩ | ⟨ha, hbuf, hres⟩ | ⟨ha, b, -, -, hres⟩ | ⟨ha, b, hbuf, hhash, hres⟩ <;> rw [hres]
  · exact h
  · refine ⟨by rw [store_length, h.length], fun j b hb => ?_, fun hc => ?_⟩
    · rw [slice_store]
      exact hstored ha j b hb
    · obtain ⟨blocks, received, hstate, -, -⟩ := ha
      simp [store, hstate, isComplete] at hc
  · refine ⟨by rw [reset_length, store_length, h.length], fun j b hb => ?_, fun hc => ?_⟩
    · rw [block_reset] at hb
      contradiction
    · obtain ⟨blocks, received, hstate, -, -⟩ := ha
      simp [store, reset, hstate, isComplete] at hc
  · refine ⟨h.length, fun j b hb => ?_, fun _ => ?_⟩
    · rw [block_complete] at hb
      contradiction
    · have hb : b = content := buffer_matches (sound_store hs ha)
        (by rw [store_length, h.length]) (fun j b hb => by
          rw [slice_store]
          exact hstored ha j b hb) hbuf
      rw [← hhash, hb]

end Piece

namespace PieceManager

def Matches (sha1 : Sha1) (content : Nat → Bytes) (pm : PieceManager) : Prop :=
  ∀ (i : Nat) (p : Piece), pm.pieces[i]? = some p → p.Matches sha1 (content i)

variable {sha1 : Sha1} {content : Nat → Bytes} {pm : PieceManager}

theorem matches_new {m : Metainfo} (h : PieceManager.new m = some pm)
    (hlen : ∀ i len, i < m.pieces.length → pieceLengthAt m i = some len →
      (content i).length = len) : Matches sha1 content pm := by
  obtain ⟨hlength, -, hspec⟩ := new_spec h
  intro i p hp
  have hi := (List.getElem?_eq_some_iff.mp hp).1
  obtain ⟨hash, len, -, hl, rfl⟩ := hspec i p hp
  rw [← hlen i len (hlength ▸ hi) hl]
  exact Piece.matches_new

theorem matches_receiveBlock (hs : Sound pm) (h : Matches sha1 content pm) {range : BlockRange}
    {data : Bytes}
    (hdata : data = ((content range.pieceIndex).drop range.pieceOffset).take data.length) :
    Matches sha1 content (pm.receiveBlock sha1 range data).2 := by
  by_cases hd : ∃ i k p, Delivers pm range data i k p
  · obtain ⟨i, k, p, hd⟩ := hd
    rw [hd.range_eq] at hdata
    have hp : (p.receiveBlock sha1 k data).2.Matches sha1 (content i) :=
      Piece.matches_receiveBlock (hs.pieces i p hd.piece) (h i p hd.piece) hdata
    have hset : ∀ bf, Matches sha1 content
        ⟨pm.pieces.set i (p.receiveBlock sha1 k data).2, bf⟩ := by
      intro bf j q hq
      rw [getElem?_set_piece hd.piece] at hq
      split at hq
      · next heq =>
        rw [Option.some.injEq] at hq
        rw [heq, ← hq]
        exact hp
      · exact h j q hq
    rw [hd.receiveBlock]
    split
    · exact hset _
    · exact hset _
    · split
      · exact hset _
      · exact hset _
  · rw [(not_delivered sha1 hd).1]
    exact h

end PieceManager

namespace Swarm

open PieceManager

theorem localBlocks_index {pm : PieceManager} {i : Nat} {data : Bytes} {range : BlockRange}
    (h : range ∈ localBlocks pm i data) : range.pieceIndex = i := by
  have hin : range ∈ pm.unreceivedBlocks i := (List.takeWhile_sublist _).subset h
  unfold unreceivedBlocks at hin
  split at hin
  · contradiction
  · obtain ⟨k, -, rfl⟩ := List.mem_map.mp hin
    rfl

theorem onLocalPiece_matches {sha1 : Sha1} {content : Nat → Bytes} {s : Swarm}
    (hs : s.pieces.Sound) (h : s.pieces.Matches sha1 content) (i : Nat) :
    (s.onLocalPiece sha1 i (content i)).1.pieces.Matches sha1 content := by
  have hindex : ∀ range ∈ localBlocks s.pieces i (content i), range.pieceIndex = i :=
    fun range hr => localBlocks_index hr
  simp only [onLocalPiece]
  generalize localBlocks s.pieces i (content i) = ranges at hindex ⊢
  generalize s.pieces = pm at hs h ⊢
  induction ranges generalizing pm with
  | nil => exact h
  | cons range ranges ih =>
    have hi := hindex range (List.mem_cons_self ..)
    have hnext : (receiveLocalBlock sha1 (content i) pm range).Matches sha1 content := by
      refine matches_receiveBlock hs h ?_
      rw [hi, List.length_take, ← List.take_eq_take_min]
    exact ih (fun r hr => hindex r (List.mem_cons_of_mem _ hr)) _
      (sound_receiveBlock hs sha1 range _) hnext

theorem fold_receiveLocalBlock {sha1 : Sha1} {pm : PieceManager} {i : Nat} {p q : Piece}
    {data : Bytes} (hq : pm.pieces[i]? = some q) {ks : List Nat}
    (hfits : ∀ k ∈ ks, k * blockSize + p.blockLengthAt k ≤ data.length) :
    ((ks.map fun k => (⟨i, k * blockSize, p.blockLengthAt k⟩ : BlockRange)).foldl
        (receiveLocalBlock sha1 data) pm).pieces =
      pm.pieces.set i (ks.foldl (fun q k => (q.receiveBlock sha1 k (p.slice data k)).2) q) := by
  induction ks generalizing pm q with
  | nil => exact (set_self hq).symm
  | cons k ks ih =>
    have hd : Delivers pm ⟨i, k * blockSize, p.blockLengthAt k⟩ (p.slice data k) i k q :=
      ⟨by rw [Piece.length_slice_of_fits (hfits k (List.mem_cons_self ..))], hq⟩
    have hpieces : (pm.receiveBlock sha1 ⟨i, k * blockSize, p.blockLengthAt k⟩
        (p.slice data k)).2.pieces = pm.pieces.set i (q.receiveBlock sha1 k (p.slice data k)).2 :=
      hd.pieces
    rw [List.map_cons, List.foldl_cons, List.foldl_cons]
    have hnext : (receiveLocalBlock sha1 data pm
        ⟨i, k * blockSize, p.blockLengthAt k⟩).pieces[i]? =
          some (q.receiveBlock sha1 k (p.slice data k)).2 := by
      rw [receiveLocalBlock, ← Piece.slice, hpieces, getElem?_set_piece hq, if_pos rfl]
    rw [ih hnext fun j hj => hfits j (List.mem_cons_of_mem _ hj), receiveLocalBlock,
      ← Piece.slice, hpieces, List.set_set]

theorem unreceived_start {p : Piece} (hs : p.Sound) {k : Nat} (hk : k ∈ p.unreceivedBlocks) :
    k * blockSize < p.length ∧ (p.blockLength k).toOption.getD 0 = p.blockLengthAt k := by
  unfold Piece.unreceivedBlocks at hk
  cases hstate : p.state with
  | complete => simp [hstate] at hk
  | partialBlocks blocks received =>
    simp only [hstate, List.mem_filter, List.mem_range] at hk
    have hlt := hs.size blocks received hstate ▸ hk.1
    refine ⟨Bitfield.mul_lt_of_lt_divCeil blockSize_pos hlt, ?_⟩
    simp only [Piece.blockLength, hstate, if_neg (Nat.not_le_of_lt hk.1)]
    rfl

theorem unreceivedBlocks_eq {pm : PieceManager} {i : Nat} {p : Piece}
    (hp : pm.pieces[i]? = some p) (hs : p.Sound) :
    pm.unreceivedBlocks i = p.unreceivedBlocks.map fun k =>
      (⟨i, k * blockSize, p.blockLengthAt k⟩ : BlockRange) := by
  simp only [unreceivedBlocks, hp]
  refine List.map_congr_left fun k hk => ?_
  rw [(unreceived_start hs hk).2]

theorem onLocalPiece_pieces {sha1 : Sha1} {s : Swarm} {i : Nat} {p : Piece} {data : Bytes}
    (hp : s.pieces.pieces[i]? = some p) (hs : p.Sound) (hdata : data.length = p.length) :
    (s.onLocalPiece sha1 i data).1.pieces.pieces =
      s.pieces.pieces.set i (p.fill sha1 data) := by
  have hfits : ∀ k ∈ p.unreceivedBlocks, k * blockSize + p.blockLengthAt k ≤ data.length := by
    intro k hk
    have hstart := (unreceived_start hs hk).1
    unfold Piece.blockLengthAt
    omega
  have hall : localBlocks s.pieces i data = p.unreceivedBlocks.map fun k =>
      (⟨i, k * blockSize, p.blockLengthAt k⟩ : BlockRange) := by
    unfold localBlocks
    rw [unreceivedBlocks_eq hp hs, List.takeWhile_eq_self_iff]
    intro range hrange
    obtain ⟨k, hk, rfl⟩ := List.mem_map.mp hrange
    exact decide_eq_true (hfits k hk)
  simp only [onLocalPiece]
  rw [hall, fold_receiveLocalBlock hp hfits]
  rfl

theorem block_within {k n : Nat} (h : k < n) : k * blockSize + blockSize ≤ n * blockSize := by
  rw [← Nat.succ_mul]
  exact Nat.mul_le_mul_right _ h

theorem slice_take {p : Piece} {content : Bytes} {k n : Nat} (h : k < n) :
    p.slice (content.take (n * blockSize)) k = p.slice content k := by
  have hend := block_within h
  unfold Piece.slice
  rw [List.drop_take, List.take_take, Piece.blockLengthAt]
  congr 1
  omega

theorem localBlocks_take {pm : PieceManager} {i n : Nat} {hash : PieceHash} {length : Nat}
    {data : Bytes} (hp : pm.pieces[i]? = some (.new hash length))
    (hn : (Piece.new hash length).blocksTotal = n + 1) (hlength : data.length = n * blockSize) :
    localBlocks pm i data = (List.range n).map fun k =>
      (⟨i, k * blockSize, (Piece.new hash length).blockLengthAt k⟩ : BlockRange) := by
  have hlt : n < (Piece.new hash length).blocksTotal := by omega
  have hend : n * blockSize < length := Bitfield.mul_lt_of_lt_divCeil blockSize_pos hlt
  have hlast : n * blockSize < n * blockSize + (Piece.new hash length).blockLengthAt n := by
    have hrest : (Piece.new hash length).blockLengthAt n =
        min (length - n * blockSize) blockSize := rfl
    have hpos := blockSize_pos
    omega
  unfold localBlocks
  rw [unreceivedBlocks_eq hp (Piece.sound_new ..), Piece.unreceivedBlocks_new, hn,
    List.range_succ, List.map_append, List.takeWhile_append_of_pos]
  · rw [List.map_singleton, List.takeWhile_cons_of_neg, List.append_nil]
    rw [decide_eq_true_eq, hlength]
    exact Nat.not_le_of_lt hlast
  · intro range hrange
    obtain ⟨k, hk, rfl⟩ := List.mem_map.mp hrange
    have hk := block_within (List.mem_range.mp hk)
    have hsize : (Piece.new hash length).blockLengthAt k ≤ blockSize := Nat.min_le_right ..
    have hfits : k * blockSize + (Piece.new hash length).blockLengthAt k ≤ data.length := by omega
    exact decide_eq_true hfits

theorem onLocalPiece_take {sha1 : Sha1} {s : Swarm} {i n : Nat} {hash : PieceHash}
    {content : Bytes} (hp : s.pieces.pieces[i]? = some (.new hash content.length))
    (hn : (Piece.new hash content.length).blocksTotal = n + 1) :
    (s.onLocalPiece sha1 i (content.take (n * blockSize))).1.pieces.pieces =
      s.pieces.pieces.set i ((Piece.new hash content.length).filled content n) := by
  have hlt : n < (Piece.new hash content.length).blocksTotal := by omega
  have hend : n * blockSize < content.length := Bitfield.mul_lt_of_lt_divCeil blockSize_pos hlt
  have hlength : (content.take (n * blockSize)).length = n * blockSize := by
    rw [List.length_take]
    omega
  have hsome := localBlocks_take hp hn hlength
  obtain ⟨p, hnew⟩ : ∃ p, p = Piece.new hash content.length := ⟨_, rfl⟩
  have hplen : p.length = content.length := by
    rw [hnew]
    rfl
  have hfits : ∀ k ∈ List.range n,
      k * blockSize + p.blockLengthAt k ≤ (content.take (n * blockSize)).length := by
    intro k hk
    have hk := block_within (List.mem_range.mp hk)
    rw [hlength, Piece.blockLengthAt]
    omega
  have hfold := Piece.fold_filled sha1 hplen.symm n (hnew ▸ hlt)
  rw [hnew, Piece.filled_zero, ← hnew] at hfold
  rw [← hnew] at hp hsome ⊢
  simp only [onLocalPiece]
  rw [hsome, fold_receiveLocalBlock hp hfits, ← hfold]
  congr 1
  refine List.foldl_ext _ _ _ fun q k hk => ?_
  rw [slice_take (List.mem_range.mp hk)]

end Swarm

end Tortue
