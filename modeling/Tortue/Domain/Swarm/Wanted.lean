import Tortue.Domain.Swarm.LocalPieces
import Tortue.Domain.Swarm.Progress
import Tortue.Domain.Swarm.Passes

namespace Tortue

open Collections

namespace Piece

def Lacks (p : Piece) (k : Nat) : Prop :=
  ∃ blocks received, p.state = .partialBlocks blocks received ∧ blocks[k]? = some .missing

variable {p : Piece} {k j : Nat} {data : Bytes}

theorem mem_unreceivedBlocks : k ∈ p.unreceivedBlocks ↔ p.Lacks k := by
  unfold unreceivedBlocks Lacks
  split
  · next blocks received hstate =>
    simp only [List.mem_filter, List.mem_range, decide_eq_true_eq]
    constructor
    · rintro ⟨-, hk⟩
      exact ⟨blocks, received, hstate, hk⟩
    · rintro ⟨blocks', received', heq, hk⟩
      rw [hstate, PieceState.partialBlocks.injEq] at heq
      obtain ⟨rfl, -⟩ := heq
      exact ⟨(List.getElem?_eq_some_iff.mp hk).1, hk⟩
  · next hstate => simp [hstate]

theorem Lacks.incomplete (h : p.Lacks k) : p.isComplete = false := by
  obtain ⟨blocks, received, hstate, -⟩ := h
  unfold isComplete
  rw [hstate]

theorem accepts_iff : p.Accepts k data ↔ p.Lacks k ∧ data.length = p.blockLengthAt k := by
  unfold Accepts Lacks
  constructor
  · rintro ⟨blocks, received, hstate, hk, hlen⟩
    exact ⟨⟨blocks, received, hstate, hk⟩, hlen⟩
  · rintro ⟨⟨blocks, received, hstate, hk⟩, hlen⟩
    exact ⟨blocks, received, hstate, hk, hlen⟩

theorem lacks_store (h : p.Lacks k) : (p.store k data).Lacks j ↔ p.Lacks j ∧ j ≠ k := by
  obtain ⟨blocks, received, hstate, hk⟩ := h
  have hlt := (List.getElem?_eq_some_iff.mp hk).1
  unfold Lacks store
  simp only [hstate, PieceState.partialBlocks.injEq]
  constructor
  · rintro ⟨_, _, ⟨rfl, rfl⟩, hj⟩
    by_cases hjk : j = k
    · subst hjk
      rw [List.getElem?_set_self hlt] at hj
      simp at hj
    · rw [List.getElem?_set_ne (Ne.symm hjk)] at hj
      exact ⟨⟨_, _, ⟨rfl, rfl⟩, hj⟩, hjk⟩
  · rintro ⟨⟨_, _, ⟨rfl, rfl⟩, hj⟩, hjk⟩
    exact ⟨_, _, ⟨rfl, rfl⟩, (List.getElem?_set_ne (Ne.symm hjk)).trans hj⟩

theorem store_incomplete (h : p.Lacks k) : (p.store k data).isComplete = false := by
  obtain ⟨blocks, received, hstate, -⟩ := h
  simp only [store, hstate, isComplete]

theorem Unfilled.lacks (h : p.Unfilled) (hs : p.Sound) (hopen : p.isComplete = false) :
    ∃ k, p.Lacks k := by
  cases hstate : p.state with
  | complete => simp [isComplete, hstate] at hopen
  | partialBlocks blocks received =>
    by_contra hnone
    have hall : blocks.countP (· ≠ .missing) = blocks.length := by
      refine List.countP_eq_length.mpr fun b hb => ?_
      obtain ⟨k, hk⟩ := List.mem_iff_getElem?.mp hb
      refine decide_eq_true fun hmissing => hnone ⟨k, blocks, received, hstate, hmissing ▸ hk⟩
    have hmissing := h.missing hopen
    unfold blocksReceived at hmissing
    simp only [hstate] at hmissing
    rw [hs.count blocks received hstate, hall, hs.size blocks received hstate] at hmissing
    exact Nat.lt_irrefl _ hmissing

end Piece

structure Metainfo.Block (m : Metainfo) (b : BlockRange) : Prop where
  index : b.pieceIndex < m.pieces.length
  pos : 0 < b.len
  size : b.len ≤ blockSize
  within : ∃ len, PieceManager.pieceLengthAt m b.pieceIndex = some len ∧
    b.pieceOffset + b.len ≤ len

namespace PieceManager

variable {sha1 : Sha1} {m : Metainfo} {pm : PieceManager} {b range : BlockRange} {data : Bytes}

def Wants (pm : PieceManager) (b : BlockRange) : Prop :=
  ∃ p k, pm.pieces[b.pieceIndex]? = some p ∧ p.Lacks k ∧
    b = ⟨b.pieceIndex, k * blockSize, p.blockLengthAt k⟩

def missing (pm : PieceManager) : Nat := pm.pieces.countP fun p => !p.isComplete

theorem wants_iff (hs : pm.Sound) :
    pm.Wants b ↔ ∃ i ∈ pm.neededPieces, b ∈ pm.unreceivedBlocks i := by
  constructor
  · rintro ⟨p, k, hp, hlacks, hb⟩
    refine ⟨b.pieceIndex, ?_, ?_⟩
    · unfold neededPieces
      rw [List.mem_filter, List.mem_range, hp]
      exact ⟨(List.getElem?_eq_some_iff.mp hp).1, by simp [hlacks.incomplete]⟩
    · rw [Swarm.unreceivedBlocks_eq hp (hs.pieces _ p hp), List.mem_map]
      exact ⟨k, Piece.mem_unreceivedBlocks.mpr hlacks, hb.symm⟩
  · rintro ⟨i, -, hin⟩
    obtain rfl := Swarm.mem_unreceivedBlocks_index hin
    cases hp : pm.pieces[b.pieceIndex]? with
    | none =>
      unfold unreceivedBlocks at hin
      rw [hp] at hin
      contradiction
    | some p =>
      rw [Swarm.unreceivedBlocks_eq hp (hs.pieces _ p hp), List.mem_map] at hin
      obtain ⟨k, hk, hb⟩ := hin
      exact ⟨p, k, hp, Piece.mem_unreceivedBlocks.mp hk, hb.symm⟩

theorem wants_block (hs : pm.Sound) (hm : Described m pm) (h : pm.Wants b) : m.Block b := by
  obtain ⟨p, k, hp, hlacks, hb⟩ := h
  obtain ⟨hlen, -⟩ := hm.piece _ p hp
  have hstart :=
    (Swarm.unreceived_start (hs.pieces _ p hp) (Piece.mem_unreceivedBlocks.mpr hlacks)).1
  have hoffset : b.pieceOffset = k * blockSize := congrArg BlockRange.pieceOffset hb
  have hblock : b.len = min (p.length - k * blockSize) blockSize := congrArg BlockRange.len hb
  have hsize := blockSize_pos
  refine ⟨hm.length ▸ (List.getElem?_eq_some_iff.mp hp).1, ?_, ?_, p.length, hlen, ?_⟩
  · omega
  · rw [hblock]
    exact Nat.min_le_right ..
  · omega

theorem exists_wanted (hs : pm.Sound) (hunder : pm.Underway) (h : pm.isComplete = false) :
    ∃ b, pm.Wants b := by
  unfold isComplete at h
  obtain ⟨p, hp, hopen⟩ := List.all_eq_false.mp h
  obtain ⟨i, hi⟩ := List.mem_iff_getElem?.mp hp
  obtain ⟨k, hk⟩ := (hunder i p hi).lacks (hs.pieces i p hi) (Bool.eq_false_iff.mpr hopen)
  exact ⟨⟨i, k * blockSize, p.blockLengthAt k⟩, p, k, hi, hk, rfl⟩

theorem missing_set {i : Nat} {p q : Piece} (hp : pm.pieces[i]? = some p)
    (hopen : p.isComplete = false) :
    (pm.pieces.set i q).countP (fun p => !p.isComplete) + (if q.isComplete then 1 else 0) =
      pm.missing := by
  obtain ⟨hlt, hget⟩ := List.getElem?_eq_some_iff.mp hp
  have hpos : 0 < pm.missing := by
    unfold missing
    exact List.countP_pos_iff.mpr ⟨p, List.mem_of_getElem? hp, by rw [hopen]; rfl⟩
  unfold missing at hpos ⊢
  rw [List.countP_set hlt, hget, hopen]
  cases q.isComplete
  · simp only [Bool.not_false, if_true, Bool.false_eq_true, if_false]
    omega
  · simp only [Bool.not_false, Bool.not_true, if_true, Bool.false_eq_true, if_false]
    omega

theorem wants_set {bf : Bitfield} {i k len : Nat} {p q : Piece} (hp : pm.pieces[i]? = some p)
    (hlength : q.length = p.length) (hlacks : ∀ j, q.Lacks j → p.Lacks j ∧ j ≠ k)
    (h : Wants ⟨pm.pieces.set i q, bf⟩ b) : pm.Wants b ∧ b ≠ ⟨i, k * blockSize, len⟩ := by
  obtain ⟨p', j, hp', hj, hb⟩ := h
  rw [getElem?_set_piece hp] at hp'
  split_ifs at hp' with hi
  · rw [Option.some.injEq] at hp'
    subst hp'
    obtain ⟨hold, hne⟩ := hlacks j hj
    refine ⟨⟨p, j, hi ▸ hp, hold, ?_⟩, fun heq => ?_⟩
    · unfold Piece.blockLengthAt at hb ⊢
      rw [← hlength]
      exact hb
    · rw [heq, BlockRange.mk.injEq] at hb
      exact hne (Nat.eq_of_mul_eq_mul_right blockSize_pos hb.2.1.symm)
  · refine ⟨⟨p', j, hp', hj, hb⟩, fun heq => hi ?_⟩
    rw [heq]

theorem accepts_wanted (hlen : data.length = range.len) (h : pm.Wants range) :
    ∃ k p, Delivers pm range data range.pieceIndex k p ∧ p.Accepts k data := by
  obtain ⟨p, k, hp, hlacks, hrange⟩ := h
  have hfit : range.len = p.blockLengthAt k := congrArg BlockRange.len hrange
  refine ⟨k, p, ⟨?_, hp⟩, Piece.accepts_iff.mpr ⟨hlacks, hlen.trans hfit⟩⟩
  rw [hlen, hfit]
  exact hrange

structure Filled (sha1 : Sha1) (content : Nat → Bytes) (pm : PieceManager) (range : BlockRange)
    (data : Bytes) : Prop where
  wants : ∀ b, (pm.receiveBlock sha1 range data).2.Wants b → pm.Wants b ∧ b ≠ range
  outcome : ((∀ c, (pm.receiveBlock sha1 range data).1 ≠ .ok (some c)) ∧
      (pm.receiveBlock sha1 range data).2.missing = pm.missing) ∨
    ((pm.receiveBlock sha1 range data).1 = .ok (some ⟨⟨range.pieceIndex, 0,
        (content range.pieceIndex).length⟩, content range.pieceIndex⟩) ∧
      (pm.receiveBlock sha1 range data).2.missing + 1 = pm.missing ∧
      range.pieceIndex < pm.pieces.length ∧ ¬ pm.CompleteAt range.pieceIndex)

theorem buffer_content {content : Bytes} {p : Piece} {k : Nat} {bytes : Bytes} (hs : p.Sound)
    (h : p.Matches sha1 content) (ha : p.Accepts k data)
    (hdata : data = (content.drop (k * blockSize)).take data.length)
    (hb : (p.store k data).buffer = some bytes) : bytes = content := by
  refine Piece.buffer_matches (Piece.sound_store hs ha) (by rw [Piece.store_length, h.length])
    (fun j block hblock => ?_) hb
  rw [Piece.slice_store]
  rw [Piece.block_store ha] at hblock
  split_ifs at hblock with hj
  · rw [Option.some.injEq] at hblock
    subst hj hblock
    rw [(Piece.accepts_iff.mp ha).2] at hdata
    exact hdata
  · exact h.blocks j block hblock

theorem receive_content {content : Nat → Bytes} (hs : pm.Sound) (hm : pm.Matches sha1 content)
    (hhash : ∀ i p, pm.pieces[i]? = some p → sha1 (content i) = p.expectedHash)
    (hlen : data.length = range.len)
    (hdata : data = ((content range.pieceIndex).drop range.pieceOffset).take data.length) :
    Filled sha1 content pm range data := by
  rcases receiveBlock_cases hs sha1 range data with
    ⟨hkept, hnone, hrefused⟩ | ⟨i, k, p, hd, ha, hcase⟩
  · refine ⟨fun b hb => ?_, .inl ⟨hnone, by rw [hkept]⟩⟩
    rw [hkept] at hb
    refine ⟨hb, ?_⟩
    rintro rfl
    obtain ⟨k, p, hdelivers, haccepts⟩ := accepts_wanted hlen hb
    exact hrefused _ k p hdelivers haccepts
  · have hlacks := (Piece.accepts_iff.mp ha).1
    have hindex : range.pieceIndex = i := congrArg BlockRange.pieceIndex hd.range_eq
    have hoffset : range.pieceOffset = k * blockSize :=
      congrArg BlockRange.pieceOffset hd.range_eq
    have hmatch := hm i p hd.piece
    rw [hindex, hoffset] at hdata
    rcases hcase with ⟨hbuf, hres⟩ | ⟨bytes, hbuf, hbad, hres⟩ | ⟨bytes, bf, hbuf, -, -, hres⟩
    · refine ⟨fun b hb => ?_, .inl ⟨?_, ?_⟩⟩
      · rw [hres] at hb
        rw [hd.range_eq]
        exact wants_set hd.piece (Piece.store_length ..)
          (fun j hj => (Piece.lacks_store hlacks).mp hj) hb
      · intro c
        rw [hres]
        simp
      · have hset := missing_set (q := p.store k data) hd.piece hlacks.incomplete
        rw [Piece.store_incomplete hlacks] at hset
        rw [hres]
        exact hset
    · have hbytes := buffer_content (hs.pieces i p hd.piece) hmatch ha hdata hbuf
      rw [hbytes] at hbad
      exact absurd (hhash i p hd.piece) hbad
    · have hbytes := buffer_content (hs.pieces i p hd.piece) hmatch ha hdata hbuf
      refine ⟨fun b hb => ?_, .inr ⟨?_, ?_, ?_, ?_⟩⟩
      · rw [hres] at hb
        rw [hd.range_eq]
        have hdone : ∀ j, ¬ Piece.Lacks { p with state := .complete } j := by
          rintro j ⟨blocks, received, hstate, -⟩
          contradiction
        have hlength : ({ p with state := .complete } : Piece).length = p.length := rfl
        exact wants_set hd.piece hlength (fun j hj => absurd hj (hdone j)) hb
      · rw [hres, hindex, hbytes]
      · have hset := missing_set (q := { p with state := .complete }) hd.piece hlacks.incomplete
        rw [hres]
        exact hset
      · rw [hindex]
        exact (List.getElem?_eq_some_iff.mp hd.piece).1
      · rintro ⟨p', hp', hcomplete⟩
        rw [hindex, hd.piece, Option.some.injEq] at hp'
        subst hp'
        rw [hlacks.incomplete] at hcomplete
        contradiction

end PieceManager

end Tortue
