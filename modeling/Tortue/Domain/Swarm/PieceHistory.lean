import Tortue.Collections.History
import Tortue.Domain.Swarm.Pieces

namespace Tortue

open Collections

theorem Bitfield.setBit_pieces {bf bf' : Bitfield} {bit : Nat} (h : bf.setBit bit = .ok bf') :
    bf'.pieces = bf.pieces := by
  simp only [setBit, checkBit, bind, Except.bind, pure, Except.pure] at h
  split_ifs at h
  simp only [Except.ok.injEq] at h
  rw [← h]

namespace PieceManager

structure Sound (pm : PieceManager) : Prop where
  bits : pm.bitfield.pieces = pm.pieces.length
  pieces : ∀ (i : Nat) (p : Piece), pm.pieces[i]? = some p → p.Sound

def CompleteAt (pm : PieceManager) (i : Nat) : Prop :=
  ∃ p, pm.pieces[i]? = some p ∧ p.isComplete = true

theorem isComplete_iff (pm : PieceManager) :
    pm.isComplete = true ↔ ∀ i < pm.pieces.length, pm.CompleteAt i := by
  unfold isComplete CompleteAt
  rw [List.all_eq_true]
  constructor
  · intro h i hi
    exact ⟨pm.pieces[i], List.getElem?_eq_getElem hi, h _ (List.getElem_mem hi)⟩
  · intro h p hp
    obtain ⟨i, hi, rfl⟩ := List.mem_iff_getElem.mp hp
    obtain ⟨q, hq, hc⟩ := h i hi
    rw [List.getElem?_eq_getElem hi, Option.some.injEq] at hq
    exact hq ▸ hc

theorem new_spec {m : Metainfo} {pm : PieceManager} (h : PieceManager.new m = some pm) :
    pm.pieces.length = m.pieces.length ∧ pm.bitfield.pieces = m.pieces.length ∧
      ∀ i p, pm.pieces[i]? = some p → ∃ hash len, m.pieces[i]? = some hash ∧
        pieceLengthAt m i = some len ∧ p = Piece.new hash len := by
  simp only [PieceManager.new, Option.bind_eq_bind, Option.bind_eq_some_iff, Option.pure_def,
    Option.some.injEq] at h
  obtain ⟨pieces, hpieces, rfl⟩ := h
  rw [mapM_option_iff] at hpieces
  have hlength := hpieces.length_eq
  rw [List.length_zipIdx] at hlength
  refine ⟨hlength.symm, rfl, fun i p hp => ?_⟩
  obtain ⟨hi, rfl⟩ := List.getElem?_eq_some_iff.mp hp
  simp only at hi
  have hi' : i < m.pieces.zipIdx.length := by
    rw [List.length_zipIdx, hlength]
    exact hi
  have hi'' : i < m.pieces.length := hlength ▸ hi
  have hget := hpieces.get hi' hi
  simp only [List.get_eq_getElem, List.getElem_zipIdx, Nat.zero_add, Option.map_eq_some_iff] at hget
  obtain ⟨len, hlen, hnew⟩ := hget
  exact ⟨m.pieces[i], len, List.getElem?_eq_getElem hi'', hlen, hnew.symm⟩

theorem new_isSome_iff (m : Metainfo) : (∃ pm, PieceManager.new m = some pm) ↔
    ∀ i < m.pieces.length, ∃ len, pieceLengthAt m i = some len := by
  constructor
  · rintro ⟨pm, h⟩ i hi
    obtain ⟨hlength, -, hspec⟩ := new_spec h
    obtain ⟨_, len, -, hlen, -⟩ := hspec i _ (List.getElem?_eq_getElem (hlength ▸ hi))
    exact ⟨len, hlen⟩
  · intro h
    obtain ⟨pieces, hpieces⟩ := mapM_option_isSome (l := m.pieces.zipIdx)
      (f := fun a => (pieceLengthAt m a.2).map (Piece.new a.1)) fun a ha => by
        obtain ⟨len, hlen⟩ := h a.2 (by simpa using List.snd_lt_of_mem_zipIdx ha)
        exact ⟨Piece.new a.1 len, by simp [hlen]⟩
    refine ⟨⟨pieces, Bitfield.new m.pieces.length⟩, ?_⟩
    exact Option.bind_eq_some_iff.mpr ⟨pieces, hpieces, rfl⟩

theorem sound_new {m : Metainfo} {pm : PieceManager} (h : PieceManager.new m = some pm) :
    Sound pm := by
  obtain ⟨hlength, hbits, hspec⟩ := new_spec h
  refine ⟨hbits.trans hlength.symm, fun i p hp => ?_⟩
  obtain ⟨hash, len, -, -, rfl⟩ := hspec i p hp
  exact Piece.sound_new hash len

structure Delivers (pm : PieceManager) (range : BlockRange) (data : Bytes) (i k : Nat) (p : Piece) :
    Prop where
  range_eq : range = ⟨i, k * blockSize, data.length⟩
  piece : pm.pieces[i]? = some p

variable {sha1 : Sha1} {pm : PieceManager} {range : BlockRange} {data : Bytes}

theorem Delivers.receiveBlock {i k : Nat} {p : Piece} (h : Delivers pm range data i k p) :
    pm.receiveBlock sha1 range data =
      match (p.receiveBlock sha1 k data).1 with
      | .error e => (.error e, { pm with pieces := pm.pieces.set i (p.receiveBlock sha1 k data).2 })
      | .ok none => (.ok none, { pm with pieces := pm.pieces.set i (p.receiveBlock sha1 k data).2 })
      | .ok (some b) =>
        match pm.bitfield.setBit i with
        | .error e => (.error (.bitfield e),
            { pm with pieces := pm.pieces.set i (p.receiveBlock sha1 k data).2 })
        | .ok bitfield => (.ok (some ⟨⟨i, 0, b.length⟩, b⟩),
            { pieces := pm.pieces.set i (p.receiveBlock sha1 k data).2, bitfield }) := by
  have hdiv : k * blockSize / blockSize = k := Nat.mul_div_cancel k blockSize_pos
  unfold PieceManager.receiveBlock
  rcases hr : (p.receiveBlock sha1 k data).1 with e | _ | b
  · simp only [h.range_eq, ne_eq, not_true_eq_false, if_false, Nat.mul_mod_left, h.piece, hdiv, hr]
  · simp only [h.range_eq, ne_eq, not_true_eq_false, if_false, Nat.mul_mod_left, h.piece, hdiv, hr]
  · cases hb : pm.bitfield.setBit i <;>
      simp only [h.range_eq, ne_eq, not_true_eq_false, if_false, Nat.mul_mod_left, h.piece, hdiv,
        hr, hb]

theorem Delivers.pieces {i k : Nat} {p : Piece} (h : Delivers pm range data i k p) :
    (pm.receiveBlock sha1 range data).2.pieces =
      pm.pieces.set i (p.receiveBlock sha1 k data).2 := by
  rw [h.receiveBlock]
  split
  · rfl
  · rfl
  · split <;> rfl

theorem Delivers.unique {i k i' k' : Nat} {p p' : Piece} (h : Delivers pm range data i k p)
    (h' : Delivers pm range data i' k' p') : i = i' ∧ k = k' ∧ p = p' := by
  have heq := h.range_eq.symm.trans h'.range_eq
  simp only [BlockRange.mk.injEq, and_true] at heq
  obtain ⟨rfl, hk⟩ := heq
  have hp : p = p' := Option.some.inj (h.piece.symm.trans h'.piece)
  exact ⟨rfl, Nat.eq_of_mul_eq_mul_right blockSize_pos hk, hp⟩

theorem not_delivered (sha1 : Sha1) (h : ¬ ∃ i k p, Delivers pm range data i k p) :
    (pm.receiveBlock sha1 range data).2 = pm ∧
      ∀ c, (pm.receiveBlock sha1 range data).1 ≠ .ok (some c) := by
  unfold PieceManager.receiveBlock
  by_cases hlen : data.length = range.len
  · by_cases halign : range.pieceOffset % blockSize = 0
    · cases hp : pm.pieces[range.pieceIndex]? with
      | none => simp [hlen, halign]
      | some p =>
        refine absurd ⟨range.pieceIndex, range.pieceOffset / blockSize, p, ?_, hp⟩ h
        rw [Nat.div_mul_cancel (Nat.dvd_of_mod_eq_zero halign), hlen]
    · simp [hlen, halign]
  · simp [hlen]

theorem set_self {l : List Piece} {i : Nat} {p : Piece} (h : l[i]? = some p) : l.set i p = l := by
  obtain ⟨hi, rfl⟩ := List.getElem?_eq_some_iff.mp h
  exact List.set_getElem_self hi

theorem receiveBlock_cases (hs : Sound pm) (sha1 : Sha1) (range : BlockRange) (data : Bytes) :
    ((pm.receiveBlock sha1 range data).2 = pm ∧
      (∀ c, (pm.receiveBlock sha1 range data).1 ≠ .ok (some c)) ∧
      ∀ i k p, Delivers pm range data i k p → ¬ p.Accepts k data) ∨
    ∃ i k p, Delivers pm range data i k p ∧ p.Accepts k data ∧
      (((p.store k data).buffer = none ∧ pm.receiveBlock sha1 range data =
        (.ok none, { pm with pieces := pm.pieces.set i (p.store k data) })) ∨
      (∃ b, (p.store k data).buffer = some b ∧ sha1 b ≠ p.expectedHash ∧
        pm.receiveBlock sha1 range data =
          (.ok none, { pm with pieces := pm.pieces.set i (p.store k data).reset })) ∨
      ∃ b bf, (p.store k data).buffer = some b ∧ sha1 b = p.expectedHash ∧
        bf.pieces = pm.bitfield.pieces ∧ pm.receiveBlock sha1 range data =
          (.ok (some ⟨⟨i, 0, b.length⟩, b⟩),
            { pieces := pm.pieces.set i { p with state := .complete }, bitfield := bf })) := by
  by_cases hd : ∃ i k p, Delivers pm range data i k p
  · obtain ⟨i, k, p, hd⟩ := hd
    rcases Piece.receiveBlock_cases sha1 p k data with
      ⟨ha, hp, hres⟩ | ⟨ha, hbuf, hp⟩ | ⟨ha, b, hbuf, hhash, hp⟩ | ⟨ha, b, hbuf, hhash, hp⟩
    · left
      have hsame : pm.pieces.set i (p.receiveBlock sha1 k data).2 = pm.pieces := by
        rw [hp, set_self hd.piece]
      refine ⟨?_, fun c => ?_, fun i' k' p' hd' => ?_⟩
      · rw [hd.receiveBlock, hsame]
        split
        · rfl
        · rfl
        · next b hb => exact absurd hb (hres b)
      · rw [hd.receiveBlock]
        split
        · simp
        · simp
        · next b hb => exact absurd hb (hres b)
      · obtain ⟨-, rfl, rfl⟩ := hd'.unique hd
        exact ha
    · refine .inr ⟨i, k, p, hd, ha, .inl ⟨hbuf, ?_⟩⟩
      rw [hd.receiveBlock, hp]
    · refine .inr ⟨i, k, p, hd, ha, .inr (.inl ⟨b, hbuf, hhash, ?_⟩)⟩
      rw [hd.receiveBlock, hp]
    · have hi : i < pm.bitfield.pieces := by
        rw [hs.bits]
        exact (List.getElem?_eq_some_iff.mp hd.piece).1
      obtain ⟨bf, hbf⟩ := (Bitfield.setBit_ok_iff pm.bitfield i).mpr hi
      refine .inr ⟨i, k, p, hd, ha,
        .inr (.inr ⟨b, bf, hbuf, hhash, Bitfield.setBit_pieces hbf, ?_⟩)⟩
      rw [hd.receiveBlock, hp]
      simp only [hbf]
  · left
    obtain ⟨hsame, hres⟩ := not_delivered sha1 hd
    exact ⟨hsame, hres, fun i k p h => absurd ⟨i, k, p, h⟩ hd⟩

def deliver (sha1 : Sha1) (pm : PieceManager) (d : BlockRange × Bytes) :
    PieceManager × List (Except PieceError (Option CompletedPiece)) :=
  ((pm.receiveBlock sha1 d.1 d.2).2, [(pm.receiveBlock sha1 d.1 d.2).1])

abbrev Deliveries :=
  List (Event PieceManager (BlockRange × Bytes) (Except PieceError (Option CompletedPiece)))

def Fresh (m : Metainfo) (pm : PieceManager) : Prop := PieceManager.new m = some pm

abbrev Delivered (sha1 : Sha1) (m : Metainfo) : Deliveries → PieceManager → Prop :=
  History (deliver sha1) (Fresh m)

def Receives
    (e : Event PieceManager (BlockRange × Bytes) (Except PieceError (Option CompletedPiece)))
    (i k : Nat) (data : Bytes) : Prop :=
  e.input.2 = data ∧ ∃ p, Delivers e.before e.input.1 e.input.2 i k p ∧ p.Accepts k data

def ResetIn (sha1 : Sha1)
    (e : Event PieceManager (BlockRange × Bytes) (Except PieceError (Option CompletedPiece)))
    (i : Nat) : Prop :=
  ∃ k p, Delivers e.before e.input.1 e.input.2 i k p ∧ p.Resets sha1 k e.input.2

def ReceivedSinceReset (sha1 : Sha1) (h : Deliveries) (i k : Nat) (data : Bytes) : Prop :=
  ∃ newer e older, h = newer ++ e :: older ∧ Receives e i k data ∧ ∀ f ∈ newer, ¬ ResetIn sha1 f i

theorem receivedSinceReset_newest {h : Deliveries}
    {e : Event PieceManager (BlockRange × Bytes) (Except PieceError (Option CompletedPiece))}
    {i k : Nat} (he : Receives e i k data) : ReceivedSinceReset sha1 (e :: h) i k data :=
  since_cons.mpr (.inr he)

theorem receivedSinceReset_older {h : Deliveries}
    {e : Event PieceManager (BlockRange × Bytes) (Except PieceError (Option CompletedPiece))}
    {i k : Nat} (hr : ReceivedSinceReset sha1 h i k data) (he : ¬ ResetIn sha1 e i) :
    ReceivedSinceReset sha1 (e :: h) i k data :=
  since_cons.mpr (.inl ⟨hr, he⟩)

theorem getElem?_set_piece {i j : Nat} {p q : Piece} (hi : pm.pieces[i]? = some p) :
    (pm.pieces.set i q)[j]? = if j = i then some q else pm.pieces[j]? := by
  have hlt := (List.getElem?_eq_some_iff.mp hi).1
  rw [List.getElem?_set]
  by_cases h : j = i
  · simp [h, hlt]
  · simp [h, Ne.symm h]

theorem piece_receiveBlock {i : Nat} {q : Piece}
    (h : (pm.receiveBlock sha1 range data).2.pieces[i]? = some q) :
    pm.pieces[i]? = some q ∨
      ∃ k p, pm.pieces[i]? = some p ∧ q = (p.receiveBlock sha1 k data).2 := by
  by_cases hd : ∃ j k p, Delivers pm range data j k p
  · obtain ⟨j, k, p, hd⟩ := hd
    rw [hd.pieces, getElem?_set_piece hd.piece] at h
    split at h
    · next hij => exact .inr ⟨k, p, hij ▸ hd.piece, (Option.some.inj h).symm⟩
    · exact .inl h
  · rw [(not_delivered sha1 hd).1] at h
    exact .inl h

theorem length_receiveBlock (sha1 : Sha1) (pm : PieceManager) (range : BlockRange)
    (data : Bytes) : (pm.receiveBlock sha1 range data).2.pieces.length = pm.pieces.length := by
  by_cases hd : ∃ j k p, Delivers pm range data j k p
  · obtain ⟨j, k, p, hd⟩ := hd
    rw [hd.pieces, List.length_set]
  · rw [(not_delivered sha1 hd).1]

theorem bits_receiveBlock (hs : Sound pm) (sha1 : Sha1) (range : BlockRange) (data : Bytes) :
    (pm.receiveBlock sha1 range data).2.bitfield.pieces = pm.bitfield.pieces := by
  rcases receiveBlock_cases hs sha1 range data with ⟨h, -⟩ | ⟨i, k, p, -, -, hcase⟩
  · rw [h]
  · rcases hcase with ⟨-, h⟩ | ⟨_, -, -, h⟩ | ⟨_, bf, -, -, hbf, h⟩
    · rw [h]
    · rw [h]
    · rw [h, hbf]

theorem sound_receiveBlock (hs : Sound pm) (sha1 : Sha1) (range : BlockRange) (data : Bytes) :
    Sound (pm.receiveBlock sha1 range data).2 := by
  refine ⟨?_, fun i q hq => ?_⟩
  · rw [bits_receiveBlock hs, length_receiveBlock, hs.bits]
  · obtain hq | ⟨k, p, hp, rfl⟩ := piece_receiveBlock hq
    · exact hs.pieces i q hq
    · exact Piece.sound_receiveBlock (hs.pieces i p hp) sha1 k data

theorem delivered_sound {m : Metainfo} {h : Deliveries} (hist : Delivered sha1 m h pm) :
    Sound pm :=
  hist.invariant (fun _ hn => sound_new hn) fun _ d hs => sound_receiveBlock hs sha1 d.1 d.2

structure Described (m : Metainfo) (pm : PieceManager) : Prop where
  length : pm.pieces.length = m.pieces.length
  piece : ∀ i p, pm.pieces[i]? = some p →
    pieceLengthAt m i = some p.length ∧ m.pieces[i]? = some p.expectedHash

theorem described_new {m : Metainfo} (h : PieceManager.new m = some pm) : Described m pm := by
  obtain ⟨hlength, -, hspec⟩ := new_spec h
  refine ⟨hlength, fun i p hp => ?_⟩
  obtain ⟨hash, len, hhash, hlen, rfl⟩ := hspec i p hp
  exact ⟨hlen, hhash⟩

theorem described_receiveBlock {m : Metainfo} (hm : Described m pm) (sha1 : Sha1)
    (range : BlockRange) (data : Bytes) : Described m (pm.receiveBlock sha1 range data).2 := by
  refine ⟨(length_receiveBlock sha1 pm range data).trans hm.length, fun i q hq => ?_⟩
  obtain hq | ⟨k, p, hp, rfl⟩ := piece_receiveBlock hq
  · exact hm.piece i q hq
  · obtain ⟨hlen, hhash⟩ := Piece.receiveBlock_length sha1 p k data
    rw [hlen, hhash]
    exact hm.piece i p hp

theorem delivered_described {m : Metainfo} {h : Deliveries} (hist : Delivered sha1 m h pm) :
    Described m pm :=
  hist.invariant (fun _ hn => described_new hn) fun _ d hm =>
    described_receiveBlock hm sha1 d.1 d.2

theorem blocks_received {m : Metainfo} {h : Deliveries} (hist : Delivered sha1 m h pm) {i k : Nat}
    {p : Piece} (hp : pm.pieces[i]? = some p) (hb : p.block k = some data) :
    ReceivedSinceReset sha1 h i k data := by
  induction hist generalizing i k p data with
  | start hn =>
    obtain ⟨-, -, hspec⟩ := new_spec hn
    obtain ⟨hash, len, -, -, rfl⟩ := hspec i p hp
    simp only [Piece.block, Piece.new, List.getElem?_replicate] at hb
    split at hb
    · next heq => split at heq <;> simp at heq
    · contradiction
  | @next h pm d hist ih =>
    have hs := delivered_sound hist
    obtain ⟨range, bytes⟩ := d
    simp only [deliver] at hp
    rcases receiveBlock_cases hs sha1 range bytes with
      ⟨hsame, -, hrej⟩ | ⟨i', k', p', hd, ha, hcase⟩
    · rw [hsame] at hp
      refine receivedSinceReset_older (ih hp hb) ?_
      rintro ⟨k', p', hd, hr⟩
      exact hrej i k' p' hd hr.1
    · have hother : i ≠ i' → pm.pieces[i]? = some p → ReceivedSinceReset sha1
          (⟨pm, (range, bytes), (deliver sha1 pm (range, bytes)).2⟩ :: h) i k data := by
        intro hne hold
        refine receivedSinceReset_older (ih hold hb) ?_
        rintro ⟨k'', p'', hd', -⟩
        exact hne (hd'.unique hd).1
      rcases hcase with ⟨hbuf, hres⟩ | ⟨_, -, -, hres⟩ | ⟨_, bf, -, -, -, hres⟩ <;>
        rw [hres] at hp <;> simp only [getElem?_set_piece hd.piece] at hp <;> split at hp
      · next heq =>
        subst heq
        rw [Option.some.injEq] at hp
        subst hp
        rw [Piece.block_store ha] at hb
        split at hb
        · next heq =>
          subst heq
          rw [Option.some.injEq] at hb
          subst hb
          exact receivedSinceReset_newest ⟨rfl, p', hd, ha⟩
        · refine receivedSinceReset_older (ih hd.piece hb) ?_
          rintro ⟨k'', p'', hd', -, b, hfull, -⟩
          obtain ⟨-, rfl, rfl⟩ := hd'.unique hd
          rw [hbuf] at hfull
          contradiction
      · next hne => exact hother hne hp
      · rw [Option.some.injEq] at hp
        subst hp
        simp at hb
      · next hne => exact hother hne hp
      · rw [Option.some.injEq] at hp
        subst hp
        simp at hb
      · next hne => exact hother hne hp

theorem completeAt_receiveBlock (hs : Sound pm) (sha1 : Sha1) (range : BlockRange) (data : Bytes)
    (j : Nat) : (pm.receiveBlock sha1 range data).2.CompleteAt j ↔ pm.CompleteAt j ∨
      ∃ c, (pm.receiveBlock sha1 range data).1 = .ok (some c) ∧ c.range.pieceIndex = j := by
  rcases receiveBlock_cases hs sha1 range data with ⟨h, hres, -⟩ | ⟨i, k, p, hd, ha, hcase⟩
  · rw [h]
    constructor
    · exact .inl
    · rintro (hold | ⟨c, hc, -⟩)
      · exact hold
      · exact absurd hc (hres c)
  · obtain ⟨blocks, received, hstate, -, -⟩ := ha
    have hnot : p.isComplete = false := by simp [Piece.isComplete, hstate]
    have hpartial : ∀ q, pm.pieces[i]? = some q → q.isComplete = false := by
      intro q hq
      rw [hd.piece, Option.some.injEq] at hq
      exact hq ▸ hnot
    have hsame : ∀ q, q.isComplete = false →
        (CompleteAt { pm with pieces := pm.pieces.set i q } j ↔ pm.CompleteAt j) := by
      intro q hq
      unfold CompleteAt
      simp only [getElem?_set_piece hd.piece]
      by_cases hj : j = i
      · subst hj
        simp [hd.piece, hq, hnot]
      · simp [hj]
    rcases hcase with ⟨-, h⟩ | ⟨_, -, -, h⟩ | ⟨b, bf, -, -, -, h⟩ <;> rw [h]
    · rw [hsame _ (by simp [Piece.store, hstate, Piece.isComplete])]
      simp
    · rw [hsame _ (by simp [Piece.store, Piece.reset, hstate, Piece.isComplete])]
      simp
    · unfold CompleteAt
      simp only [getElem?_set_piece hd.piece]
      by_cases hj : j = i
      · subst hj
        simp [Piece.isComplete]
      · simp [hj, Ne.symm hj]

structure Verified (sha1 : Sha1) (m : Metainfo) (h : Deliveries) (c : CompletedPiece) : Prop where
  offset : c.range.pieceOffset = 0
  len : c.range.len = c.data.length
  length : pieceLengthAt m c.range.pieceIndex = some c.data.length
  hash : m.pieces[c.range.pieceIndex]? = some (sha1 c.data)
  blocks : ∃ blocks : List Bytes, c.data = blocks.flatten ∧
    blocks.length = Bitfield.divCeil c.data.length blockSize ∧
    ∀ k data, blocks[k]? = some data → ReceivedSinceReset sha1 h c.range.pieceIndex k data

theorem completed_verified {m : Metainfo} {h : Deliveries} (hist : Delivered sha1 m h pm)
    {d : BlockRange × Bytes} {c : CompletedPiece}
    (hc : (pm.receiveBlock sha1 d.1 d.2).1 = .ok (some c)) :
    Verified sha1 m (⟨pm, d, (deliver sha1 pm d).2⟩ :: h) c ∧
      ¬ pm.CompleteAt c.range.pieceIndex := by
  have hs := delivered_sound hist
  have hm := delivered_described hist
  rcases receiveBlock_cases hs sha1 d.1 d.2 with ⟨-, hres, -⟩ | ⟨i, k, p, hd, ha, hcase⟩
  · exact absurd hc (hres c)
  · rcases hcase with ⟨-, hres⟩ | ⟨_, -, -, hres⟩ | ⟨b, bf, hbuf, hhash, -, hres⟩ <;>
      rw [hres] at hc
    · simp at hc
    · simp at hc
    · simp only [Except.ok.injEq, Option.some.injEq] at hc
      subst hc
      have hp := hs.pieces i p hd.piece
      obtain ⟨blocks, hflat, hcount, hblock, hlen⟩ := Piece.buffer_eq (Piece.sound_store hp ha) hbuf
      obtain ⟨hplen, hphash⟩ := hm.piece i p hd.piece
      rw [Piece.store_length] at hlen
      refine ⟨⟨rfl, rfl, ?_, ?_, blocks, hflat, ?_, fun j data hj => ?_⟩, ?_⟩
      · rw [hlen]
        exact hplen
      · rw [hhash]
        exact hphash
      · rw [hcount, hlen]
        simp [Piece.blocksTotal]
      · have hstored := hblock j data hj
        rw [Piece.block_store ha] at hstored
        split at hstored
        · next heq =>
          subst heq
          rw [Option.some.injEq] at hstored
          exact receivedSinceReset_newest ⟨hstored, p, hd, hstored ▸ ha⟩
        · refine receivedSinceReset_older (blocks_received hist hd.piece hstored) ?_
          rintro ⟨k', p', hd', -, b', hfull, hbad⟩
          obtain ⟨-, rfl, rfl⟩ := hd'.unique hd
          rw [hbuf, Option.some.injEq] at hfull
          exact hbad (hfull ▸ hhash)
      · rintro ⟨q, hq, hcomplete⟩
        rw [hd.piece, Option.some.injEq] at hq
        obtain ⟨bs, received, hstate, -, -⟩ := ha
        simp [← hq, Piece.isComplete, hstate] at hcomplete

end PieceManager

end Tortue
