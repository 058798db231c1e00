import Tortue.Collections.Blocks
import Tortue.Domain.Swarm.PieceManager

namespace Tortue

open Collections

namespace Bitfield

theorem divCeil_mul_ge (a : Nat) {b : Nat} (hb : 0 < b) : a ≤ divCeil a b * b := by
  unfold divCeil
  have hmod := Nat.div_add_mod (a + b - 1) b
  have hlt := Nat.mod_lt (a + b - 1) hb
  rw [Nat.mul_comm] at hmod
  omega

theorem mul_lt_of_lt_divCeil {a b k : Nat} (hb : 0 < b) (h : k < divCeil a b) : k * b < a := by
  unfold divCeil at h
  rw [Nat.lt_div_iff_mul_lt hb] at h
  omega

theorem divCeil_pos {a b : Nat} (ha : 0 < a) (hb : 0 < b) : 0 < divCeil a b :=
  Nat.div_pos (by omega) hb

end Bitfield

theorem blockSize_pos : 0 < blockSize := by decide

namespace Piece

def blockLengthAt (p : Piece) (k : Nat) : Nat := min (p.length - k * blockSize) blockSize

def block (p : Piece) (k : Nat) : Option Bytes :=
  match p.state with
  | .complete => none
  | .partialBlocks blocks _ =>
    match blocks[k]? with
    | some (.received data) => some data
    | _ => none

def Accepts (p : Piece) (k : Nat) (data : Bytes) : Prop :=
  ∃ blocks received, p.state = .partialBlocks blocks received ∧ blocks[k]? = some .missing ∧
    data.length = p.blockLengthAt k

def Resets (sha1 : Sha1) (p : Piece) (k : Nat) (data : Bytes) : Prop :=
  p.Accepts k data ∧ ∃ buffer, (p.store k data).buffer = some buffer ∧ sha1 buffer ≠ p.expectedHash

structure Sound (p : Piece) : Prop where
  size : ∀ blocks received, p.state = .partialBlocks blocks received →
    blocks.length = p.blocksTotal
  count : ∀ blocks received, p.state = .partialBlocks blocks received →
    received = blocks.countP (· ≠ .missing)
  lengths : ∀ blocks received, p.state = .partialBlocks blocks received →
    ∀ k data, blocks[k]? = some (.received data) → data.length = p.blockLengthAt k

theorem sound_new (hash : PieceHash) (len : Nat) : Sound (.new hash len) where
  size blocks received h := by
    simp only [Piece.new, PieceState.partialBlocks.injEq] at h
    rw [← h.1, List.length_replicate]
    rfl
  count blocks received h := by
    simp only [Piece.new, PieceState.partialBlocks.injEq] at h
    rw [← h.1, ← h.2]
    simp [List.countP_replicate]
  lengths blocks received h k data hk := by
    simp only [Piece.new, PieceState.partialBlocks.injEq] at h
    rw [← h.1, List.getElem?_replicate] at hk
    split at hk <;> simp at hk

theorem countP_set_missing {blocks : List BlockState} {k : Nat} {data : Bytes}
    (h : blocks[k]? = some .missing) :
    (blocks.set k (.received data)).countP (· ≠ .missing) = blocks.countP (· ≠ .missing) + 1 := by
  induction blocks generalizing k with
  | nil => simp at h
  | cons b blocks ih =>
    cases k with
    | zero =>
      simp only [List.getElem?_cons_zero, Option.some.injEq] at h
      subst h
      simp
    | succ k =>
      rw [List.getElem?_cons_succ] at h
      rw [List.set_cons_succ, List.countP_cons, List.countP_cons, ih h]
      omega

theorem sound_store {p : Piece} (h : Sound p) {k : Nat} {data : Bytes} (ha : p.Accepts k data) :
    Sound (p.store k data) := by
  obtain ⟨blocks, received, hs, hk, hlen⟩ := ha
  unfold store
  rw [hs]
  refine ⟨fun bs r hb => ?_, fun bs r hb => ?_, fun bs r hb j d hj => ?_⟩ <;>
    simp only [PieceState.partialBlocks.injEq] at hb <;> obtain ⟨rfl, rfl⟩ := hb
  · rw [List.length_set]
    exact h.size blocks received hs
  · rw [countP_set_missing hk, h.count blocks received hs]
  · rw [List.getElem?_set] at hj
    split at hj
    · next heq =>
      subst heq
      split at hj
      · simp only [Option.some.injEq, BlockState.received.injEq] at hj
        rw [← hj]
        exact hlen
      · contradiction
    · exact h.lengths blocks received hs j d hj

theorem sound_reset {p : Piece} (h : Sound p) : Sound p.reset := by
  unfold reset
  cases hs : p.state with
  | complete => exact h
  | partialBlocks blocks received =>
    refine ⟨fun bs r hb => ?_, fun bs r hb => ?_, fun bs r hb j d hj => ?_⟩ <;>
      simp only [PieceState.partialBlocks.injEq] at hb <;> obtain ⟨rfl, rfl⟩ := hb
    · rw [List.length_map]
      exact h.size blocks received hs
    · rw [List.countP_map]
      exact (List.countP_eq_zero.mpr fun b _ => by simp).symm
    · rw [List.getElem?_map] at hj
      cases hb : blocks[j]? <;> simp [hb] at hj

theorem sound_complete (p : Piece) : Sound { p with state := .complete } where
  size _ _ h := by simp at h
  count _ _ h := by simp at h
  lengths _ _ h := by simp at h

theorem receiveBlock_cases (sha1 : Sha1) (p : Piece) (k : Nat) (data : Bytes) :
    (¬ p.Accepts k data ∧ (p.receiveBlock sha1 k data).2 = p ∧
      ∀ b, (p.receiveBlock sha1 k data).1 ≠ .ok (some b)) ∨
    (p.Accepts k data ∧ (p.store k data).buffer = none ∧
      p.receiveBlock sha1 k data = (.ok none, p.store k data)) ∨
    (p.Accepts k data ∧ ∃ b, (p.store k data).buffer = some b ∧ sha1 b ≠ p.expectedHash ∧
      p.receiveBlock sha1 k data = (.ok none, (p.store k data).reset)) ∨
    (p.Accepts k data ∧ ∃ b, (p.store k data).buffer = some b ∧ sha1 b = p.expectedHash ∧
      p.receiveBlock sha1 k data = (.ok (some b), { p with state := .complete })) := by
  unfold receiveBlock
  cases hs : p.state with
  | complete =>
    refine .inl ⟨?_, rfl, by simp⟩
    rintro ⟨blocks, received, hp, -⟩
    rw [hs] at hp
    contradiction
  | partialBlocks blocks received =>
    have hblock : ∀ bs r, p.state = .partialBlocks bs r → bs = blocks := by
      intro bs r hp
      rw [hs, PieceState.partialBlocks.injEq] at hp
      exact hp.1.symm
    simp only [blockLength, hs]
    by_cases hk : k ≥ blocks.length
    · refine .inl ⟨?_, by simp [hk], by simp [hk]⟩
      rintro ⟨bs, r, hp, hmissing, -⟩
      rw [hblock bs r hp, List.getElem?_eq_none hk] at hmissing
      contradiction
    · simp only [hk, if_false]
      by_cases hlen : data.length = min (p.length - k * blockSize) blockSize
      · by_cases hmissing : blocks[k]? = some .missing
        · have ha : p.Accepts k data := ⟨blocks, received, hs, hmissing, hlen⟩
          simp only [hlen, hmissing, ne_eq, not_true_eq_false, if_false]
          cases hbuf : (p.store k data).buffer with
          | none => exact .inr (.inl ⟨ha, rfl, rfl⟩)
          | some b =>
            by_cases hhash : sha1 b = p.expectedHash
            · exact .inr (.inr (.inr ⟨ha, b, rfl, hhash, by simp [verifyPieceHash, hhash]⟩))
            · exact .inr (.inr (.inl ⟨ha, b, rfl, hhash, by simp [verifyPieceHash, hhash]⟩))
        · refine .inl ⟨?_, by simp [hlen, hmissing], by simp [hlen, hmissing]⟩
          rintro ⟨bs, r, hp, hmissing', -⟩
          rw [hblock bs r hp] at hmissing'
          exact hmissing hmissing'
      · refine .inl ⟨?_, by simp [hlen], by simp [hlen]⟩
        rintro ⟨_, _, _, _, hlen'⟩
        exact hlen hlen'

@[simp] theorem store_length (p : Piece) (k : Nat) (data : Bytes) :
    (p.store k data).length = p.length := by
  unfold store; split <;> rfl

@[simp] theorem store_expectedHash (p : Piece) (k : Nat) (data : Bytes) :
    (p.store k data).expectedHash = p.expectedHash := by
  unfold store; split <;> rfl

@[simp] theorem reset_length (p : Piece) : p.reset.length = p.length := by
  unfold reset; split <;> rfl

@[simp] theorem reset_expectedHash (p : Piece) : p.reset.expectedHash = p.expectedHash := by
  unfold reset; split <;> rfl

theorem sound_receiveBlock {p : Piece} (h : Sound p) (sha1 : Sha1) (k : Nat) (data : Bytes) :
    Sound (p.receiveBlock sha1 k data).2 := by
  rcases receiveBlock_cases sha1 p k data with ⟨-, hsame, -⟩ | ⟨ha, -, hres⟩ |
    ⟨ha, _, -, -, hres⟩ | ⟨-, _, -, -, hres⟩
  · rw [hsame]
    exact h
  · rw [hres]
    exact sound_store h ha
  · rw [hres]
    exact sound_reset (sound_store h ha)
  · rw [hres]
    exact sound_complete p

theorem receiveBlock_length (sha1 : Sha1) (p : Piece) (k : Nat) (data : Bytes) :
    (p.receiveBlock sha1 k data).2.length = p.length ∧
      (p.receiveBlock sha1 k data).2.expectedHash = p.expectedHash := by
  rcases receiveBlock_cases sha1 p k data with ⟨-, hsame, -⟩ | ⟨-, -, hres⟩ |
    ⟨-, _, -, -, hres⟩ | ⟨-, _, -, -, hres⟩
  · rw [hsame]
    exact ⟨rfl, rfl⟩
  · simp [hres]
  · simp [hres]
  · simp [hres]

theorem block_store {p : Piece} {k : Nat} {data : Bytes} (ha : p.Accepts k data) (j : Nat) :
    (p.store k data).block j = if j = k then some data else p.block j := by
  obtain ⟨blocks, received, hs, hk, -⟩ := ha
  have hlt : k < blocks.length := (List.getElem?_eq_some_iff.mp hk).1
  unfold store block
  rw [hs]
  simp only
  by_cases hj : j = k
  · subst hj
    simp [hlt]
  · simp [List.getElem?_set_ne (Ne.symm hj), hj]

@[simp] theorem block_reset (p : Piece) (j : Nat) : p.reset.block j = none := by
  unfold reset block
  cases hs : p.state with
  | complete => simp [hs]
  | partialBlocks blocks received =>
    simp only [List.getElem?_map]
    cases blocks[j]? <;> rfl

@[simp] theorem block_complete (p : Piece) (j : Nat) :
    block { p with state := .complete } j = none := rfl

theorem buffer_eq {p : Piece} (h : Sound p) {bytes : Bytes} (hb : p.buffer = some bytes) :
    ∃ blocks : List Bytes, bytes = blocks.flatten ∧ blocks.length = p.blocksTotal ∧
      (∀ k data, blocks[k]? = some data → p.block k = some data) ∧ bytes.length = p.length := by
  unfold buffer at hb
  cases hs : p.state with
  | complete => simp [hs] at hb
  | partialBlocks blocks received =>
    simp only [hs] at hb
    split_ifs at hb with hfull
    rw [Option.some.injEq] at hb
    rw [ne_eq, not_not, h.count blocks received hs, List.countP_eq_length] at hfull
    have hdata : ∀ k : Nat, ∀ b, blocks[k]? = some b → b = .received b.data := by
      intro k b hk
      have hne := hfull b (List.mem_of_getElem? hk)
      cases b with
      | missing => simp at hne
      | received data => rfl
    have hlengths : blocks.map (fun b => b.data.length) =
        (List.range p.blocksTotal).map p.blockLengthAt := by
      have hsize := h.size blocks received hs
      refine List.ext_getElem? fun k => ?_
      rw [List.getElem?_map, List.getElem?_map]
      cases hk : blocks[k]? with
      | none =>
        rw [List.getElem?_eq_none_iff, hsize] at hk
        rw [List.getElem?_eq_none (by simpa using hk)]
        rfl
      | some b =>
        have hlt : k < p.blocksTotal := hsize ▸ (List.getElem?_eq_some_iff.mp hk).1
        have hb' := hdata k b hk
        rw [List.getElem?_range hlt, Option.map_some, Option.map_some, Option.some.injEq]
        exact h.lengths blocks received hs k b.data (hb' ▸ hk)
    refine ⟨blocks.map BlockState.data, ?_, ?_, fun k data hk => ?_, ?_⟩
    · rw [← hb, List.flatMap_def]
    · rw [List.length_map]
      exact h.size blocks received hs
    · rw [List.getElem?_map, Option.map_eq_some_iff] at hk
      obtain ⟨b, hk, rfl⟩ := hk
      have hb' := hdata k b hk
      unfold block
      rw [hs]
      simp only
      rw [hk, hb']
      rfl
    · have hge : p.length ≤ p.blocksTotal * blockSize :=
        Bitfield.divCeil_mul_ge p.length blockSize_pos
      rw [← hb, List.length_flatMap, hlengths]
      unfold blockLengthAt
      rw [sum_block_lengths, Nat.min_eq_left hge]

end Piece

end Tortue
