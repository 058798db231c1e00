import Tortue.Domain.Swarm.PieceHistory

-- The pieces once more, with the panics of the source as `none`.
namespace Tortue

open Collections

def BlockState.received? : BlockState → Option Bytes
  | .missing => none
  | .received data => some data

namespace Bitfield

def setBit? (bf : Bitfield) (bit : Nat) : Option (Except Error Bitfield) :=
  match bf.checkBit bit with
  | .error e => some (.error e)
  | .ok () =>
    if bit / bitsPerByte < bf.data.length then
      some (.ok { bf with data := bf.data.modify (bit / bitsPerByte) (· ||| mask bit) })
    else none

theorem setBit?_eq {bf : Bitfield} (h : bf.data.length = divCeil bf.pieces bitsPerByte)
    (bit : Nat) : bf.setBit? bit = some (bf.setBit bit) := by
  unfold setBit? setBit checkBit
  by_cases hout : bit ≥ bf.pieces
  · simp only [hout, if_true]
    rfl
  · have hin : bit / bitsPerByte < bf.data.length := by
      rw [h, bitsPerByte, Nat.div_lt_iff_lt_mul (by decide)]
      exact Nat.lt_of_lt_of_le (Nat.lt_of_not_le hout) (divCeil_mul_ge bf.pieces (by decide))
    simp only [hout, if_false, hin, if_true]
    rfl

end Bitfield

namespace Piece

def blockLength? (p : Piece) (blockIndex : Nat) : Option (Except PieceError Nat) :=
  match p.state with
  | .complete => some (.ok 0)
  | .partialBlocks blocks _ =>
    if blockIndex ≥ blocks.length then some (.error (.invalidBlockIndex blockIndex))
    else if blockIndex * blockSize ≤ p.length then
      some (.ok (min (p.length - blockIndex * blockSize) blockSize))
    else none

def buffer? (p : Piece) : Option (Option Bytes) :=
  match p.state with
  | .complete => some none
  | .partialBlocks blocks received =>
    if received ≠ blocks.length then some none
    else do
      let parts ← blocks.mapM BlockState.received?
      return some parts.flatten

def receiveBlock? (sha1 : Sha1) (p : Piece) (blockIndex : Nat) (data : Bytes) :
    Option (Except PieceError (Option Bytes) × Piece) :=
  if p.isComplete then some (.ok none, p)
  else
    match p.blockLength? blockIndex with
    | none => none
    | some (.error e) => some (.error e, p)
    | some (.ok expectedLength) =>
      if data.length ≠ expectedLength then
        some (.error (.invalidBlockSize expectedLength data.length), p)
      else
        match p.state with
        | .complete => none
        | .partialBlocks blocks _ =>
          match blocks[blockIndex]? with
          | none => none
          | some (.received _) => some (.ok none, p)
          | some .missing =>
            match (p.store blockIndex data).buffer? with
            | none => none
            | some none => some (.ok none, p.store blockIndex data)
            | some (some buffer) =>
              if !verifyPieceHash sha1 p.expectedHash buffer then
                some (.ok none, (p.store blockIndex data).reset)
              else some (.ok (some buffer), { p with state := .complete })

variable {p : Piece} {k : Nat}

theorem blockLength?_eq (h : p.Sound) (k : Nat) : p.blockLength? k = some (p.blockLength k) := by
  cases hstate : p.state with
  | complete => simp only [blockLength?, blockLength, hstate]
  | partialBlocks blocks received =>
    simp only [blockLength?, blockLength, hstate]
    by_cases hk : k ≥ blocks.length
    · simp only [hk, if_true]
    · have hstart := Bitfield.mul_lt_of_lt_divCeil blockSize_pos
        (h.size blocks received hstate ▸ Nat.lt_of_not_le hk)
      simp only [hk, if_false, Nat.le_of_lt hstart, if_true]

theorem buffer?_eq (h : p.Sound) : p.buffer? = some p.buffer := by
  cases hstate : p.state with
  | complete => simp only [buffer?, buffer, hstate]
  | partialBlocks blocks received =>
    simp only [buffer?, buffer, hstate]
    by_cases hfull : received = blocks.length
    · have hall := hfull
      rw [h.count blocks received hstate, List.countP_eq_length] at hall
      have hparts : blocks.mapM BlockState.received? = some (blocks.map BlockState.data) := by
        refine mapM_eq_map fun b hb => ?_
        cases b with
        | missing => simpa using hall _ hb
        | received data => rfl
      simp [hfull, hparts, List.flatMap_def]
    · simp only [ne_eq, hfull, not_false_eq_true, if_true]

theorem receiveBlock?_eq (h : p.Sound) (sha1 : Sha1) (k : Nat) (data : Bytes) :
    p.receiveBlock? sha1 k data = some (p.receiveBlock sha1 k data) := by
  cases hstate : p.state with
  | complete => simp [receiveBlock?, receiveBlock, isComplete, hstate]
  | partialBlocks blocks received =>
    simp only [receiveBlock?, receiveBlock, isComplete, hstate, Bool.false_eq_true, if_false,
      blockLength?_eq h]
    cases hlength : p.blockLength k with
    | error e => rfl
    | ok expected =>
      by_cases hdata : data.length = expected
      · have hk : k < blocks.length := by
          by_contra hout
          simp [blockLength, hstate, Nat.le_of_not_lt hout] at hlength
        simp only [hdata, ne_eq, not_true_eq_false, if_false, List.getElem?_eq_getElem hk]
        cases hblock : blocks[k] with
        | received old => simp
        | missing =>
          have hmissing : blocks[k]? = some .missing := by
            rw [List.getElem?_eq_getElem hk, hblock]
          have haccepts : p.Accepts k data := by
            refine ⟨blocks, received, hstate, hmissing, hdata.trans ?_⟩
            simp only [blockLength, hstate, Nat.not_le_of_lt hk, if_false, Except.ok.injEq]
              at hlength
            exact hlength.symm
          simp only [buffer?_eq (sound_store h haccepts), not_true_eq_false, if_false]
          cases (p.store k data).buffer with
          | none => rfl
          | some buffer =>
            cases hverify : verifyPieceHash sha1 p.expectedHash buffer <;> simp [hverify]
      · simp only [ne_eq, hdata, not_false_eq_true, if_true]

theorem blockLength_unreceived (hk : k ∈ p.unreceivedBlocks) :
    ∃ len, p.blockLength k = .ok len := by
  unfold unreceivedBlocks at hk
  cases hstate : p.state with
  | complete => exact ⟨0, by simp only [blockLength, hstate]⟩
  | partialBlocks blocks received =>
    simp only [hstate, List.mem_filter, List.mem_range] at hk
    exact ⟨min (p.length - k * blockSize) blockSize, by
      simp only [blockLength, hstate, ge_iff_le, Nat.not_le_of_lt hk.1, if_false]⟩

end Piece

namespace PieceManager

def unreceivedBlocks? (pm : PieceManager) (pieceIndex : Nat) : Option (List BlockRange) :=
  match pm.pieces[pieceIndex]? with
  | none => some []
  | some piece => piece.unreceivedBlocks.mapM fun blockIndex =>
    match piece.blockLength? blockIndex with
    | some (.ok len) => some { pieceIndex, pieceOffset := blockIndex * blockSize, len }
    | _ => none

def receiveBlock? (sha1 : Sha1) (pm : PieceManager) (range : BlockRange) (data : Bytes) :
    Option (Except PieceError (Option CompletedPiece) × PieceManager) :=
  if data.length ≠ range.len then some (.error (.invalidBlockSize range.len data.length), pm)
  else if range.pieceOffset % blockSize ≠ 0 then
    some (.error (.unalignedBlockOffset range.pieceOffset), pm)
  else
    match pm.pieces[range.pieceIndex]? with
    | none => some (.error (.invalidPieceIndex range.pieceIndex), pm)
    | some p => do
      let (result, p') ← p.receiveBlock? sha1 (range.pieceOffset / blockSize) data
      let pm' := { pm with pieces := pm.pieces.set range.pieceIndex p' }
      match result with
      | .error e => return (.error e, pm')
      | .ok none => return (.ok none, pm')
      | .ok (some buffer) =>
        match ← pm'.bitfield.setBit? range.pieceIndex with
        | .error e => return (.error (.bitfield e), pm')
        | .ok bitfield =>
          return (.ok (some { range := ⟨range.pieceIndex, 0, buffer.length⟩, data := buffer }),
            { pm' with bitfield })

variable {pm : PieceManager}

theorem unreceivedBlocks?_eq (h : pm.Sound) (i : Nat) :
    pm.unreceivedBlocks? i = some (pm.unreceivedBlocks i) := by
  unfold unreceivedBlocks? unreceivedBlocks
  cases hp : pm.pieces[i]? with
  | none => rfl
  | some p =>
    refine mapM_eq_map fun k hk => ?_
    obtain ⟨len, hlen⟩ := Piece.blockLength_unreceived hk
    simp only [Piece.blockLength?_eq (h.pieces i p hp), hlen]
    rfl

theorem receiveBlock?_eq (h : pm.Sound)
    (hsize : pm.bitfield.data.length = Bitfield.divCeil pm.bitfield.pieces Bitfield.bitsPerByte)
    (sha1 : Sha1) (range : BlockRange) (data : Bytes) :
    pm.receiveBlock? sha1 range data = some (pm.receiveBlock sha1 range data) := by
  unfold receiveBlock? receiveBlock
  by_cases hlen : data.length = range.len
  · by_cases haligned : range.pieceOffset % blockSize = 0
    · simp only [hlen, haligned, ne_eq, not_true_eq_false, if_false]
      cases hp : pm.pieces[range.pieceIndex]? with
      | none => rfl
      | some p =>
        simp only [Piece.receiveBlock?_eq (h.pieces _ p hp), Bitfield.setBit?_eq hsize,
          Option.bind_eq_bind, Option.bind_some]
        rcases p.receiveBlock sha1 (range.pieceOffset / blockSize) data with ⟨result, p'⟩
        cases result with
        | error e => rfl
        | ok r =>
          cases r with
          | none => rfl
          | some buffer => cases pm.bitfield.setBit range.pieceIndex <;> rfl
    · simp [hlen, haligned]
  · simp [hlen]

end PieceManager

end Tortue
