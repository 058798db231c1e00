import Tortue.Domain.Bitfield
import Tortue.Domain.Message
import Tortue.Domain.Torrent

namespace Tortue

inductive BlockState where
  | missing
  | received (data : Bytes)
  deriving DecidableEq

def BlockState.data : BlockState → Bytes
  | .missing => []
  | .received data => data

inductive PieceState where
  | partialBlocks (blocks : List BlockState) (received : Nat)
  | complete
  deriving DecidableEq

structure Piece where
  length : Nat
  expectedHash : PieceHash
  state : PieceState
  deriving DecidableEq

inductive PieceError where
  | bitfield (e : Bitfield.Error)
  | invalidBlockSize (expected actual : Nat)
  | invalidBlockIndex (index : Nat)
  | invalidPieceIndex (index : Nat)
  | unalignedBlockOffset (offset : Nat)
  deriving DecidableEq, Repr

def verifyPieceHash (sha1 : Sha1) (expected : PieceHash) (buffer : Bytes) : Bool :=
  decide (sha1 buffer = expected)

namespace Piece

def new (expectedHash : PieceHash) (pieceLength : Nat) : Piece where
  length := pieceLength
  expectedHash := expectedHash
  state := .partialBlocks (List.replicate (Bitfield.divCeil pieceLength blockSize) .missing) 0

def unreceivedBlocks (p : Piece) : List Nat :=
  match p.state with
  | .partialBlocks blocks _ =>
    (List.range blocks.length).filter fun index => blocks[index]? = some .missing
  | .complete => []

def blockLength (p : Piece) (blockIndex : Nat) : Except PieceError Nat :=
  match p.state with
  | .complete => .ok 0
  | .partialBlocks blocks _ =>
    if blockIndex ≥ blocks.length then .error (.invalidBlockIndex blockIndex)
    else .ok (min (p.length - blockIndex * blockSize) blockSize)

def blocksTotal (p : Piece) : Nat := Bitfield.divCeil p.length blockSize

def blocksReceived (p : Piece) : Nat :=
  match p.state with
  | .partialBlocks _ received => received
  | .complete => p.blocksTotal

def isComplete (p : Piece) : Bool :=
  match p.state with
  | .partialBlocks _ _ => false
  | .complete => true

def isPartial (p : Piece) : Bool :=
  match p.state with
  | .partialBlocks _ received => received > 0
  | .complete => false

-- A missing block here is the source's `unreachable!`; it contributes nothing.
def buffer (p : Piece) : Option Bytes :=
  match p.state with
  | .partialBlocks blocks received =>
    if received ≠ blocks.length then none else some (blocks.flatMap BlockState.data)
  | .complete => none

def reset (p : Piece) : Piece :=
  match p.state with
  | .complete => p
  | .partialBlocks blocks _ =>
    { p with state := .partialBlocks (blocks.map fun _ => .missing) 0 }

def store (p : Piece) (blockIndex : Nat) (data : Bytes) : Piece :=
  match p.state with
  | .complete => p
  | .partialBlocks blocks received =>
    { p with state := .partialBlocks (blocks.set blockIndex (.received data)) (received + 1) }

def receiveBlock (sha1 : Sha1) (p : Piece) (blockIndex : Nat) (data : Bytes) :
    Except PieceError (Option Bytes) × Piece :=
  match p.state with
  | .complete => (.ok none, p)
  | .partialBlocks blocks _ =>
    match p.blockLength blockIndex with
    | .error e => (.error e, p)
    | .ok expectedLength =>
      if data.length ≠ expectedLength then
        (.error (.invalidBlockSize expectedLength data.length), p)
      else if blocks[blockIndex]? ≠ some .missing then (.ok none, p)
      else
        match (p.store blockIndex data).buffer with
        | none => (.ok none, p.store blockIndex data)
        | some buffer =>
          if !verifyPieceHash sha1 p.expectedHash buffer then
            (.ok none, (p.store blockIndex data).reset)
          else (.ok (some buffer), { p with state := .complete })

end Piece

structure CompletedPiece where
  range : BlockRange
  data : Bytes
  deriving DecidableEq

structure PieceManager where
  pieces : List Piece
  bitfield : Bitfield
  deriving DecidableEq

namespace PieceManager

def pieceLengthAt (metainfo : Metainfo) (i : Nat) : Option Nat :=
  if i = metainfo.pieces.length - 1 then
    let start := wrap (i * metainfo.pieceLength)
    if start ≤ metainfo.totalSize then some (metainfo.totalSize - start) else none
  else some metainfo.pieceLength

-- `none` when the last piece's subtraction underflows.
def new (metainfo : Metainfo) : Option PieceManager := do
  let pieces ← metainfo.pieces.zipIdx.mapM fun (hash, i) =>
    (pieceLengthAt metainfo i).map (Piece.new hash)
  return { pieces, bitfield := Bitfield.new metainfo.pieces.length }

def bitfieldBytes (pm : PieceManager) : Bytes := pm.bitfield.data

def unreceivedBlocks (pm : PieceManager) (pieceIndex : Nat) : List BlockRange :=
  match pm.pieces[pieceIndex]? with
  | none => []
  | some piece => piece.unreceivedBlocks.map fun blockIndex =>
    { pieceIndex
      pieceOffset := blockIndex * blockSize
      len := (piece.blockLength blockIndex).toOption.getD 0 }

def neededPieces (pm : PieceManager) : List Nat :=
  (List.range pm.pieces.length).filter fun i => (pm.pieces[i]?).any fun p => !p.isComplete

def isComplete (pm : PieceManager) : Bool := pm.pieces.all Piece.isComplete

def availableBytes (pm : PieceManager) : Nat :=
  ((pm.pieces.filter Piece.isComplete).map Piece.length).sum

def isPartial (pm : PieceManager) (pieceIndex : Nat) : Bool :=
  (pm.pieces[pieceIndex]?).any Piece.isPartial

def hasNoPiece (pm : PieceManager) : Bool := pm.pieces.all fun p => !p.isComplete

def blocksTotal (pm : PieceManager) : Nat := (pm.pieces.map Piece.blocksTotal).sum

def blocksReceived (pm : PieceManager) : Nat := (pm.pieces.map Piece.blocksReceived).sum

def receiveBlock (sha1 : Sha1) (pm : PieceManager) (range : BlockRange) (data : Bytes) :
    Except PieceError (Option CompletedPiece) × PieceManager :=
  if data.length ≠ range.len then (.error (.invalidBlockSize range.len data.length), pm)
  else if range.pieceOffset % blockSize ≠ 0 then
    (.error (.unalignedBlockOffset range.pieceOffset), pm)
  else
    match pm.pieces[range.pieceIndex]? with
    | none => (.error (.invalidPieceIndex range.pieceIndex), pm)
    | some p =>
      let (result, p') := p.receiveBlock sha1 (range.pieceOffset / blockSize) data
      let pm' := { pm with pieces := pm.pieces.set range.pieceIndex p' }
      match result with
      | .error e => (.error e, pm')
      | .ok none => (.ok none, pm')
      | .ok (some buffer) =>
        match pm'.bitfield.setBit range.pieceIndex with
        | .error e => (.error (.bitfield e), pm')
        | .ok bitfield =>
          (.ok (some { range := ⟨range.pieceIndex, 0, buffer.length⟩, data := buffer }),
            { pm' with bitfield })

def validUploadRange (pm : PieceManager) (range : BlockRange) : Bool :=
  (pm.pieces[range.pieceIndex]?).any fun piece =>
    piece.isComplete && range.len > 0 && range.len ≤ blockSize &&
      range.pieceOffset + range.len < 2 ^ 64 && range.pieceOffset + range.len ≤ piece.length

end PieceManager

end Tortue
