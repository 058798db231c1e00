import Tortue.Adapters.Restore
import Tortue.Domain.Swarm.Uploads

namespace Tortue

open Collections PieceManager

structure Custody where
  pieces : PieceManager
  files : List OutputFile
  queue : List DiskCommand
  outputs : List Output
  reads : HashMap Nat ReadTask
  nextTask : Nat

def SwarmIo.custody (io : SwarmIo) : Custody :=
  ⟨io.swarm.pieces, io.worker.files, io.worker.queue, io.outputs, io.reads, io.nextTask⟩

def writesOf (queue : List DiskCommand) : List (Nat × Bytes) :=
  queue.filterMap fun
    | .write offset data => some (offset, data)
    | _ => none

def position (m : Metainfo) (range : BlockRange) : Nat :=
  range.pieceIndex * m.pieceLength + range.pieceOffset

def handedOut (m : Metainfo) (outputs : List Output) : List (Nat × Bytes) :=
  outputs.filterMap fun
    | .writePiece range data => some (position m range, data)
    | _ => none

namespace Custody

def settled (m : Metainfo) (c : Custody) : Bytes :=
  overwrite (DiskStorage.bytes c.files) (writesOf c.queue ++ handedOut m c.outputs)

end Custody

def Placed (m : Metainfo) (w : Nat × Bytes) : Prop :=
  ∃ i, i < m.pieces.length ∧ w.1 = i * m.pieceLength ∧ pieceLengthAt m i = some w.2.length

structure WholePiece (m : Metainfo) (range : BlockRange) (data : Bytes) : Prop where
  index : range.pieceIndex < m.pieces.length
  offset : range.pieceOffset = 0
  len : range.len = data.length
  length : pieceLengthAt m range.pieceIndex = some data.length

structure Readable (m : Metainfo) (pm : PieceManager) (range : BlockRange) : Prop where
  complete : pm.CompleteAt range.pieceIndex
  index : range.pieceIndex < m.pieces.length
  len : 0 < range.len
  within : ∃ len, pieceLengthAt m range.pieceIndex = some len ∧ range.pieceOffset + range.len ≤ len

def Honest (m : Metainfo) (settled : Bytes) (t : ReadTask) : Prop :=
  match t.state with
  | .unsent offset => offset = (DiskStorage.new m).storageOffset t.range
  | .finished (.ok data) => data = window settled (position m t.range) t.range.len
  | _ => True

theorem honest_finish {m : Metainfo} {settled data : Bytes} {t : ReadTask} :
    Honest m settled (t.finish (.ok data)) ↔
      data = window settled (position m t.range) t.range.len :=
  .rfl

structure Intact (sha1 : Sha1) (m : Metainfo) (c : Custody) : Prop where
  laid : DiskStorage.Laid m c.files
  queued : ∀ w ∈ writesOf c.queue, Placed m w
  handed : ∀ range data, .writePiece range data ∈ c.outputs → WholePiece m range data
  stored : ∀ i, c.pieces.CompleteAt i →
    m.pieces[i]? = some (sha1 (pieceBytes m (c.settled m) i))
  asked : ∀ id range, .readForUpload id range ∈ c.outputs → Readable m c.pieces range
  apart : ∀ range data, .writePiece range data ∈ c.outputs →
    (∀ id r, .readForUpload id r ∈ c.outputs → r.pieceIndex ≠ range.pieceIndex) ∧
      ∀ k t, c.reads.get k = some t → t.range.pieceIndex ≠ range.pieceIndex
  reads : ∀ k t, c.reads.get k = some t →
    k < c.nextTask ∧ Readable m c.pieces t.range ∧ Honest m (c.settled m) t
  answers : ∀ pre offset len k post, c.queue = pre ++ .read offset len k :: post →
    k < c.nextTask ∧ ∀ t, c.reads.get k = some t → (∀ r, t.state ≠ .unsent r) ∧
      offset = position m t.range ∧ len = t.range.len ∧
        window (overwrite (DiskStorage.bytes c.files) (writesOf pre)) offset len =
          window (c.settled m) offset len

section

variable {m : Metainfo}

theorem writesOf_append (l r : List DiskCommand) : writesOf (l ++ r) = writesOf l ++ writesOf r :=
  List.filterMap_append

theorem handedOut_append (l r : List Output) :
    handedOut m (l ++ r) = handedOut m l ++ handedOut m r := List.filterMap_append

theorem handedOut_silent {outputs : List Output}
    (h : ∀ range data, .writePiece range data ∉ outputs) : handedOut m outputs = [] := by
  refine List.eq_nil_iff_forall_not_mem.mpr fun w hw => ?_
  obtain ⟨o, ho, hsome⟩ := List.mem_filterMap.mp hw
  cases o with
  | writePiece range data => exact h range data ho
  | _ => contradiction

theorem placed_of_whole {range : BlockRange} {data : Bytes} (h : WholePiece m range data) :
    Placed m (position m range, data) := by
  refine ⟨range.pieceIndex, h.index, ?_, h.length⟩
  simp only [position, h.offset, Nat.add_zero]

theorem Metainfo.Divided.pieces_apart (hd : m.Divided) {i j len len' : Nat}
    (hi : i < m.pieces.length) (hj : j < m.pieces.length) (hlen : pieceLengthAt m i = some len)
    (hlen' : pieceLengthAt m j = some len') (hne : i ≠ j) :
    i * m.pieceLength + len ≤ j * m.pieceLength ∨ j * m.pieceLength + len' ≤ i * m.pieceLength := by
  have hfit := hd.piece_fits hi hlen
  have hfit' := hd.piece_fits hj hlen'
  rcases Nat.lt_or_gt_of_ne hne with hlt | hlt
  · have hle : (i + 1) * m.pieceLength ≤ j * m.pieceLength := Nat.mul_le_mul_right _ hlt
    rw [Nat.succ_mul] at hle
    omega
  · have hle : (j + 1) * m.pieceLength ≤ i * m.pieceLength := Nat.mul_le_mul_right _ hlt
    rw [Nat.succ_mul] at hle
    omega

theorem Placed.fits (hd : m.Divided) {w : Nat × Bytes} (h : Placed m w) :
    w.1 + w.2.length ≤ m.totalSize := by
  obtain ⟨i, hi, hw, hlen⟩ := h
  have hfit := hd.piece_fits hi hlen
  omega

theorem Readable.fits (hd : m.Divided) {pm : PieceManager} {range : BlockRange}
    (h : Readable m pm range) : position m range + range.len ≤ m.totalSize := by
  obtain ⟨len, hlen, hle⟩ := h.within
  have hfit := hd.piece_fits h.index hlen
  unfold position
  omega

theorem Readable.storageOffset (hd : m.Divided) {pm : PieceManager} {range : BlockRange}
    (h : Readable m pm range) :
    (DiskStorage.new m).storageOffset range = .ok (position m range) := by
  obtain ⟨len, hlen, hle⟩ := h.within
  have hfit := hd.piece_fits h.index hlen
  have htotal := h.fits hd
  refine (DiskStorage.storageOffset_ok_iff hd.small).mpr ⟨h.index, h.len, ?_, rfl, htotal⟩
  simp only [DiskStorage.new]
  omega

theorem Readable.mono {pm pm' : PieceManager} {range : BlockRange}
    (h : Readable m pm range) (hmono : ∀ i, pm.CompleteAt i → pm'.CompleteAt i) :
    Readable m pm' range :=
  ⟨hmono _ h.complete, h.index, h.len, h.within⟩

theorem WholePiece.storageOffset (hd : m.Divided) {range : BlockRange} {data : Bytes}
    (h : WholePiece m range data) :
    (DiskStorage.new m).storageOffset range = .ok (position m range) := by
  have hfit := hd.piece_fits h.index h.length
  refine (DiskStorage.storageOffset_ok_iff hd.small).mpr ⟨h.index, ?_, ?_, rfl, ?_⟩ <;>
    simp only [DiskStorage.new, position, h.offset, h.len] <;> omega

theorem WholePiece.write_ok (hd : m.Divided) {range : BlockRange} {data : Bytes}
    (h : WholePiece m range data) :
    (DiskStorage.new m).write range data = .ok (.write (position m range) data) := by
  unfold DiskStorage.write
  rw [if_neg (not_not_intro h.len.symm), h.storageOffset hd]
  rfl

theorem apart_of_ne (hd : m.Divided) {pm : PieceManager} {range : BlockRange}
    (h : Readable m pm range) {i : Nat} {data : Bytes} (hi : i < m.pieces.length)
    (hlen : pieceLengthAt m i = some data.length) (hne : range.pieceIndex ≠ i) :
    i * m.pieceLength + data.length ≤ position m range ∨
      position m range + range.len ≤ i * m.pieceLength := by
  obtain ⟨len, hrange, hle⟩ := h.within
  have happart := hd.pieces_apart h.index hi hrange hlen hne
  unfold position
  omega

end

namespace Intact

variable {sha1 : Sha1} {m : Metainfo} {c : Custody}

theorem length_bytes (h : Intact sha1 m c) (hd : m.Divided) :
    (DiskStorage.bytes c.files).length = m.totalSize :=
  h.laid.length_bytes.trans hd.total.symm

theorem placed (h : Intact sha1 m c) :
    ∀ w ∈ writesOf c.queue ++ handedOut m c.outputs, Placed m w := by
  intro w hw
  rcases List.mem_append.mp hw with hw | hw
  · exact h.queued w hw
  · obtain ⟨o, ho, hsome⟩ := List.mem_filterMap.mp hw
    cases o with
    | writePiece range data =>
      rw [Option.some.injEq] at hsome
      exact hsome ▸ placed_of_whole (h.handed range data ho)
    | _ => contradiction

theorem fits (h : Intact sha1 m c) (hd : m.Divided) {writes : List (Nat × Bytes)}
    (hw : ∀ w ∈ writes, Placed m w) : Fits (DiskStorage.bytes c.files).length writes := by
  intro w hin
  rw [h.length_bytes hd]
  exact (hw w hin).fits hd

theorem length_settled (h : Intact sha1 m c) (hd : m.Divided) :
    (c.settled m).length = m.totalSize :=
  (length_overwrite (h.fits hd h.placed)).trans (h.length_bytes hd)

theorem window_queue (h : Intact sha1 m c) (hd : m.Divided) {range : BlockRange}
    (hr : Readable m c.pieces range)
    (hapart : ∀ r data, .writePiece r data ∈ c.outputs → range.pieceIndex ≠ r.pieceIndex) :
    window (overwrite (DiskStorage.bytes c.files) (writesOf c.queue)) (position m range)
        range.len = window (c.settled m) (position m range) range.len := by
  have hfits := h.fits hd h.queued
  unfold Custody.settled
  rw [overwrite_append]
  refine (window_overwrite_disjoint ?_ fun w hw => ?_).symm
  · rw [length_overwrite hfits]
    exact h.fits hd fun w hw => h.placed w (List.mem_append_right _ hw)
  · obtain ⟨o, ho, hsome⟩ := List.mem_filterMap.mp hw
    cases o with
    | writePiece r data =>
      have hwhole := h.handed r data ho
      rw [Option.some.injEq] at hsome
      rw [← hsome]
      have hplace : position m r = r.pieceIndex * m.pieceLength := by
        simp only [position, hwhole.offset, Nat.add_zero]
      rw [hplace]
      exact apart_of_ne hd hr hwhole.index hwhole.length (hapart r data ho)
    | _ => contradiction

theorem restack (h : Intact sha1 m c) {outputs : List Output}
    (hwrites : handedOut m outputs = handedOut m c.outputs)
    (hsub : ∀ o ∈ outputs,
      o ∈ c.outputs ∨ ∃ x, o = .disconnectPeer x ∨ ∃ id, o = .cancelUploadRead id) :
    Intact sha1 m { c with outputs } := by
  have hwrite : ∀ range data, .writePiece range data ∈ outputs →
      .writePiece range data ∈ c.outputs := by
    intro range data hin
    rcases hsub _ hin with hin | ⟨x, hx | ⟨id, hx⟩⟩
    · exact hin
    · contradiction
    · contradiction
  have hread : ∀ id range, .readForUpload id range ∈ outputs →
      .readForUpload id range ∈ c.outputs := by
    intro id range hin
    rcases hsub _ hin with hin | ⟨x, hx | ⟨id, hx⟩⟩
    · exact hin
    · contradiction
    · contradiction
  have hsettled : Custody.settled m { c with outputs } = c.settled m := by
    unfold Custody.settled
    rw [hwrites]
  refine ⟨h.laid, h.queued, fun range data hin => h.handed range data (hwrite range data hin), ?_,
    fun id range hin => h.asked id range (hread id range hin), fun range data hin => ?_, ?_, ?_⟩
  · rw [hsettled]
    exact h.stored
  · obtain ⟨hreads, htasks⟩ := h.apart range data (hwrite range data hin)
    exact ⟨fun id r hr => hreads id r (hread id r hr), htasks⟩
  · rw [hsettled]
    exact h.reads
  · rw [hsettled]
    exact h.answers

end Intact

end Tortue
