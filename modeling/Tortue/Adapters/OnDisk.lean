import Tortue.Adapters.Passages

namespace Tortue

open Collections PieceManager

structure Sealed (sha1 : Sha1) (m : Metainfo) (i : Nat) (w : Nat × Bytes) : Prop where
  index : i < m.pieces.length
  offset : w.1 = i * m.pieceLength
  length : pieceLengthAt m i = some w.2.length
  hash : m.pieces[i]? = some (sha1 w.2)

def Awaits (m : Metainfo) (pending : List (Nat × Bytes)) (i : Nat) : Prop :=
  ∃ data, (i * m.pieceLength, data) ∈ pending

structure OnDisk (sha1 : Sha1) (m : Metainfo) (pm : PieceManager) (files : List OutputFile)
    (pending : List (Nat × Bytes)) : Prop where
  whole : ∀ w ∈ pending, ∃ i, Sealed sha1 m i w
  once : pending.Pairwise fun w v => w.1 ≠ v.1
  complete : ∀ i < m.pieces.length, Awaits m pending i → pm.CompleteAt i
  held : ∀ i < m.pieces.length,
    SwarmIo.Holds sha1 m files i ↔ pm.CompleteAt i ∧ ¬ Awaits m pending i

variable {sha1 : Sha1} {m : Metainfo} {pm pm' : PieceManager} {files : List OutputFile}
  {pending rest : List (Nat × Bytes)}

theorem Sealed.wholePiece {i : Nat} {w : Nat × Bytes} (h : Sealed sha1 m i w) :
    WholePiece m ⟨i, 0, w.2.length⟩ w.2 :=
  ⟨h.index, rfl, rfl, h.length⟩

theorem Sealed.fits {i : Nat} {w : Nat × Bytes} (h : Sealed sha1 m i w) (hd : m.Divided) :
    w.1 + w.2.length ≤ m.fileLengths.sum := by
  have hfit := hd.piece_fits h.index h.length
  have hoffset := h.offset
  rw [← hd.total]
  omega

theorem Metainfo.Divided.offset_inj (hd : m.Divided) {i j : Nat} (hi : i < m.pieces.length)
    (h : i * m.pieceLength = j * m.pieceLength) : i = j :=
  Nat.eq_of_mul_eq_mul_right (hd.pieces i hi).2.2 h

theorem awaits_append {i : Nat} {w : Nat × Bytes} :
    Awaits m (pending ++ [w]) i ↔ Awaits m pending i ∨ w.1 = i * m.pieceLength := by
  simp only [Awaits, List.mem_append, List.mem_singleton]
  constructor
  · rintro ⟨data, hold | rfl⟩
    · exact .inl ⟨data, hold⟩
    · exact .inr rfl
  · rintro (⟨data, hold⟩ | hw)
    · exact ⟨data, .inl hold⟩
    · exact ⟨w.2, .inr (Prod.ext hw.symm rfl)⟩

theorem awaits_cons {i : Nat} {w : Nat × Bytes} :
    Awaits m (w :: rest) i ↔ Awaits m rest i ∨ w.1 = i * m.pieceLength := by
  simp only [Awaits, List.mem_cons]
  constructor
  · rintro ⟨data, rfl | hold⟩
    · exact .inr rfl
    · exact .inl ⟨data, hold⟩
  · rintro (⟨data, hold⟩ | hw)
    · exact ⟨data, .inr hold⟩
    · exact ⟨w.2, .inl (Prod.ext hw.symm rfl)⟩

namespace OnDisk

theorem quiet (h : OnDisk sha1 m pm files pending)
    (hsame : ∀ i, pm'.CompleteAt i ↔ pm.CompleteAt i) : OnDisk sha1 m pm' files pending :=
  ⟨h.whole, h.once, fun i hi hawaits => (hsame i).mpr (h.complete i hi hawaits), fun i hi => by
    rw [h.held i hi, hsame i]⟩

theorem handOut (h : OnDisk sha1 m pm files pending) (hd : m.Divided) {i : Nat} {w : Nat × Bytes}
    (hw : Sealed sha1 m i w) (hmissing : ¬ pm.CompleteAt i)
    (hcomplete : ∀ j, pm'.CompleteAt j ↔ pm.CompleteAt j ∨ i = j) :
    OnDisk sha1 m pm' files (pending ++ [w]) := by
  have hsame : ∀ j, w.1 = j * m.pieceLength ↔ i = j := by
    intro j
    rw [hw.offset]
    exact ⟨fun heq => hd.offset_inj hw.index heq, fun heq => heq ▸ rfl⟩
  refine ⟨fun v hv => ?_, ?_, fun j hj hawaits => ?_, fun j hj => ?_⟩
  · rcases List.mem_append.mp hv with hold | hnew
    · exact h.whole v hold
    · exact ⟨i, List.mem_singleton.mp hnew ▸ hw⟩
  · refine List.pairwise_append.mpr ⟨h.once, List.pairwise_singleton _ _, fun v hv u hu => ?_⟩
    rw [List.mem_singleton.mp hu]
    intro heq
    refine hmissing (h.complete i hw.index ⟨v.2, ?_⟩)
    rw [← hw.offset, ← heq]
    exact hv
  · rw [awaits_append, hsame] at hawaits
    rw [hcomplete]
    exact hawaits.imp_left (h.complete j hj)
  · rw [h.held j hj, hcomplete, awaits_append, hsame]
    by_cases hij : i = j
    · subst hij
      simp [hmissing]
    · simp [hij]

theorem pieceBytes_writeToFiles (hd : m.Divided) (hlaid : DiskStorage.Laid m files) {offset : Nat}
    {data : Bytes} (hfit : offset + data.length ≤ m.fileLengths.sum) (i : Nat) :
    pieceBytes m (DiskStorage.bytes (DiskStorage.writeToFiles files offset data)) i =
      pieceBytes m (splice (DiskStorage.bytes files) offset data) i := by
  rw [DiskStorage.bytes_writeToFiles hlaid (hd.total ▸ hd.small) hfit]

theorem pieceBytes_eq (hd : m.Divided) {j : Nat} (hj : j < m.pieces.length) (content : Bytes) :
    pieceBytes m content j = window content (j * m.pieceLength)
      (min (m.totalSize - j * m.pieceLength) m.pieceLength) := by
  unfold pieceBytes
  rw [(hd.pieces j hj).1, Option.getD_some]

theorem holds_other (hd : m.Divided) (hlaid : DiskStorage.Laid m files) {i j : Nat}
    {w : Nat × Bytes} (hw : Sealed sha1 m i w) (hj : j < m.pieces.length) (hne : i ≠ j) :
    SwarmIo.Holds sha1 m (DiskStorage.writeToFiles files w.1 w.2) j ↔
      SwarmIo.Holds sha1 m files j := by
  have hfit := hw.fits hd
  have hsize : (DiskStorage.bytes files).length = m.totalSize :=
    hlaid.length_bytes.trans hd.total.symm
  have happart := hd.pieces_apart hw.index hj hw.length (hd.pieces j hj).1 hne
  unfold SwarmIo.Holds
  rw [pieceBytes_writeToFiles hd hlaid hfit]
  have hsame : pieceBytes m (splice (DiskStorage.bytes files) w.1 w.2) j =
      pieceBytes m (DiskStorage.bytes files) j := by
    rw [pieceBytes_eq hd hj, pieceBytes_eq hd hj]
    refine window_splice_disjoint ?_ ?_
    · rw [hsize, hd.total]
      exact hfit
    · rw [hw.offset]
      exact happart
  rw [hsame]

theorem holds_writeToOne (sha1 : Sha1) (hd : m.Divided) (hlaid : DiskStorage.Laid m files)
    {i j : Nat}
    {data : Bytes} (hi : i < m.pieces.length) (hlength : pieceLengthAt m i = some data.length)
    (hj : j < m.pieces.length) (hne : i ≠ j) (k : Nat) :
    SwarmIo.Holds sha1 m (DiskStorage.writeToOne files k (i * m.pieceLength) data) j ↔
      SwarmIo.Holds sha1 m files j := by
  have hfit := hd.piece_fits hi hlength
  have happart := hd.pieces_apart hi hj hlength (hd.pieces j hj).1 hne
  unfold SwarmIo.Holds
  rw [pieceBytes_eq hd hj, pieceBytes_eq hd hj,
    DiskStorage.window_writeToOne hlaid (hd.total ▸ hd.small) ?_ (by omega)]
  rw [← hd.total]
  omega

theorem holds_self (hd : m.Divided) (hlaid : DiskStorage.Laid m files) {i : Nat} {w : Nat × Bytes}
    (hw : Sealed sha1 m i w) :
    SwarmIo.Holds sha1 m (DiskStorage.writeToFiles files w.1 w.2) i := by
  have hsize : (DiskStorage.bytes files).length = m.totalSize :=
    hlaid.length_bytes.trans hd.total.symm
  unfold SwarmIo.Holds
  rw [pieceBytes_writeToFiles hd hlaid (hw.fits hd), hw.offset]
  have hself := Intact.pieceBytes_splice_self hd hw.wholePiece hsize
  simp only at hself
  rw [hself]
  exact hw.hash

theorem store (hd : m.Divided) (hlaid : DiskStorage.Laid m files) {w : Nat × Bytes}
    (h : OnDisk sha1 m pm files (w :: rest)) :
    OnDisk sha1 m pm (DiskStorage.writeToFiles files w.1 w.2) rest := by
  obtain ⟨i, hw⟩ := h.whole w (List.mem_cons_self ..)
  obtain ⟨hfirst, honce⟩ := List.pairwise_cons.mp h.once
  refine ⟨fun v hv => h.whole v (List.mem_cons_of_mem _ hv), honce,
    fun j hj hawaits => h.complete j hj (awaits_cons.mpr (.inl hawaits)), fun j hj => ?_⟩
  by_cases hij : i = j
  · subst hij
    have hcomplete := h.complete i hj (awaits_cons.mpr (.inr hw.offset))
    refine iff_of_true (holds_self hd hlaid hw) ⟨hcomplete, ?_⟩
    rintro ⟨data, hdata⟩
    exact hfirst _ hdata hw.offset
  · have hother := holds_other hd hlaid hw hj hij
    have hoffset : ¬ w.1 = j * m.pieceLength := by
      rw [hw.offset]
      exact fun heq => hij (hd.offset_inj hw.index heq)
    rw [hother, h.held j hj, awaits_cons]
    simp only [hoffset, or_false]

end OnDisk

end Tortue
