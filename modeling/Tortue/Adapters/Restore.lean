import Tortue.Adapters.SwarmIo
import Tortue.Domain.Swarm.LocalPieces
import Tortue.Domain.Swarm.Progress

namespace Tortue

open Collections

namespace Metainfo

open PieceManager

structure Divided (m : Metainfo) : Prop where
  small : m.totalSize < 2 ^ 64
  total : m.totalSize = m.fileLengths.sum
  pieces : ∀ i < m.pieces.length,
    pieceLengthAt m i = some (min (m.totalSize - i * m.pieceLength) m.pieceLength) ∧
      i * m.pieceLength < m.totalSize ∧ 0 < m.pieceLength

theorem pieces_pos {m : Metainfo} (h : m.validate = .ok ()) : 0 < m.pieces.length := by
  have hbound := ((validate_ok_iff m).mp h).1
  rcases Nat.eq_zero_or_pos m.pieces.length with hzero | hpos
  · simp [hzero, wrap] at hbound
  · exact hpos

theorem divided_of_reachesLast {m : Metainfo} (hvalid : m.validate = .ok ())
    (hsum : m.fileLengths.sum < 2 ^ 64) (hlast : m.ReachesLast) : Divided m := by
  have htotal : m.totalSize = m.fileLengths.sum := totalSize_eq_sum hsum
  have hbound : m.totalSize < m.pieceLength * m.pieces.length :=
    lt_of_lt_of_le ((validate_ok_iff m).mp hvalid).1 (Nat.mod_le _ _)
  have hpos : 0 < m.pieceLength * m.pieces.length := Nat.zero_lt_of_lt hbound
  have hpl : 0 < m.pieceLength := Nat.pos_of_mul_pos_right hpos
  obtain ⟨n, hn⟩ := Nat.exists_eq_succ_of_ne_zero (Nat.pos_of_mul_pos_left hpos).ne'
  have hsmall : m.totalSize < 2 ^ 64 := htotal ▸ hsum
  refine ⟨hsmall, htotal, fun i hi => ?_⟩
  unfold ReachesLast at hlast
  rw [hn] at hlast hbound hi
  rw [Nat.mul_comm, Nat.succ_mul] at hbound
  rw [Nat.succ_sub_one] at hlast
  have hle : i * m.pieceLength ≤ n * m.pieceLength := Nat.mul_le_mul_right _ (by omega)
  refine ⟨?_, by omega, hpl⟩
  rcases Nat.lt_or_ge i n with hin | hin
  · have hnext : (i + 1) * m.pieceLength ≤ n * m.pieceLength := Nat.mul_le_mul_right _ hin
    rw [Nat.succ_mul] at hnext
    rw [pieceLengthAt_full (by omega)]
    congr 1
    omega
  · have heq : i = n := by omega
    subst heq
    unfold pieceLengthAt
    rw [hn, if_pos (Nat.succ_sub_one i).symm, wrap_of_lt (by omega), if_pos hlast.le]
    congr 1
    omega

end Metainfo

def pieceBytes (m : Metainfo) (content : Bytes) (i : Nat) : Bytes :=
  window content (i * m.pieceLength) ((PieceManager.pieceLengthAt m i).getD 0)

theorem Metainfo.Divided.piece_fits {m : Metainfo} (h : m.Divided) {i len : Nat}
    (hi : i < m.pieces.length) (hlen : PieceManager.pieceLengthAt m i = some len) :
    0 < len ∧ len ≤ m.pieceLength ∧ i * m.pieceLength + len ≤ m.totalSize := by
  obtain ⟨hpiece, hstart, hpl⟩ := h.pieces i hi
  rw [hlen, Option.some.injEq] at hpiece
  omega

theorem length_pieceBytes {m : Metainfo} (h : m.Divided) {content : Bytes}
    (hc : content.length = m.totalSize) {i len : Nat} (hi : i < m.pieces.length)
    (hlen : PieceManager.pieceLengthAt m i = some len) : (pieceBytes m content i).length = len := by
  have hfit := h.piece_fits hi hlen
  unfold pieceBytes
  rw [hlen, Option.getD_some]
  exact length_window (by omega)

namespace SwarmIo

open PieceManager

variable {sha1 : Sha1} {env : Entropy} {m : Metainfo} {files : List OutputFile}

theorem awaitRead_offset {io : SwarmIo} {range : BlockRange} {data : Bytes}
    (h : io.awaitRead range = .ok data) : ∃ offset, io.pieceStore.storageOffset range = .ok offset ∧
      DiskStorage.readFromFiles io.worker.files offset range.len = .ok data := by
  unfold awaitRead at h
  cases hoffset : io.pieceStore.storageOffset range with
  | error e =>
    rw [hoffset] at h
    contradiction
  | ok offset =>
    rw [hoffset] at h
    exact ⟨offset, rfl, h⟩

theorem awaitRead_ok {io : SwarmIo} {range : BlockRange} {data : Bytes}
    (hstore : io.pieceStore = .new m) (hlaid : DiskStorage.Laid m io.worker.files)
    (hsum : m.fileLengths.sum < 2 ^ 64) (h : io.awaitRead range = .ok data) :
    0 < range.len ∧ data = window (DiskStorage.bytes io.worker.files)
      (range.pieceIndex * m.pieceLength + range.pieceOffset) range.len := by
  have htotal : m.totalSize = m.fileLengths.sum := Metainfo.totalSize_eq_sum hsum
  obtain ⟨offset, hoffset, hread⟩ := awaitRead_offset h
  rw [hstore] at hoffset
  obtain ⟨-, hlen, -, rfl, hfit, -⟩ := DiskStorage.storageOffset_ok hoffset
  simp only [DiskStorage.new] at hfit hread
  rw [DiskStorage.readFromFiles_eq hlaid hsum (by omega), Except.ok.injEq] at hread
  exact ⟨hlen, hread.symm⟩

def wholeRange (m : Metainfo) (i : Nat) : BlockRange :=
  ⟨i, 0, min (m.totalSize - i * m.pieceLength) m.pieceLength⟩

theorem restoreLoop_steps {k i : Nat} {io io' : SwarmIo}
    (h : restoreLoop sha1 env (List.range' i k) (m.totalSize - i * m.pieceLength) io = .ok io')
    (hmeta : io.metainfo = m) :
    (∀ j, i ≤ j → j < i + k → ∃ data, io.awaitRead (wholeRange m j) = .ok data) ∧
      ∃ swarm, io' = { io with swarm } ∧ ∀ P : Nat → Swarm → Prop, P i io.swarm →
        (∀ s j data, P j s → j < i + k → io.awaitRead (wholeRange m j) = .ok data →
          P (j + 1) (s.step sha1 (.localPiece j data, env)).1) → P (i + k) swarm := by
  induction k generalizing i io with
  | zero =>
    simp only [List.range'_zero, restoreLoop, Except.ok.injEq] at h
    exact ⟨fun j hij hj => by omega, io.swarm, h.symm, fun P hP _ => hP⟩
  | succ k ih =>
    subst hmeta
    rw [List.range'_succ] at h
    unfold restoreLoop at h
    simp only at h
    split at h
    · contradiction
    · next data hdata =>
      have hremaining : io.metainfo.totalSize - i * io.metainfo.pieceLength -
          min (io.metainfo.totalSize - i * io.metainfo.pieceLength) io.metainfo.pieceLength =
            io.metainfo.totalSize - (i + 1) * io.metainfo.pieceLength := by
        rw [Nat.succ_mul]
        omega
      have hend : i + (k + 1) = i + 1 + k := by omega
      rw [hremaining] at h
      obtain ⟨hrest, swarm, hio, hsteps⟩ := ih h rfl
      refine ⟨fun j hij hj => ?_, swarm, hio, fun P hP hstep => ?_⟩
      · rcases Nat.eq_or_lt_of_le hij with rfl | hlt
        · exact ⟨data, hdata⟩
        · exact hrest j hlt (by omega)
      · rw [hend] at hstep ⊢
        exact hsteps P (hstep _ i data hP (by omega) hdata) hstep

theorem wholeRange_reached {io : SwarmIo} {i : Nat} {data : Bytes}
    (hstore : io.pieceStore = .new m) (h : io.awaitRead (wholeRange m i) = .ok data) :
    0 < m.pieceLength ∧ i * m.pieceLength < m.totalSize ∧ i * m.pieceLength < 2 ^ 64 := by
  obtain ⟨offset, hoffset, -⟩ := awaitRead_offset h
  rw [hstore] at hoffset
  obtain ⟨-, hlen, -, rfl, hfit, hlt⟩ := DiskStorage.storageOffset_ok hoffset
  simp only [DiskStorage.new, wholeRange] at hlen hlt
  omega

theorem restore_steps {clientId : PeerId} {fresh io : SwarmIo}
    (hnew : SwarmIo.new clientId m files = some fresh)
    (hrestore : fresh.restore sha1 env = .ok io) :
    (∀ i < m.pieces.length, ∃ data, fresh.awaitRead (wholeRange m i) = .ok data) ∧
      ∃ swarm, io = { fresh with swarm } ∧ ∀ P : Nat → Swarm → Prop,
        (∀ s, Swarm.Started clientId m s → P 0 s) →
        (∀ s i data, P i s → i < m.pieces.length → fresh.awaitRead (wholeRange m i) = .ok data →
          P (i + 1) (s.step sha1 (.localPiece i data, env)).1) → P m.pieces.length swarm := by
  unfold SwarmIo.new at hnew
  obtain ⟨swarm, hswarm, hfresh⟩ := Option.bind_eq_some_iff.mp hnew
  rw [Option.pure_def, Option.some.injEq] at hfresh
  subst hfresh
  unfold restore at hrestore
  rw [List.range_eq_range'] at hrestore
  obtain ⟨hall, restored, hio, hsteps⟩ := restoreLoop_steps (m := m) (k := m.pieces.length) (i := 0)
    (by simpa using hrestore) rfl
  refine ⟨fun i hi => hall i (Nat.zero_le _) (by omega), restored, hio, fun P hP hstep => ?_⟩
  rw [Nat.zero_add] at hsteps
  exact hsteps P (hP _ hswarm) hstep

theorem started_steps {clientId : PeerId} {io : SwarmIo} (h : Started sha1 clientId m io) :
    ∃ files fresh env, DiskStorage.Laid m files ∧ SwarmIo.new clientId m files = some fresh ∧
      (∀ i < m.pieces.length, ∃ data, fresh.awaitRead (wholeRange m i) = .ok data) ∧
      ∃ swarm, io = { fresh with swarm } ∧ ∀ P : Swarm → Prop,
        (∀ s, Swarm.Started clientId m s → P s) →
        (∀ s i data, P s → i < m.pieces.length → fresh.awaitRead (wholeRange m i) = .ok data →
          P (s.step sha1 (.localPiece i data, env)).1) → P swarm := by
  obtain ⟨files, fresh, env, hlaid, hnew, hrestore⟩ := h
  obtain ⟨hall, swarm, hio, hsteps⟩ := restore_steps hnew hrestore
  exact ⟨files, fresh, env, hlaid, hnew, hall, swarm, hio, fun P => hsteps fun _ => P⟩

structure Restored (sha1 : Sha1) (clientId : PeerId) (m : Metainfo) (io : SwarmIo) : Prop where
  divided : m.Divided
  metainfo : io.metainfo = m
  store : io.pieceStore = .new m
  laid : DiskStorage.Laid m io.worker.files
  queue : io.worker.queue = []
  running : io.worker.running = true
  outputs : io.outputs = []
  reads : io.reads = .empty
  selecting : io.phase = .selecting
  reachable : Swarm.Reachable sha1 clientId m io.swarm
  matched : io.swarm.pieces.Matches sha1 (pieceBytes m (DiskStorage.bytes io.worker.files))

theorem started_reached {clientId : PeerId} {io : SwarmIo} (h : Started sha1 clientId m io) :
    m.Reached := by
  obtain ⟨files, fresh, env, -, hnew, hall, -⟩ := started_steps h
  unfold SwarmIo.new at hnew
  obtain ⟨swarm, -, hfresh⟩ := Option.bind_eq_some_iff.mp hnew
  rw [Option.pure_def, Option.some.injEq] at hfresh
  subst hfresh
  intro i hi
  obtain ⟨data, hdata⟩ := hall i hi
  exact wholeRange_reached rfl hdata

theorem restore_divided {clientId : PeerId} {fresh : SwarmIo} (hvalid : m.validate = .ok ())
    (hsum : m.fileLengths.sum < 2 ^ 64) (hnew : SwarmIo.new clientId m files = some fresh)
    (hall : ∀ i < m.pieces.length, ∃ data, fresh.awaitRead (wholeRange m i) = .ok data) :
    m.Divided := by
  unfold SwarmIo.new at hnew
  obtain ⟨swarm, -, hfresh⟩ := Option.bind_eq_some_iff.mp hnew
  rw [Option.pure_def, Option.some.injEq] at hfresh
  subst hfresh
  have hpos := Metainfo.pieces_pos hvalid
  obtain ⟨data, hlast⟩ := hall (m.pieces.length - 1) (by omega)
  exact Metainfo.divided_of_reachesLast hvalid hsum (wholeRange_reached rfl hlast).2.1

theorem restore_reads {clientId : PeerId} {fresh : SwarmIo} (hdivided : m.Divided)
    (hsum : m.fileLengths.sum < 2 ^ 64) (hlaid : DiskStorage.Laid m files)
    (hnew : SwarmIo.new clientId m files = some fresh) {i : Nat} (hi : i < m.pieces.length)
    {data : Bytes} (hdata : fresh.awaitRead (wholeRange m i) = .ok data) :
    data = pieceBytes m (DiskStorage.bytes files) i := by
  unfold SwarmIo.new at hnew
  obtain ⟨swarm, -, hfresh⟩ := Option.bind_eq_some_iff.mp hnew
  rw [Option.pure_def, Option.some.injEq] at hfresh
  subst hfresh
  obtain ⟨-, rfl⟩ := awaitRead_ok rfl hlaid hsum hdata
  rw [pieceBytes, (hdivided.pieces i hi).1, Option.getD_some]
  rfl

theorem started_restored {clientId : PeerId} {io : SwarmIo} (hvalid : m.validate = .ok ())
    (hsum : m.fileLengths.sum < 2 ^ 64) (h : Started sha1 clientId m io) :
    Restored sha1 clientId m io := by
  obtain ⟨files, fresh, env, hlaid, hnew, hall, restored, rfl, hsteps⟩ := started_steps h
  have hdivided := restore_divided hvalid hsum hnew hall
  have hsize : (DiskStorage.bytes files).length = m.totalSize :=
    hlaid.length_bytes.trans hdivided.total.symm
  have hpieces : ∀ s, Swarm.Reachable sha1 clientId m s → s.pieces.Sound := fun s hs =>
    hs.elim fun _ hist => Swarm.history_sound hist
  have hboth := hsteps (fun s => Swarm.Reachable sha1 clientId m s ∧
      s.pieces.Matches sha1 (pieceBytes m (DiskStorage.bytes files)))
    (fun s hs => ⟨History.reachable_start hs, matches_new (Swarm.started_fields hs).1
      fun i len hi hlen => length_pieceBytes hdivided hsize hi hlen⟩)
    fun s j data hs hj hdata => by
      refine ⟨hs.1.next _, ?_⟩
      rw [restore_reads hdivided hsum hlaid hnew hj hdata]
      exact Swarm.onLocalPiece_matches (hpieces s hs.1) hs.2 j
  unfold SwarmIo.new at hnew
  obtain ⟨swarm, -, hfresh⟩ := Option.bind_eq_some_iff.mp hnew
  rw [Option.pure_def, Option.some.injEq] at hfresh
  subst hfresh
  exact ⟨hdivided, rfl, rfl, hlaid, rfl, rfl, rfl, rfl, rfl, hboth.1, hboth.2⟩

end SwarmIo

end Tortue
