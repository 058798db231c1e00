import Tortue.Adapters.OnDisk
import Tortue.Domain.Swarm.Announcements

namespace Tortue

open Collections PieceManager

namespace DiskStorage

variable {m : Metainfo} {files : List OutputFile}

theorem openFile_again {file : Bytes} : openFile (some file) file.length = .ok file := by
  simp [openFile]

theorem createEntries_again {found : Nat → Option Bytes} {k offset : Nat}
    (hsized : ∀ f ∈ files, f.file.length = f.length)
    (hcontiguous : Segment.Contiguous offset (files.map OutputFile.segment))
    (hsum : offset + (files.map OutputFile.length).sum < 2 ^ 64)
    (hfound : ∀ j f, files[j]? = some f → found (k + j) = some f.file) :
    createEntries found k offset (files.map OutputFile.length) = .ok files := by
  induction files generalizing k offset with
  | nil => rfl
  | cons f files ih =>
    obtain ⟨hstart, hrest⟩ := hcontiguous
    have hsize := hsized f (List.mem_cons_self ..)
    have hfile : found k = some f.file := hfound 0 f rfl
    rw [List.map_cons, List.sum_cons] at hsum
    have hend : offset + f.segment.content.length = offset + f.length := by rw [← hsize]; rfl
    rw [hend] at hrest
    have hagain := ih (k := k + 1) (fun g hg => hsized g (List.mem_cons_of_mem _ hg)) hrest
      (by omega) fun j g hg => by
        have hj := hfound (j + 1) g hg
        rwa [show k + (j + 1) = k + 1 + j by omega] at hj
    have hopen : openFile (found k) f.length = .ok f.file := by
      rw [hfile, ← hsize]
      exact openFile_again
    simp only [List.map_cons, createEntries, hopen, wrap_of_lt (show offset + f.length < 2 ^ 64 by
      omega), hagain, bind, Except.bind, pure, Except.pure]
    have hoffset : f.offset = offset := hstart
    rw [← hoffset]

theorem createFiles_again (h : Laid m files) (hsum : m.fileLengths.sum < 2 ^ 64) :
    createFiles m (fun i => (files[i]?).map OutputFile.file) = .ok files := by
  unfold createFiles
  rw [← h.lengths]
  refine createEntries_again h.sized h.contiguous ?_ fun j f hf => ?_
  · rw [h.lengths]
    omega
  · rw [Nat.zero_add, hf]
    rfl

end DiskStorage

-- A write of which Tokio still has the part for one file: `write_all` returns before it is done,
-- and only the next operation on that file, or a flush, waits for it.
structure Outstanding where
  file : Nat
  offset : Nat
  len : Nat
  deriving DecidableEq

namespace Outstanding

def reaches (offset len : Nat) (f : OutputFile) : Bool :=
  decide (offset < wrap (f.offset + f.length) ∧ f.offset < wrap (offset + len))

def reached (files : List OutputFile) (offset len : Nat) : List Nat :=
  (List.range files.length).filter fun k => files[k]?.any (reaches offset len)

def begun (files : List OutputFile) (offset len : Nat) : List Outstanding :=
  (reached files offset len).map fun file => ⟨file, offset, len⟩

-- A read waits for the write too; what it settles is left out here.
def after (files : List OutputFile) (late : List Outstanding) : SwarmIo.Effect → List Outstanding
  | .executed (.write offset data) =>
    late.filter (fun w => w.file ∉ reached files offset data.length) ++
      begun files offset data.length
  | .executed .flush => []
  | _ => late

-- Any bytes may be left where a write was lost, the old ones and the new ones included.
def lose (loss : Outstanding → Bytes) (files : List OutputFile) (w : Outstanding) :
    List OutputFile :=
  DiskStorage.writeToOne files w.file w.offset ((loss w).takeD w.len 0)

end Outstanding

structure Life where
  io : SwarmIo
  late : List Outstanding

namespace Life

open SwarmIo

-- The process may also be killed in the middle of the write that the worker is at.
def inHand (life : Life) : List Outstanding :=
  match life.io.worker.queue with
  | .write offset data :: _ => Outstanding.begun life.io.worker.files offset data.length
  | _ => []

def crashed (loss : Outstanding → Bytes) (life : Life) : List OutputFile :=
  (life.late ++ life.inHand).foldl (Outstanding.lose loss) life.io.worker.files

def restart (sha1 : Sha1) (env : Entropy) (clientId : PeerId) (loss : Outstanding → Bytes)
    (life : Life) : Option Life := do
  let found := life.crashed loss
  let files ← (DiskStorage.createFiles life.io.metainfo fun i =>
    (found[i]?).map OutputFile.file).toOption
  let fresh ← SwarmIo.new clientId life.io.metainfo files
  let io ← (fresh.restore sha1 env).toOption
  return ⟨io, []⟩

inductive Move where
  | loop (move : SwarmIo.Move)
  | restart (clientId : PeerId) (loss : Outstanding → Bytes)

def Move.faultless : Move → Bool
  | .loop move => move.faultless
  | .restart _ _ => true

def step (sha1 : Sha1) (life : Life) (i : Move × Entropy) : Life × List Effect :=
  match i.1 with
  | .loop move =>
    let (io, effects) := life.io.step sha1 (move, i.2)
    (⟨io, effects.foldl (Outstanding.after life.io.worker.files) life.late⟩, effects)
  | .restart clientId loss => ((life.restart sha1 i.2 clientId loss).getD life, [])

def Born (sha1 : Sha1) (m : Metainfo) (life : Life) : Prop :=
  ∃ clientId, Started sha1 clientId m life.io ∧ life.late = []

end Life

namespace SwarmIo

variable {sha1 : Sha1} {env : Entropy} {clientId : PeerId} {m : Metainfo} {io : SwarmIo}
  {files : List OutputFile}

theorem awaitRead_whole (hd : m.Divided) (hstore : io.pieceStore = .new m)
    (hlaid : DiskStorage.Laid m io.worker.files) {i : Nat} (hi : i < m.pieces.length) :
    ∃ data, io.awaitRead (wholeRange m i) = .ok data := by
  have hfit := hd.piece_fits hi (hd.pieces i hi).1
  have hoffset : io.pieceStore.storageOffset (wholeRange m i) = .ok (i * m.pieceLength) := by
    rw [hstore]
    refine (DiskStorage.storageOffset_ok_iff hd.small).mpr ⟨hi, ?_, ?_, rfl, ?_⟩ <;>
      simp only [wholeRange, DiskStorage.new] <;> omega
  refine ⟨window (DiskStorage.bytes io.worker.files) (i * m.pieceLength) (wholeRange m i).len, ?_⟩
  unfold awaitRead
  rw [hoffset]
  exact DiskStorage.readFromFiles_eq hlaid (hd.total ▸ hd.small)
    (hd.total ▸ hfit.2.2 : i * m.pieceLength + (wholeRange m i).len ≤ m.fileLengths.sum)

theorem restoreLoop_succeeds (io : SwarmIo) (k i : Nat) (hmeta : io.metainfo = m)
    (hreads : ∀ j, i ≤ j → j < i + k → ∃ data, io.awaitRead (wholeRange m j) = .ok data) :
    ∃ io', restoreLoop sha1 env (List.range' i k) (m.totalSize - i * m.pieceLength) io =
      .ok io' := by
  induction k generalizing i io with
  | zero => exact ⟨io, rfl⟩
  | succ k ih =>
    subst hmeta
    obtain ⟨data, hdata⟩ := hreads i (Nat.le_refl _) (by omega)
    have hremaining : io.metainfo.totalSize - i * io.metainfo.pieceLength -
        min (io.metainfo.totalSize - i * io.metainfo.pieceLength) io.metainfo.pieceLength =
          io.metainfo.totalSize - (i + 1) * io.metainfo.pieceLength := by
      rw [Nat.succ_mul]
      omega
    unfold wholeRange at hdata
    rw [List.range'_succ]
    unfold restoreLoop
    simp only [hdata, hremaining]
    exact ih { io with swarm := (io.swarm.step sha1 (.localPiece i data, env)).1 } (i + 1) rfl
      fun j hij hj => hreads j (by omega) (by omega)

theorem new_succeeds {s : Swarm} (h : Swarm.Reachable sha1 clientId m s) (clientId' : PeerId)
    (files : List OutputFile) : ∃ fresh, SwarmIo.new clientId' m files = some fresh := by
  have hpieces : ∃ pm, PieceManager.new m = some pm := by
    obtain ⟨trace, hist⟩ := h
    refine hist.invariant (P := fun _ => ∃ pm, PieceManager.new m = some pm) (fun s hs => ?_)
      fun _ _ h => h
    obtain ⟨pieces, hnew, -⟩ := Swarm.started_eq hs
    exact ⟨pieces, hnew⟩
  obtain ⟨pm, hpm⟩ := hpieces
  refine Option.isSome_iff_exists.mp ?_
  simp [SwarmIo.new, Swarm.new, hpm]

theorem new_fields {fresh : SwarmIo} (h : SwarmIo.new clientId m files = some fresh) :
    fresh.metainfo = m ∧ fresh.pieceStore = .new m ∧ fresh.worker.files = files := by
  unfold SwarmIo.new at h
  obtain ⟨swarm, -, hfresh⟩ := Option.bind_eq_some_iff.mp h
  rw [Option.pure_def, Option.some.injEq] at hfresh
  subst hfresh
  exact ⟨rfl, rfl, rfl⟩

theorem restore_succeeds (hd : m.Divided) (hlaid : DiskStorage.Laid m files) {fresh : SwarmIo}
    (hnew : SwarmIo.new clientId m files = some fresh) (env : Entropy) :
    ∃ io, fresh.restore sha1 env = .ok io := by
  obtain ⟨hmeta, hstore, hfiles⟩ := new_fields hnew
  unfold restore
  rw [hmeta, List.range_eq_range']
  have hloop := @restoreLoop_succeeds sha1 env m fresh m.pieces.length 0 hmeta fun j _ hj =>
      awaitRead_whole hd hstore (hfiles ▸ hlaid) (by omega)
  rwa [Nat.zero_mul, Nat.sub_zero] at hloop

end SwarmIo

end Tortue
