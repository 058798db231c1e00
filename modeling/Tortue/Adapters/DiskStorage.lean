import Tortue.Collections.Segments
import Tortue.Domain.Message
import Mathlib.Algebra.BigOperators.Group.List.Basic
import Tortue.Domain.Parsing

namespace Tortue

open Collections

inductive IoErrorKind where
  | invalidInput
  | unexpectedEof
  | other
  deriving DecidableEq, Repr

structure IoError where
  kind : IoErrorKind
  message : String
  deriving DecidableEq, Repr

def checkedAdd (a b : Nat) : Option Nat := if a + b < 2 ^ 64 then some (a + b) else none

def checkedMul (a b : Nat) : Option Nat := if a * b < 2 ^ 64 then some (a * b) else none

structure OutputFile where
  file : Bytes
  length : Nat
  offset : Nat
  deriving DecidableEq

-- `reply` names the task that waits for the answer.
inductive DiskCommand where
  | write (offset : Nat) (data : Bytes)
  | read (offset len reply : Nat)
  | flush
  deriving DecidableEq

structure DiskStorage where
  pieceLength : Nat
  pieceCount : Nat
  totalSize : Nat
  deriving DecidableEq

namespace DiskStorage

def new (metainfo : Metainfo) : DiskStorage where
  pieceLength := metainfo.pieceLength
  pieceCount := metainfo.pieces.length
  totalSize := metainfo.totalSize

def invalidRange : IoError := ⟨.invalidInput, "block range outside torrent or overflowing"⟩

def storageOffset (st : DiskStorage) (range : BlockRange) : Except IoError Nat :=
  match checkedAdd range.pieceOffset range.len with
  | none => .error invalidRange
  | some pieceEnd =>
    if range.pieceIndex ≥ st.pieceCount ∨ range.len = 0 ∨ pieceEnd > st.pieceLength then
      .error invalidRange
    else
      match (checkedMul range.pieceIndex st.pieceLength).bind fun start =>
          checkedAdd start range.pieceOffset with
      | none => .error invalidRange
      | some offset =>
        match checkedAdd offset range.len with
        | none => .error invalidRange
        | some stop => if stop > st.totalSize then .error invalidRange else .ok offset

def write (st : DiskStorage) (range : BlockRange) (data : Bytes) : Except IoError DiskCommand :=
  if data.length ≠ range.len then
    .error ⟨.invalidInput, "write length does not match block range"⟩
  else (st.storageOffset range).map fun offset => .write offset data

def writeAt (file : Bytes) (offset : Nat) (data : Bytes) : Bytes :=
  file.takeD offset 0 ++ data ++ file.drop (offset + data.length)

def writeToFile (offset : Nat) (data : Bytes) (file : OutputFile) : OutputFile :=
  let writeEnd := wrap (offset + data.length)
  let fileStart := file.offset
  let fileEnd := wrap (file.offset + file.length)
  if offset ≥ fileEnd ∨ writeEnd ≤ fileStart then file
  else
    let writeStart := max offset fileStart
    let writeEnd := min writeEnd fileEnd
    let bufferStart := writeStart - offset
    let len := writeEnd - writeStart
    let content := writeAt file.file (writeStart - fileStart) ((data.drop bufferStart).take len)
    { file with file := content }

def writeToFiles (files : List OutputFile) (offset : Nat) (data : Bytes) : List OutputFile :=
  files.map (writeToFile offset data)

def readFrom (file : Bytes) (offset len : Nat) : Bytes := (file.drop offset).take len

def readLoop (offset readEnd : Nat) : List OutputFile → Bytes → Except IoError Bytes
  | [], buffer => .ok buffer
  | file :: files, buffer =>
    match checkedAdd file.offset file.length with
    | none => .error ⟨.other, "file range overflow"⟩
    | some fileEnd =>
      let start := max offset file.offset
      let stop := min readEnd fileEnd
      if start ≥ stop then readLoop offset readEnd files buffer
      else
        let expected := stop - start
        let data := readFrom file.file (start - file.offset) expected
        if data.length ≠ expected then .ok (buffer ++ data)
        else readLoop offset readEnd files (buffer ++ data)

def readFromFiles (files : List OutputFile) (offset len : Nat) : Except IoError Bytes :=
  match checkedAdd offset len with
  | none => .error ⟨.other, "read range overflow"⟩
  | some readEnd => readLoop offset readEnd files []

inductive Error where
  | io (e : IoError)
  | pathTraversal
  | invalidFile
  deriving DecidableEq, Repr

-- `found` is the regular file at the entry's path, if there is one.
def openFile (found : Option Bytes) (length : Nat) : Except Error Bytes :=
  match found with
  | none => .ok (List.replicate length 0)
  | some content =>
    if content.length > length then .error .invalidFile
    else .ok (content ++ List.replicate (length - content.length) 0)

def createEntries (found : Nat → Option Bytes) :
    Nat → Nat → List Nat → Except Error (List OutputFile)
  | _, _, [] => .ok []
  | i, offset, length :: lengths => do
    let file ← openFile (found i) length
    let files ← createEntries found (i + 1) (wrap (offset + length)) lengths
    return ⟨file, length, offset⟩ :: files

def createFiles (m : Metainfo) (found : Nat → Option Bytes) : Except Error (List OutputFile) :=
  createEntries found 0 0 m.fileLengths

-- What the operating system may answer, with whatever the files then contain.
structure Fault where
  error : IoError
  files : List OutputFile

inductive Reply where
  | read (reply : Nat) (result : Except IoError Bytes)
  | flush (result : Except IoError Unit)

structure Worker where
  files : List OutputFile
  queue : List DiskCommand
  running : Bool

namespace Worker

def stop (files : List OutputFile) : Worker := ⟨files, [], false⟩

def execute (fault : Option Fault) (isClosed : Nat → Bool) (w : Worker) :
    DiskCommand → Worker × Option Reply
  | .write offset data =>
    match fault with
    | some fault => (stop fault.files, none)
    | none => ({ w with files := writeToFiles w.files offset data }, none)
  | .read offset len reply =>
    if isClosed reply then (w, none)
    else
      match fault with
      | some fault => (w, some (.read reply (.error fault.error)))
      | none => (w, some (.read reply (readFromFiles w.files offset len)))
  | .flush =>
    match fault with
    | some fault => (stop fault.files, some (.flush (.error fault.error)))
    | none => (w, some (.flush (.ok ())))

def next (fault : Option Fault) (isClosed : Nat → Bool) (w : Worker) : Worker × Option Reply :=
  match w.queue with
  | [] => (w, none)
  | cmd :: queue => execute fault isClosed { w with queue } cmd

end Worker

theorem checkedAdd_eq_some {a b c : Nat} :
    checkedAdd a b = some c ↔ a + b < 2 ^ 64 ∧ c = a + b := by
  unfold checkedAdd
  split_ifs with h
  · simp only [Option.some.injEq, h, true_and, eq_comm]
  · simp only [h, false_and]

theorem checkedMul_eq_some {a b c : Nat} :
    checkedMul a b = some c ↔ a * b < 2 ^ 64 ∧ c = a * b := by
  unfold checkedMul
  split_ifs with h
  · simp only [Option.some.injEq, h, true_and, eq_comm]
  · simp only [h, false_and]

theorem storageOffset_ok {st : DiskStorage} {range : BlockRange} {offset : Nat}
    (h : st.storageOffset range = .ok offset) :
    range.pieceIndex < st.pieceCount ∧ 0 < range.len ∧
      range.pieceOffset + range.len ≤ st.pieceLength ∧
      offset = range.pieceIndex * st.pieceLength + range.pieceOffset ∧
      offset + range.len ≤ st.totalSize ∧ offset + range.len < 2 ^ 64 := by
  unfold storageOffset at h
  split at h
  · contradiction
  · next pieceEnd hend =>
    obtain ⟨-, rfl⟩ := checkedAdd_eq_some.mp hend
    split_ifs at h with hcond
    split at h
    · contradiction
    · next start hstart =>
      obtain ⟨base, hbase, hadd⟩ := Option.bind_eq_some_iff.mp hstart
      obtain ⟨-, rfl⟩ := checkedMul_eq_some.mp hbase
      obtain ⟨-, rfl⟩ := checkedAdd_eq_some.mp hadd
      split at h
      · contradiction
      · next stop hstop =>
        obtain ⟨hlt, rfl⟩ := checkedAdd_eq_some.mp hstop
        split_ifs at h with hfit
        rw [Except.ok.injEq] at h
        omega

theorem storageOffset_ok_iff {st : DiskStorage} (hsize : st.totalSize < 2 ^ 64)
    {range : BlockRange} {offset : Nat} : st.storageOffset range = .ok offset ↔
      range.pieceIndex < st.pieceCount ∧ 0 < range.len ∧
        range.pieceOffset + range.len ≤ st.pieceLength ∧
        offset = range.pieceIndex * st.pieceLength + range.pieceOffset ∧
        offset + range.len ≤ st.totalSize := by
  constructor
  · intro h
    obtain ⟨hindex, hlen, hpiece, hoffset, hfit, -⟩ := storageOffset_ok h
    exact ⟨hindex, hlen, hpiece, hoffset, hfit⟩
  · rintro ⟨hindex, hlen, hpiece, rfl, hfit⟩
    have hend : checkedAdd range.pieceOffset range.len =
        some (range.pieceOffset + range.len) := checkedAdd_eq_some.mpr ⟨by omega, rfl⟩
    have hbase : checkedMul range.pieceIndex st.pieceLength =
        some (range.pieceIndex * st.pieceLength) := checkedMul_eq_some.mpr ⟨by omega, rfl⟩
    have hstart : checkedAdd (range.pieceIndex * st.pieceLength) range.pieceOffset =
        some (range.pieceIndex * st.pieceLength + range.pieceOffset) :=
      checkedAdd_eq_some.mpr ⟨by omega, rfl⟩
    have hstop : checkedAdd (range.pieceIndex * st.pieceLength + range.pieceOffset) range.len =
        some (range.pieceIndex * st.pieceLength + range.pieceOffset + range.len) :=
      checkedAdd_eq_some.mpr ⟨by omega, rfl⟩
    unfold storageOffset
    rw [hend, hbase]
    simp only [Option.bind_some, hstart, hstop]
    rw [if_neg (by omega), if_neg (by omega)]

end DiskStorage

def OutputFile.segment (f : OutputFile) : Segment UInt8 := ⟨f.offset, f.file⟩

namespace DiskStorage

def bytes (files : List OutputFile) : Bytes := Segment.contents (files.map OutputFile.segment)

structure Laid (m : Metainfo) (files : List OutputFile) : Prop where
  lengths : files.map OutputFile.length = m.fileLengths
  sized : ∀ f ∈ files, f.file.length = f.length
  contiguous : Segment.Contiguous 0 (files.map OutputFile.segment)

variable {m : Metainfo} {files : List OutputFile}

theorem length_openFile {found : Option Bytes} {length : Nat} {file : Bytes}
    (h : openFile found length = .ok file) : file.length = length := by
  cases found with
  | none =>
    rw [openFile, Except.ok.injEq] at h
    rw [← h, List.length_replicate]
  | some content =>
    simp only [openFile] at h
    split_ifs at h with hlong
    rw [Except.ok.injEq] at h
    rw [← h, List.length_append, List.length_replicate]
    omega

theorem createEntries_laid {found : Nat → Option Bytes} {lengths : List Nat} {i offset : Nat}
    (h : createEntries found i offset lengths = .ok files) (hsum : offset + lengths.sum < 2 ^ 64) :
    files.map OutputFile.length = lengths ∧ (∀ f ∈ files, f.file.length = f.length) ∧
      Segment.Contiguous offset (files.map OutputFile.segment) := by
  induction lengths generalizing i offset files with
  | nil =>
    obtain rfl : [] = files := Except.ok.inj h
    exact ⟨rfl, by simp, trivial⟩
  | cons length lengths ih =>
    rw [List.sum_cons] at hsum
    simp only [createEntries, Except.bind_eq_ok] at h
    obtain ⟨file, hfile, rest, hrest, h⟩ := h
    obtain rfl := Except.ok.inj h
    have hlength := length_openFile hfile
    rw [wrap_of_lt (by omega)] at hrest
    obtain ⟨hlengths, hsized, hcontiguous⟩ := ih hrest (by omega)
    refine ⟨by rw [List.map_cons, hlengths], ?_, rfl, ?_⟩
    · intro f hf
      rcases List.mem_cons.mp hf with rfl | hf
      · exact hlength
      · exact hsized f hf
    · have hend : (OutputFile.segment ⟨file, length, offset⟩).content.length = length := hlength
      rw [hend]
      exact hcontiguous

theorem createFiles_laid {found : Nat → Option Bytes} (h : createFiles m found = .ok files)
    (hsum : m.fileLengths.sum < 2 ^ 64) : Laid m files := by
  obtain ⟨hlengths, hsized, hcontiguous⟩ := createEntries_laid h (by omega)
  exact ⟨hlengths, hsized, hcontiguous⟩

theorem Laid.length_bytes (h : Laid m files) : (bytes files).length = m.fileLengths.sum := by
  unfold bytes Segment.contents
  rw [List.length_flatMap, List.map_map, ← h.lengths]
  congr 1
  exact List.map_congr_left fun f hf => h.sized f hf

theorem Laid.file_end (h : Laid m files) {f : OutputFile} (hf : f ∈ files) :
    f.offset + f.length ≤ m.fileLengths.sum := by
  have hbound := Segment.contiguous_end h.contiguous (List.mem_map_of_mem hf)
  rw [← h.length_bytes, ← h.sized f hf]
  simpa [bytes, OutputFile.segment] using hbound

theorem writeAt_eq_splice {file data : Bytes} {offset : Nat} (h : offset ≤ file.length) :
    writeAt file offset data = splice file offset data := by
  unfold writeAt splice
  rw [List.takeD_eq_take _ h]

theorem segment_writeToFile {f : OutputFile} {offset : Nat} {data : Bytes}
    (hsized : f.file.length = f.length) (hfile : f.offset + f.length < 2 ^ 64)
    (hdata : offset + data.length < 2 ^ 64) :
    (writeToFile offset data f).segment = f.segment.overlay offset data := by
  unfold writeToFile Segment.overlay
  simp only [wrap_of_lt hfile, wrap_of_lt hdata, OutputFile.segment, hsized]
  split_ifs with hskip
  · have hempty : window data (f.offset - offset) (f.length - (offset - f.offset)) = [] := by
      refine List.eq_nil_of_length_eq_zero ?_
      unfold window
      rw [List.length_take, List.length_drop]
      omega
    rw [hempty, splice_nil]
  · have hstart : max offset f.offset - f.offset = offset - f.offset := by omega
    have hbuffer : max offset f.offset - offset = f.offset - offset := by omega
    have hlen : min (f.length - (offset - f.offset)) (data.length - (f.offset - offset)) =
        min (offset + data.length) (f.offset + f.length) - max offset f.offset := by omega
    rw [hstart, hbuffer, writeAt_eq_splice (by omega), window_clip data, hlen]
    rfl

theorem map_writeToFiles (h : Laid m files) (hsum : m.fileLengths.sum < 2 ^ 64) {offset : Nat}
    {data : Bytes} (hfit : offset + data.length ≤ m.fileLengths.sum) :
    (writeToFiles files offset data).map OutputFile.segment =
      (files.map OutputFile.segment).map (Segment.overlay offset data) := by
  unfold writeToFiles
  rw [List.map_map, List.map_map]
  refine List.map_congr_left fun f hf => ?_
  have hend := h.file_end hf
  exact segment_writeToFile (h.sized f hf) (by omega) (by omega)

theorem length_writeToFile (offset : Nat) (data : Bytes) (f : OutputFile) :
    (writeToFile offset data f).length = f.length := by
  unfold writeToFile
  dsimp only
  split_ifs
  · rfl
  · rfl

theorem bytes_writeToFiles (h : Laid m files) (hsum : m.fileLengths.sum < 2 ^ 64) {offset : Nat}
    {data : Bytes} (hfit : offset + data.length ≤ m.fileLengths.sum) :
    bytes (writeToFiles files offset data) = splice (bytes files) offset data := by
  have hlength := h.length_bytes
  unfold bytes at hlength ⊢
  rw [map_writeToFiles h hsum hfit, Segment.contents_overlay h.contiguous (by omega)]
  rw [Nat.sub_zero, Nat.zero_sub, List.drop_zero]

theorem Laid.writeToFiles (h : Laid m files) (hsum : m.fileLengths.sum < 2 ^ 64) {offset : Nat}
    {data : Bytes} (hfit : offset + data.length ≤ m.fileLengths.sum) :
    Laid m (writeToFiles files offset data) := by
  have hsegments := map_writeToFiles h hsum hfit
  have hlength := length_writeToFile offset data
  refine ⟨?_, fun f hf => ?_, ?_⟩
  · unfold DiskStorage.writeToFiles
    rw [List.map_map, ← h.lengths]
    exact List.map_congr_left fun f _ => hlength f
  · obtain ⟨g, hg, rfl⟩ := List.mem_map.mp hf
    have hend := h.file_end hg
    have hseg := segment_writeToFile (h.sized g hg) (by omega : g.offset + g.length < 2 ^ 64)
      (by omega : offset + data.length < 2 ^ 64)
    have hsize := congrArg (fun s : Segment UInt8 => s.content.length) hseg
    simp only [Segment.length_overlay, OutputFile.segment] at hsize
    rw [hsize, hlength, h.sized g hg]
  · rw [hsegments]
    exact Segment.contiguous_overlay h.contiguous offset data

def writeToOne (files : List OutputFile) (k offset : Nat) (data : Bytes) : List OutputFile :=
  files.modify k (writeToFile offset data)

theorem map_writeToOne (h : Laid m files) (hsum : m.fileLengths.sum < 2 ^ 64) {k offset : Nat}
    {data : Bytes} (hfit : offset + data.length ≤ m.fileLengths.sum) :
    (writeToOne files k offset data).map OutputFile.segment =
      (files.map OutputFile.segment).modify k (Segment.overlay offset data) := by
  refine List.ext_getElem? fun i => ?_
  rw [writeToOne, List.getElem?_map, List.getElem?_modify, List.getElem?_modify,
    List.getElem?_map, Option.map_eq_map, Option.map_eq_map, Option.map_map, Option.map_map]
  refine Option.map_congr fun f hf => ?_
  rw [Function.comp_apply, Function.comp_apply]
  split_ifs with hk
  · have hmem : f ∈ files := List.mem_of_getElem? hf
    have hend := h.file_end hmem
    exact segment_writeToFile (h.sized f hmem) (by omega) (by omega)
  · rfl

theorem Laid.writeToOne (h : Laid m files) (hsum : m.fileLengths.sum < 2 ^ 64) {k offset : Nat}
    {data : Bytes} (hfit : offset + data.length ≤ m.fileLengths.sum) :
    Laid m (writeToOne files k offset data) := by
  have hsegments := map_writeToOne h hsum (k := k) hfit
  refine ⟨?_, fun f hf => ?_, ?_⟩
  · rw [← h.lengths]
    refine List.ext_getElem? fun i => ?_
    rw [DiskStorage.writeToOne, List.getElem?_map, List.getElem?_modify, List.getElem?_map,
      Option.map_eq_map, Option.map_map]
    refine Option.map_congr fun f _ => ?_
    rw [Function.comp_apply]
    split_ifs
    · exact length_writeToFile offset data f
    · rfl
  · obtain ⟨i, hi⟩ := List.getElem?_of_mem hf
    rw [DiskStorage.writeToOne, List.getElem?_modify, Option.map_eq_map,
      Option.map_eq_some_iff] at hi
    obtain ⟨g, hg, rfl⟩ := hi
    have hmem := List.mem_of_getElem? hg
    have hsize := h.sized g hmem
    split_ifs
    · have hend := h.file_end hmem
      have hseg := congrArg (fun s : Segment UInt8 => s.content.length)
        (segment_writeToFile hsize (by omega : g.offset + g.length < 2 ^ 64)
          (by omega : offset + data.length < 2 ^ 64))
      simp only [Segment.length_overlay, OutputFile.segment] at hseg
      rw [hseg, length_writeToFile, hsize]
    · exact hsize
  · rw [hsegments]
    exact Segment.contiguous_modify h.contiguous k offset data

theorem window_writeToOne (h : Laid m files) (hsum : m.fileLengths.sum < 2 ^ 64) {k offset : Nat}
    {data : Bytes} (hfit : offset + data.length ≤ m.fileLengths.sum) {from' len : Nat}
    (hapart : from' + len ≤ offset ∨ offset + data.length ≤ from') :
    window (bytes (writeToOne files k offset data)) from' len =
      window (bytes files) from' len := by
  unfold bytes
  rw [map_writeToOne h hsum hfit]
  exact Segment.window_contents_modify h.contiguous k offset data hapart

theorem readLoop_eq {offset readEnd : Nat} {files : List OutputFile}
    (hsized : ∀ f ∈ files, f.file.length = f.length)
    (hfile : ∀ f ∈ files, f.offset + f.length < 2 ^ 64) (buffer : Bytes) :
    readLoop offset readEnd files buffer = .ok (buffer ++
      (files.map OutputFile.segment).flatMap (Segment.part offset readEnd)) := by
  induction files generalizing buffer with
  | nil => simp [readLoop]
  | cons f files ih =>
    have hsize := hsized f (List.mem_cons_self ..)
    have hend : checkedAdd f.offset f.length = some (f.offset + f.length) :=
      checkedAdd_eq_some.mpr ⟨hfile f (List.mem_cons_self ..), rfl⟩
    have hrest := fun b => ih (fun g hg => hsized g (List.mem_cons_of_mem _ hg))
      (fun g hg => hfile g (List.mem_cons_of_mem _ hg)) b
    have hpart : readFrom f.file (max offset f.offset - f.offset)
        (min readEnd (f.offset + f.length) - max offset f.offset) =
          Segment.part offset readEnd f.segment := by
      unfold Segment.part OutputFile.segment
      rw [hsize]
      rfl
    unfold readLoop
    simp only [hend, List.map_cons, List.flatMap_cons]
    split_ifs with hskip hshort
    · have hnil : Segment.part offset readEnd f.segment = [] := by
        rw [← hpart]
        unfold readFrom
        rw [Nat.sub_eq_zero_of_le hskip, List.take_zero]
      rw [hrest, hnil, List.nil_append]
    · refine absurd ?_ hshort
      unfold readFrom
      rw [List.length_take, List.length_drop]
      omega
    · rw [hrest, hpart, List.append_assoc]

theorem readFromFiles_eq (h : Laid m files) (hsum : m.fileLengths.sum < 2 ^ 64) {offset len : Nat}
    (hfit : offset + len ≤ m.fileLengths.sum) :
    readFromFiles files offset len = .ok (window (bytes files) offset len) := by
  have hend : checkedAdd offset len = some (offset + len) :=
    checkedAdd_eq_some.mpr ⟨by omega, rfl⟩
  unfold readFromFiles
  simp only [hend]
  rw [readLoop_eq h.sized fun f hf => by
    have hfile := h.file_end hf
    omega]
  rw [List.nil_append, Segment.parts_eq_window h.contiguous, Nat.sub_zero, Nat.max_eq_left
    (Nat.zero_le _), Nat.add_sub_cancel_left]
  rfl

end DiskStorage

end Tortue
