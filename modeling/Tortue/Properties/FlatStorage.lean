import Tortue.Adapters.DiskStorage
import Tortue.Domain.Swarm.Frame

namespace Tortue

open Collections

namespace DiskStorage

inductive Access where
  | write (offset : Nat) (data : Bytes)
  | read (offset len : Nat)

def Access.Within (size : Nat) : Access → Prop
  | .write offset data => offset + data.length ≤ size
  | .read offset len => offset + len ≤ size

def access (files : List OutputFile) : Access → List OutputFile × List (Except IoError Bytes)
  | .write offset data => (writeToFiles files offset data, [])
  | .read offset len => (files, [readFromFiles files offset len])

def flatAccess (flat : Bytes) : Access → Bytes × List (Except IoError Bytes)
  | .write offset data => (splice flat offset data, [])
  | .read offset len => (flat, [.ok (window flat offset len)])

def latest (flat : Bytes) (i : Nat) : List Access → Option UInt8
  | [] => flat[i]?
  | .write offset data :: earlier =>
    if offset ≤ i ∧ i < offset + data.length then data[i - offset]? else latest flat i earlier
  | .read _ _ :: earlier => latest flat i earlier

variable {m : Metainfo} {files : List OutputFile}

theorem access_refines (h : Laid m files) (hsum : m.fileLengths.sum < 2 ^ 64) {a : Access}
    (ha : a.Within m.fileLengths.sum) :
    Laid m (access files a).1 ∧ bytes (access files a).1 = (flatAccess (bytes files) a).1 ∧
      (access files a).2 = (flatAccess (bytes files) a).2 := by
  cases a with
  | write offset data =>
    exact ⟨h.writeToFiles hsum ha, bytes_writeToFiles h hsum ha, rfl⟩
  | read offset len =>
    refine ⟨h, rfl, ?_⟩
    simp only [access, flatAccess, readFromFiles_eq h hsum ha]

theorem run_refines (h : Laid m files) (hsum : m.fileLengths.sum < 2 ^ 64) {as : List Access}
    (has : ∀ a ∈ as, a.Within m.fileLengths.sum) :
    Laid m (History.run access files as).1 ∧
      bytes (History.run access files as).1 = (History.run flatAccess (bytes files) as).1 ∧
      (History.run access files as).2 = (History.run flatAccess (bytes files) as).2 := by
  induction as generalizing files with
  | nil => exact ⟨h, rfl, rfl⟩
  | cons a as ih =>
    obtain ⟨hlaid, hbytes, houtputs⟩ := access_refines h hsum (has a (List.mem_cons_self ..))
    have hrest := ih hlaid fun b hb => has b (List.mem_cons_of_mem _ hb)
    rw [hbytes] at hrest
    simp only [History.run, houtputs]
    exact ⟨hrest.1, hrest.2.1, by rw [hrest.2.2]⟩

theorem latest_flatAccess {flat : Bytes} {a : Access} (ha : a.Within flat.length) (i : Nat) :
    (flatAccess flat a).1[i]? = latest flat i [a] := by
  cases a with
  | write offset data => exact getElem?_splice ha i
  | read offset len => rfl

theorem length_flatAccess {flat : Bytes} {a : Access} (ha : a.Within flat.length) :
    (flatAccess flat a).1.length = flat.length := by
  cases a with
  | write offset data => exact length_splice ha
  | read offset len => rfl

theorem latest_append {flat next : Bytes} {older newer : List Access}
    (h : ∀ i, next[i]? = latest flat i older) (i : Nat) :
    latest next i newer = latest flat i (newer ++ older) := by
  induction newer with
  | nil => exact h i
  | cons a newer ih =>
    cases a with
    | write offset data => simp only [List.cons_append, latest, ih]
    | read offset len => exact ih

theorem run_latest {flat : Bytes} {as : List Access} (has : ∀ a ∈ as, a.Within flat.length)
    (i : Nat) : (History.run flatAccess flat as).1[i]? = latest flat i as.reverse := by
  induction as generalizing flat with
  | nil => rfl
  | cons a as ih =>
    have hnow := has a (List.mem_cons_self ..)
    have hlater : ∀ b ∈ as, b.Within (flatAccess flat a).1.length := by
      intro b hb
      rw [length_flatAccess hnow]
      exact has b (List.mem_cons_of_mem _ hb)
    rw [History.run, ih hlater, List.reverse_cons]
    exact latest_append (latest_flatAccess hnow) i

theorem files_refine_flat {found : Nat → Option Bytes} (hfiles : createFiles m found = .ok files)
    (hsum : m.fileLengths.sum < 2 ^ 64) {as : List Access}
    (has : ∀ a ∈ as, a.Within m.fileLengths.sum) :
    (History.run access files as).1.map (fun f => f.file.length) = m.fileLengths ∧
    (∀ i, (bytes (History.run access files as).1)[i]? = latest (bytes files) i as.reverse) ∧
    (History.run access files as).2 = (History.run flatAccess (bytes files) as).2 ∧
    (∀ offset data, offset + data.length ≤ m.fileLengths.sum →
      bytes (writeToFiles (History.run access files as).1 offset data) =
        splice (bytes (History.run access files as).1) offset data) ∧
    ∀ offset len, offset + len ≤ m.fileLengths.sum → ∃ data,
      readFromFiles (History.run access files as).1 offset len = .ok data ∧ data.length = len ∧
        ∀ i < len, data[i]? = latest (bytes files) (offset + i) as.reverse := by
  have hlaid := createFiles_laid hfiles hsum
  obtain ⟨hrun, hbytes, houtputs⟩ := run_refines hlaid hsum has
  have hlatest : ∀ i, (bytes (History.run access files as).1)[i]? =
      latest (bytes files) i as.reverse := by
    intro i
    rw [hbytes]
    exact run_latest (fun a ha => by rw [hlaid.length_bytes]; exact has a ha) i
  refine ⟨?_, hlatest, houtputs, fun offset data hfit => bytes_writeToFiles hrun hsum hfit,
    fun offset len hfit => ⟨_, readFromFiles_eq hrun hsum hfit, ?_, fun i hi => ?_⟩⟩
  · rw [← hrun.lengths]
    exact List.map_congr_left hrun.sized
  · exact length_window (by rw [hrun.length_bytes]; exact hfit)
  · rw [getElem?_window, if_pos hi, hlatest]

end DiskStorage

namespace Sample

def threeFiles : Metainfo :=
  { metainfo with mode := .multiple [⟨2, ["a"]⟩, ⟨0, ["b"]⟩, ⟨3, ["c"]⟩] }

def blankFiles : List OutputFile := [⟨[0, 0], 2, 0⟩, ⟨[], 0, 2⟩, ⟨[0, 0, 0], 3, 2⟩]

theorem blankFiles_created :
    DiskStorage.createFiles threeFiles (fun _ => none) = .ok blankFiles := rfl

end Sample

namespace DiskStorage

theorem straddling_write_read_back :
    (History.run access Sample.blankFiles [.write 1 [7, 8, 9]]).1.map (fun f => f.file.length) =
      Sample.threeFiles.fileLengths ∧
    (∀ i, (bytes (History.run access Sample.blankFiles [.write 1 [7, 8, 9]]).1)[i]? =
      latest (bytes Sample.blankFiles) i [.write 1 [7, 8, 9]]) ∧
    (History.run access Sample.blankFiles [.write 1 [7, 8, 9]]).2 =
      (History.run flatAccess (bytes Sample.blankFiles) [.write 1 [7, 8, 9]]).2 ∧
    (∀ offset data, offset + data.length ≤ Sample.threeFiles.fileLengths.sum →
      bytes (writeToFiles (History.run access Sample.blankFiles [.write 1 [7, 8, 9]]).1 offset
        data) = splice (bytes (History.run access Sample.blankFiles [.write 1 [7, 8, 9]]).1) offset
          data) ∧
    ∀ offset len, offset + len ≤ Sample.threeFiles.fileLengths.sum → ∃ data,
      readFromFiles (History.run access Sample.blankFiles [.write 1 [7, 8, 9]]).1 offset len =
          .ok data ∧ data.length = len ∧
        ∀ i < len, data[i]? =
          latest (bytes Sample.blankFiles) (offset + i) [.write 1 [7, 8, 9]] :=
  files_refine_flat Sample.blankFiles_created (by decide) (by simp [Access.Within]; decide)

end DiskStorage

end Tortue
