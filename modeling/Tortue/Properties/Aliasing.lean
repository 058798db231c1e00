import Tortue.Adapters.UnixFiles
import Tortue.Domain.Swarm.Frame
import Mathlib.Data.List.Nodup

namespace Tortue.CreateFiles

open Unix

def Separate (outs : List (OpenFile Nat)) : Prop :=
  outs.Pairwise fun a b => a.file ≠ b.file ∧ ∀ (fs : FileSystem) (offset : Nat) (data : Bytes),
    (fs.writeAt a.file offset data).content b.file = fs.content b.file ∧
      (fs.writeAt b.file offset data).content a.file = fs.content a.file

theorem separate_iff (outs : List (OpenFile Nat)) :
    Separate outs ↔ (outs.map OpenFile.file).Nodup := by
  rw [Separate, List.Nodup, List.pairwise_map]
  refine ⟨List.Pairwise.imp And.left, List.Pairwise.imp ?_⟩
  intro a b hne
  exact ⟨hne, fun fs offset data =>
    ⟨FileSystem.content_writeAt hne offset data, FileSystem.content_writeAt hne.symm offset data⟩⟩

theorem Created.nodup_iff {dir base : Location} {fs fs' : FileSystem} {files : List File}
    {outs : List (OpenFile Nat)} (h : Created dir base fs fs' files outs) (hdir : dir <+: base) :
    (outs.map OpenFile.file).Nodup ↔ (files.map fun f => (entryPath f).names).Nodup := by
  have hunique : Relator.BiUnique fun (names : List Name) (i : Nat) =>
      fs'.entry (base ++ names) = some (.file i) := by
    refine ⟨fun a b i ha hb => ?_, fun a i j hi hj => ?_⟩
    · exact List.append_cancel_left (h.unlinked _ _ i (hdir.trans (List.prefix_append _ _))
        (hdir.trans (List.prefix_append _ _)) ha hb)
    · cases hi.symm.trans hj
      rfl
  refine (List.rel_nodup hunique ?_).symm
  rw [List.forall₂_map_left_iff, List.forall₂_map_right_iff]
  exact h.placed

theorem files_separate_iff (m : Metainfo) (files : List File) (root : Path) (fs : FileSystem)
    (outs : List (OpenFile Nat)) (t : Session FileSystem) (hm : m.mode = .multiple files)
    (hroot : EmptyDirectory fs root) (h : createFiles unix m root ⟨fs, []⟩ = (.ok outs, t)) :
    Separate outs ↔ (files.map entryNames).Nodup := by
  obtain ⟨dir, u, hu, hdir, -, hentries⟩ := createFiles_started hm hroot h
  rw [separate_iff, (createEntries_unix hu hdir hentries).nodup_iff hdir,
    map_entryPath_names (createEntries_relative hentries)]

namespace Sample

def volume : FileSystem where
  cwd := []
  entry := fun loc => if loc = [] then some .dir else none
  content := fun _ => []
  next := 0
  inode_lt := by
    intro loc i h
    split_ifs at h
    cases h

def here : Path := [46]

def torrent (files : List File) : Metainfo where
  name := "n"
  announce := []
  comment := none
  createdBy := none
  createdAt := none
  urlList := none
  infoBytes := []
  infoHash := Sample.octets 0
  pieceLength := 10
  pieces := []
  mode := .multiple files

def twins : Bytes :=
  ByteStr "d8:announce1:u4:infod5:filesl" ++ ByteStr "d6:lengthi2e4:pathl1:aee" ++
    ByteStr "d6:lengthi3e4:pathl1:aeee4:name1:n12:piece lengthi10e6:pieces20:" ++
    List.replicate 20 0 ++ ByteStr "ee"

end Sample

theorem volume_empty : EmptyDirectory Sample.volume Sample.here := by
  refine ⟨[], rfl, rfl, ?_⟩
  intro loc _ hne
  exact if_neg hne

theorem two_names_separate :
    ∃ outs t, createFiles unix (Sample.torrent [⟨2, ["a"]⟩, ⟨3, ["b"]⟩]) Sample.here
        ⟨Sample.volume, []⟩ = (.ok outs, t) ∧ outs.length = 2 ∧ Separate outs := by
  have hrun : (createFiles unix (Sample.torrent [⟨2, ["a"]⟩, ⟨3, ["b"]⟩]) Sample.here
      ⟨Sample.volume, []⟩).1 = .ok [⟨0, 2, 0⟩, ⟨1, 3, 2⟩] := by
    decide +kernel
  have hok : createFiles unix (Sample.torrent [⟨2, ["a"]⟩, ⟨3, ["b"]⟩]) Sample.here
      ⟨Sample.volume, []⟩ = (.ok _, _) := Prod.ext hrun rfl
  refine ⟨_, _, hok, rfl, ?_⟩
  exact (files_separate_iff _ _ _ _ _ _ rfl volume_empty hok).mpr (by decide +kernel)

theorem repeated_path_shares_file :
    ¬ ∀ (sha1 : Sha1) (data : Bytes) (m : Metainfo) (files : List File) (root : Path)
      (fs : FileSystem) (outs : List (OpenFile Nat)) (t : Session FileSystem),
      Metainfo.tryFrom sha1 data = .ok m → m.mode = .multiple files → EmptyDirectory fs root →
        createFiles unix m root ⟨fs, []⟩ = (.ok outs, t) → Separate outs := by
  intro hall
  have hchecked : (Metainfo.tryFrom Sample.sha1 Sample.twins).toOption.any (fun m =>
      decide (m.name = "n" ∧ m.mode = .multiple [⟨2, ["a"]⟩, ⟨3, ["a"]⟩])) = true := by
    decide +kernel
  obtain ⟨m, hm, hname⟩ := Except.exists_ok hchecked
  obtain ⟨hname, hmode⟩ := of_decide_eq_true hname
  have hrun : (createFiles unix m Sample.here ⟨Sample.volume, []⟩).1 =
      .ok [⟨0, 2, 0⟩, ⟨0, 3, 2⟩] := by
    rw [createFiles, hname, hmode]
    decide +kernel
  have hok : createFiles unix m Sample.here ⟨Sample.volume, []⟩ = (.ok _, _) :=
    Prod.ext hrun rfl
  have hseparate := hall _ _ m _ _ _ _ _ hm hmode volume_empty hok
  rw [separate_iff] at hseparate
  exact absurd hseparate (by decide)

end Tortue.CreateFiles
