import Tortue.Adapters.CreateFiles

namespace Tortue.CreateFiles

open Unix

def unix : Os FileSystem Nat where
  createDirAll := FileSystem.createDirAll
  openNew := FileSystem.openNew
  openExisting := fun path fs => (fs.openExisting path, fs)
  metadata := fun file fs => (.ok ⟨true, (fs.content file).length⟩, fs)
  setLen := fun file length fs => (.ok (), fs.setLen file length)

variable {path : Path} {length : Nat} {s t : Session FileSystem}

theorem openFile_unix_cases (path : Path) (length : Nat) (s : Session FileSystem) :
    (∃ e, openFile unix path length s = (.error e, ⟨s.os, s.opened ++ [path]⟩)) ∨
      (∃ file, s.os.entry (s.os.locate path) = some (.file file) ∧
        (s.os.content file).length ≤ length ∧
        openFile unix path length s =
          (.ok file, ⟨s.os.setLen file length, s.opened ++ [path]⟩)) ∨
      s.os.entry (s.os.locate path) = none ∧
        openFile unix path length s =
          (.ok s.os.next,
            ⟨(s.os.addFile (s.os.locate path)).setLen s.os.next length, s.opened ++ [path]⟩) := by
  rw [openFile, record_bind, attempt_bind]
  obtain ⟨e, hnew⟩ | ⟨hnone, hnew⟩ := FileSystem.openNew_cases path s.os
  · rw [show unix.openNew path s.os = (.error e, s.os) from hnew]
    cases e with
    | alreadyExists =>
      cases hopen : s.os.openExisting path with
      | error e =>
        have hcall : unix.openExisting path s.os = (.error e, s.os) := by rw [← hopen]; rfl
        exact .inl ⟨.io e, call_bind_error _ hcall⟩
      | ok file =>
        have hcall : unix.openExisting path s.os = (.ok file, s.os) := by rw [← hopen]; rfl
        have hentry := FileSystem.openExisting_ok hopen
        by_cases hlen : (s.os.content file).length > length
        · exact .inl ⟨.invalidFile, (call_bind_ok _ hcall).trans (congrFun (if_pos hlen) _)⟩
        · exact .inr (.inl ⟨file, hentry, not_lt.mp hlen,
            (call_bind_ok _ hcall).trans (congrFun (if_neg hlen) _)⟩)
    | _ => exact .inl ⟨_, rfl⟩
  · rw [show unix.openNew path s.os = _ from hnew]
    exact .inr (.inr ⟨hnone, rfl⟩)

structure Opens (dir loc : Location) (length file : Nat) (fs fs' : FileSystem) : Prop where
  grows : FileSystem.Extends fs fs'
  entry : fs'.entry loc = some (.file file)
  unlinked : fs'.Unlinked dir
  opened : DiskStorage.openFile (fs.read loc) length = .ok (fs'.content file)
  others : ∀ loc', dir <+: loc' → loc' ≠ loc → fs'.read loc' = fs.read loc'

theorem opens_existing {dir loc : Location} {file : Nat} {fs : FileSystem}
    (hfs : fs.Unlinked dir) (hdir : dir <+: loc) (hentry : fs.entry loc = some (.file file))
    (hlen : (fs.content file).length ≤ length) :
    Opens dir loc length file fs (fs.setLen file length) where
  grows := ⟨rfl, fun _ _ h => h⟩
  entry := hentry
  unlinked := hfs.setContent file _
  opened := by
    rw [FileSystem.read_of_entry hentry, FileSystem.setLen, FileSystem.content_setContent,
      FileSystem.takeD_eq_append _ hlen]
    exact if_neg (not_lt.mpr hlen)
  others := fun loc' hdir' hne => hfs.read_setContent hdir hdir' hentry hne _

theorem opens_new {dir loc : Location} {fs : FileSystem} (length : Nat)
    (hfs : fs.Unlinked dir) (hdir : dir <+: loc) (hentry : fs.entry loc = none) :
    Opens dir loc length fs.next fs ((fs.addFile loc).setLen fs.next length) := by
  have hnew : (fs.addFile loc).entry loc = some (.file fs.next) := by
    rw [FileSystem.addFile_entry, if_pos rfl]
  have hempty : (fs.addFile loc).content fs.next = [] := Function.update_self _ _ _
  have hfs' : (fs.addFile loc).Unlinked dir := hfs.addFile
  exact
    { grows := (FileSystem.extends_addFile hentry).trans ⟨rfl, fun _ _ h => h⟩
      entry := hnew
      unlinked := hfs'.setContent fs.next _
      opened := by
        rw [FileSystem.setLen, FileSystem.content_setContent, hempty, List.takeD_nil,
          FileSystem.read, hentry]
        rfl
      others := by
        intro loc' hdir' hne
        rw [FileSystem.setLen, hfs'.read_setContent hdir hdir' hnew hne,
          FileSystem.read_addFile hne] }

theorem openFile_unix {dir : Location} {file : Nat} (hs : s.os.Unlinked dir)
    (hdir : dir <+: s.os.locate path) (h : openFile unix path length s = (.ok file, t)) :
    Opens dir (s.os.locate path) length file s.os t.os := by
  obtain ⟨e, hfail⟩ | ⟨i, hentry, hlen, hopen⟩ | ⟨hnone, hopen⟩ :=
    openFile_unix_cases path length s
  · rw [hfail] at h
    cases h
  · rw [hopen] at h
    cases h
    exact opens_existing hs hdir hentry hlen
  · rw [hopen] at h
    cases h
    exact opens_new length hs hdir hnone

theorem createParent_unix (path : Path) (s : Session FileSystem) :
    s.os.SameFiles (createParent unix path s).2.os := by
  rw [createParent]
  cases path.parent with
  | none => exact .refl s.os
  | some parent =>
    simp only
    rw [call_session]
    exact FileSystem.sameFiles_createDirAll parent s.os

theorem Opens.after {dir loc : Location} {file : Nat} {fs fs' fs'' : FileSystem}
    (hsame : fs.SameFiles fs') (h : Opens dir loc length file fs' fs'') :
    Opens dir loc length file fs fs'' where
  grows := hsame.toExtends.trans h.grows
  entry := h.entry
  unlinked := h.unlinked
  opened := hsame.read loc ▸ h.opened
  others := fun loc' hdir hne => (h.others loc' hdir hne).trans (hsame.read loc')

theorem createEntries_unix_cons {dir : Location} {base : Path} {offset : Nat} {f : File}
    {files : List File} {outs : List (OpenFile Nat)} (hs : s.os.Unlinked dir)
    (hdir : dir <+: s.os.locate base)
    (h : createEntries unix base offset (f :: files) s = (.ok outs, t)) :
    ∃ v file rest,
      Opens dir (s.os.locate base ++ (entryPath f).names) f.length file s.os v.os ∧
        createEntries unix base (wrap (offset + f.length)) files v = (.ok rest, t) ∧
        outs = ⟨file, f.length, offset⟩ :: rest := by
  obtain ⟨u, v, file, rest, habs, hup, hparent, hfile, hrest, rfl⟩ := createEntries_cons h
  have hsame := createParent_unix (base.join (entryPath f)) s
  rw [hparent] at hsame
  have hloc : u.os.locate (base.join (entryPath f)) =
      s.os.locate base ++ (entryPath f).names := by
    rw [hsame.toExtends.locate, s.os.locate_join base habs hup]
  have hopens := openFile_unix (hs.sameFiles hsame)
    (hloc ▸ hdir.trans (List.prefix_append _ _)) hfile
  exact ⟨v, file, rest, hloc ▸ hopens.after hsame, hrest, rfl⟩

structure Created (dir base : Location) (fs fs' : FileSystem) (files : List File)
    (outs : List (OpenFile Nat)) : Prop where
  grows : FileSystem.Extends fs fs'
  unlinked : fs'.Unlinked dir
  placed : List.Forall₂
    (fun f out => fs'.entry (base ++ (entryPath f).names) = some (.file out.file)) files outs

theorem createEntries_unix {dir : Location} {base : Path} {offset : Nat} {files : List File}
    {outs : List (OpenFile Nat)} (hs : s.os.Unlinked dir) (hdir : dir <+: s.os.locate base)
    (h : createEntries unix base offset files s = (.ok outs, t)) :
    Created dir (s.os.locate base) s.os t.os files outs := by
  induction files generalizing offset outs s with
  | nil =>
    cases h
    exact ⟨.refl _, hs, .nil⟩
  | cons f files ih =>
    obtain ⟨v, file, rest, hopens, hrest, rfl⟩ := createEntries_unix_cons hs hdir h
    have hentry := hopens.entry
    rw [← hopens.grows.locate base] at hdir hentry ⊢
    have hfiles := ih hopens.unlinked hdir hrest
    exact
      { grows := hopens.grows.trans hfiles.grows
        unlinked := hfiles.unlinked
        placed := .cons (hfiles.grows.entry _ _ hentry) hfiles.placed }

def OpenFile.flat (fs : FileSystem) (o : OpenFile Nat) : OutputFile :=
  ⟨fs.content o.file, o.length, o.offset⟩

theorem createEntries_flat {dir : Location} {base : Path} {offset i : Nat} {files : List File}
    {outs : List (OpenFile Nat)} {found : Nat → Option Bytes} (hs : s.os.Unlinked dir)
    (hdir : dir <+: s.os.locate base) (hnodup : (files.map fun f => (entryPath f).names).Nodup)
    (hfound : ∀ k f, files[k]? = some f →
      found (i + k) = s.os.read (s.os.locate base ++ (entryPath f).names))
    (h : createEntries unix base offset files s = (.ok outs, t)) :
    DiskStorage.createEntries found i offset (files.map File.length) =
        .ok (outs.map (OpenFile.flat t.os)) ∧
      ∀ loc, dir <+: loc → (∀ f ∈ files, loc ≠ s.os.locate base ++ (entryPath f).names) →
        t.os.read loc = s.os.read loc := by
  induction files generalizing offset i outs s with
  | nil =>
    cases h
    exact ⟨rfl, fun loc _ _ => rfl⟩
  | cons f files ih =>
    obtain ⟨v, file, rest, hopens, hrest, rfl⟩ := createEntries_unix_cons hs hdir h
    rw [List.map_cons, List.nodup_cons, List.mem_map, not_exists] at hnodup
    have hbase := hopens.grows.locate base
    have hdir' : dir <+: v.os.locate base := hbase ▸ hdir
    have hne : ∀ g ∈ files, s.os.locate base ++ (entryPath g).names ≠
        s.os.locate base ++ (entryPath f).names := by
      intro g hg heq
      exact hnodup.1 g ⟨hg, List.append_cancel_left heq⟩
    have hfound' : ∀ k g, files[k]? = some g →
        found (i + 1 + k) = v.os.read (v.os.locate base ++ (entryPath g).names) := by
      intro k g hg
      rw [hbase, hopens.others _ (hdir.trans (List.prefix_append _ _))
        (hne g (List.mem_of_getElem? hg)), ← hfound (k + 1) g hg]
      congr 1
      omega
    obtain ⟨hflat, hkeep⟩ := ih hopens.unlinked hdir' hnodup.2 hfound' hrest
    have hfiles := createEntries_unix hopens.unlinked hdir' hrest
    have hcontent : t.os.content file = v.os.content file := by
      have hread := hkeep (s.os.locate base ++ (entryPath f).names)
        (hdir.trans (List.prefix_append _ _)) (fun g hg => by rw [hbase]; exact (hne g hg).symm)
      rw [FileSystem.read_of_entry (hfiles.grows.entry _ _ hopens.entry),
        FileSystem.read_of_entry hopens.entry] at hread
      exact Option.some.inj hread
    refine ⟨?_, ?_⟩
    · have hopened := hopens.opened
      rw [← hfound 0 f rfl, Nat.add_zero, ← hcontent] at hopened
      rw [List.map_cons, DiskStorage.createEntries, hopened]
      simp only [bind, Except.bind, hflat]
      rfl
    · intro loc hloc hout
      rw [List.forall_mem_cons] at hout
      rw [hkeep loc hloc (hbase ▸ hout.2), hopens.others loc hloc hout.1]

def entryNames (f : File) : List Name := f.path.flatMap fun part => Path.names (utf8Bytes part)

def EmptyDirectory (fs : FileSystem) (root : Path) : Prop :=
  ∃ dir, fs.walk (fs.start root) root.parts = .ok dir ∧ fs.entry dir = some .dir ∧ fs.Vacant dir

theorem entryPath_names {f : File} (h : (entryPath f).isAbsolute = false) :
    (entryPath f).names = entryNames f := by
  rw [entryPath, Path.names_fromIter h, List.flatMap_map, entryNames]

theorem map_entryPath_names {files : List File}
    (h : ∀ f ∈ files, (entryPath f).isAbsolute = false) :
    files.map (fun f => (entryPath f).names) = files.map entryNames :=
  List.map_congr_left fun f hf => entryPath_names (h f hf)

theorem createEntries_relative {σ φ : Type} {os : Os σ φ} {base : Path} {offset : Nat}
    {files : List File} {outs : List (OpenFile φ)} {s t : Session σ}
    (h : createEntries os base offset files s = (.ok outs, t)) :
    ∀ f ∈ files, (entryPath f).isAbsolute = false := by
  induction files generalizing offset outs s with
  | nil => simp
  | cons f files ih =>
    obtain ⟨u, v, file, rest, habs, -, -, -, hrest, -⟩ := createEntries_cons h
    exact List.forall_mem_cons.mpr ⟨habs, ih hrest⟩

theorem createFiles_multiple {σ φ : Type} {os : Os σ φ} {m : Metainfo} {files : List File}
    {root : Path} {outs : List (OpenFile φ)} {s t : Session σ} (hm : m.mode = .multiple files)
    (h : createFiles os m root s = (.ok outs, t)) :
    Path.isAbsolute (utf8Bytes m.name) = false ∧ .parentDir ∉ Path.components (utf8Bytes m.name) ∧
      ∃ u, createParent os (root.join (utf8Bytes m.name)) s = (.ok (), u) ∧
        createEntries os (root.join (utf8Bytes m.name)) 0 files u = (.ok outs, t) := by
  rw [createFiles] at h
  obtain ⟨habs, hup, u, hparent, h⟩ := prepared_ok h
  rw [hm] at h
  exact ⟨habs, hup, u, hparent, h⟩

theorem createFiles_single {σ φ : Type} {os : Os σ φ} {m : Metainfo} {root : Path}
    {outs : List (OpenFile φ)} {s t : Session σ} (hm : m.mode = .single length)
    (h : createFiles os m root s = (.ok outs, t)) :
    Path.isAbsolute (utf8Bytes m.name) = false ∧ .parentDir ∉ Path.components (utf8Bytes m.name) ∧
      ∃ u file, createParent os (root.join (utf8Bytes m.name)) s = (.ok (), u) ∧
        openFile os (root.join (utf8Bytes m.name)) length u = (.ok file, t) ∧
        outs = [⟨file, length, 0⟩] := by
  rw [createFiles] at h
  obtain ⟨habs, hup, u, hparent, h⟩ := prepared_ok h
  rw [hm] at h
  obtain ⟨file, v, hfile, h⟩ := bind_ok h
  cases h
  exact ⟨habs, hup, u, file, hparent, hfile, rfl⟩

theorem createParent_empty {path root : Path} {fs : FileSystem} {u : Session FileSystem}
    (habs : path.isAbsolute = false) (hup : .parentDir ∉ path.components)
    (hroot : EmptyDirectory fs root)
    (h : createParent unix (root.join path) ⟨fs, []⟩ = (.ok (), u)) :
    ∃ dir, u.os.Unlinked dir ∧ dir <+: u.os.locate (root.join path) ∧
      ∀ loc, dir <+: loc → u.os.read loc = none := by
  obtain ⟨dir, hwalk, hdir, hvacant⟩ := hroot
  have hsame := createParent_unix (root.join path) ⟨fs, []⟩
  rw [h] at hsame
  refine ⟨dir, hvacant.unlinked.sameFiles hsame, ?_, ?_⟩
  · rw [hsame.toExtends.locate, fs.locate_join root habs hup,
      show fs.locate root = dir from (FileSystem.walk_ok hwalk).symm]
    exact List.prefix_append _ _
  · intro loc hloc
    rw [hsame.read, FileSystem.read]
    by_cases hne : loc = dir
    · rw [hne, hdir]
    · rw [hvacant loc hloc hne]

theorem createFiles_started {m : Metainfo} {files : List File} {root : Path} {fs : FileSystem}
    {outs : List (OpenFile Nat)} {t : Session FileSystem} (hm : m.mode = .multiple files)
    (hroot : EmptyDirectory fs root) (h : createFiles unix m root ⟨fs, []⟩ = (.ok outs, t)) :
    ∃ dir u, u.os.Unlinked dir ∧ dir <+: u.os.locate (root.join (utf8Bytes m.name)) ∧
      (∀ loc, dir <+: loc → u.os.read loc = none) ∧
      createEntries unix (root.join (utf8Bytes m.name)) 0 files u = (.ok outs, t) := by
  obtain ⟨habs, hup, u, hparent, hentries⟩ := createFiles_multiple hm h
  obtain ⟨dir, hunlinked, hdir, hread⟩ := createParent_empty habs hup hroot hparent
  exact ⟨dir, u, hunlinked, hdir, hread, hentries⟩

def Distinct (m : Metainfo) : Prop :=
  match m.mode with
  | .single _ => True
  | .multiple files => (files.map entryNames).Nodup

theorem createFiles_flat {m : Metainfo} {root : Path} {fs : FileSystem}
    {outs : List (OpenFile Nat)} {t : Session FileSystem} (hm : Distinct m)
    (hroot : EmptyDirectory fs root) (h : createFiles unix m root ⟨fs, []⟩ = (.ok outs, t)) :
    DiskStorage.createFiles m (fun _ => none) = .ok (outs.map (OpenFile.flat t.os)) := by
  cases hmode : m.mode with
  | single length =>
    obtain ⟨habs, hup, u, file, hparent, hfile, rfl⟩ := createFiles_single hmode h
    obtain ⟨dir, hunlinked, hdir, hread⟩ := createParent_empty habs hup hroot hparent
    have hopened := (openFile_unix hunlinked hdir hfile).opened
    rw [hread _ hdir] at hopened
    simp only [DiskStorage.createFiles, Metainfo.fileLengths, hmode, DiskStorage.createEntries,
      hopened]
    rfl
  | multiple files =>
    obtain ⟨dir, u, hu, hdir, hread, hentries⟩ := createFiles_started hmode hroot h
    simp only [Distinct, hmode] at hm
    rw [← map_entryPath_names (createEntries_relative hentries)] at hm
    have hfound : ∀ (k : Nat) (f : File), files[k]? = some f → none =
        u.os.read (u.os.locate (root.join (utf8Bytes m.name)) ++ (entryPath f).names) :=
      fun _ _ _ => (hread _ (hdir.trans (List.prefix_append _ _))).symm
    have hflat : DiskStorage.createEntries (fun _ => none) 0 0 (files.map File.length) = _ ∧ _ :=
      createEntries_flat hu hdir hm hfound hentries
    rw [DiskStorage.createFiles, Metainfo.fileLengths, hmode]
    exact hflat.1

theorem createFiles_fresh_laid {m : Metainfo} {root : Path} {fs : FileSystem}
    {outs : List (OpenFile Nat)} {t : Session FileSystem} (hm : Distinct m)
    (hsum : m.fileLengths.sum < 2 ^ 64) (hroot : EmptyDirectory fs root)
    (h : createFiles unix m root ⟨fs, []⟩ = (.ok outs, t)) :
    DiskStorage.Laid m (outs.map (OpenFile.flat t.os)) :=
  DiskStorage.createFiles_laid (createFiles_flat hm hroot h) hsum

end Tortue.CreateFiles
