import Tortue.Unix.Path
import Mathlib.Logic.Function.Basic
import Mathlib.Data.List.Infix
import Mathlib.Data.List.TakeDrop

namespace Unix

inductive Errno where
  | notFound
  | alreadyExists
  | notADirectory
  | isADirectory
  | invalidInput
  | other
  deriving DecidableEq, Repr

abbrev Location := List Name

inductive Node where
  | dir
  | file (inode : Nat)
  deriving DecidableEq

-- A tree without symbolic links, as one process sees it.
structure FileSystem where
  cwd : Location
  entry : Location → Option Node
  content : Nat → List UInt8
  next : Nat
  inode_lt : ∀ loc i, entry loc = some (.file i) → i < next

namespace FileSystem

open Unix.Path

def start (fs : FileSystem) (p : Path) : Location := if p.isAbsolute then [] else fs.cwd

def enter (fs : FileSystem) (loc : Location) (part : Name) : Except Errno Location :=
  if skips part then .ok loc
  else if part = dotDot then .ok loc.dropLast
  else
    match fs.entry (loc ++ [part]) with
    | none => .error .notFound
    | some (.file _) => .error .notADirectory
    | some .dir => .ok (loc ++ [part])

def walk (fs : FileSystem) : Location → List Name → Except Errno Location
  | loc, [] => .ok loc
  | loc, part :: parts =>
    match fs.enter loc part with
    | .error e => .error e
    | .ok loc => fs.walk loc parts

def addDir (fs : FileSystem) (loc : Location) : FileSystem where
  cwd := fs.cwd
  entry := Function.update fs.entry loc (some .dir)
  content := fs.content
  next := fs.next
  inode_lt := by
    intro loc' i h
    rw [Function.update_apply] at h
    split_ifs at h with hloc
    · cases h
    · exact fs.inode_lt loc' i h

def addFile (fs : FileSystem) (loc : Location) : FileSystem where
  cwd := fs.cwd
  entry := Function.update fs.entry loc (some (.file fs.next))
  content := Function.update fs.content fs.next []
  next := fs.next + 1
  inode_lt := by
    intro loc' i h
    rw [Function.update_apply] at h
    split_ifs at h with hloc
    · cases h
      exact Nat.lt_succ_self fs.next
    · exact Nat.lt_succ_of_lt (fs.inode_lt loc' i h)

def makeDirs : FileSystem → Location → List Name → Except Errno Unit × FileSystem
  | fs, _, [] => (.ok (), fs)
  | fs, loc, part :: parts =>
    if skips part then fs.makeDirs loc parts
    else if part = dotDot then fs.makeDirs loc.dropLast parts
    else
      match fs.entry (loc ++ [part]) with
      | none => (fs.addDir (loc ++ [part])).makeDirs (loc ++ [part]) parts
      | some .dir => fs.makeDirs (loc ++ [part]) parts
      | some (.file _) => (.error (if parts = [] then .alreadyExists else .notADirectory), fs)

def createDirAll (p : Path) (fs : FileSystem) : Except Errno Unit × FileSystem :=
  if 0 ∈ p then (.error .invalidInput, fs) else fs.makeDirs (fs.start p) p.parts

-- `O_CREAT` with `O_EXCL`: the slashes at the end ask for a directory.
def openNew (p : Path) (fs : FileSystem) : Except Errno Nat × FileSystem :=
  let parts := p.parts.rdropWhile (· = [])
  if 0 ∈ p then (.error .invalidInput, fs)
  else if p = [] then (.error .notFound, fs)
  else
    match fs.walk (fs.start p) parts.dropLast, parts.getLast? with
    | .error e, _ => (.error e, fs)
    | .ok _, none => (.error .alreadyExists, fs)
    | .ok loc, some last =>
      if last = dot ∨ last = dotDot then (.error .alreadyExists, fs)
      else if parts ≠ p.parts then (.error .isADirectory, fs)
      else
        match fs.entry (loc ++ [last]) with
        | some _ => (.error .alreadyExists, fs)
        | none => (.ok fs.next, fs.addFile (loc ++ [last]))

def openExisting (p : Path) (fs : FileSystem) : Except Errno Nat :=
  if 0 ∈ p then .error .invalidInput
  else if p = [] then .error .notFound
  else
    match fs.walk (fs.start p) p.parts.dropLast, p.parts.getLast? with
    | .error e, _ => .error e
    | .ok _, none => .error .notFound
    | .ok loc, some last =>
      if skips last ∨ last = dotDot then .error .isADirectory
      else
        match fs.entry (loc ++ [last]) with
        | none => .error .notFound
        | some .dir => .error .isADirectory
        | some (.file i) => .ok i

def setContent (fs : FileSystem) (i : Nat) (bytes : List UInt8) : FileSystem :=
  { fs with content := Function.update fs.content i bytes }

def setLen (fs : FileSystem) (i length : Nat) : FileSystem :=
  fs.setContent i ((fs.content i).takeD length 0)

def writeAt (fs : FileSystem) (i offset : Nat) (data : List UInt8) : FileSystem :=
  let old := fs.content i
  if data = [] then fs
  else fs.setContent i (old.takeD offset 0 ++ data ++ old.drop (offset + data.length))

def follow (loc : Location) (name : Name) : Location :=
  if name = dotDot then loc.dropLast else loc ++ [name]

def locate (fs : FileSystem) (p : Path) : Location := p.names.foldl follow (fs.start p)

variable {fs fs' fs'' : FileSystem}

structure Extends (fs fs' : FileSystem) : Prop where
  cwd : fs'.cwd = fs.cwd
  entry : ∀ loc node, fs.entry loc = some node → fs'.entry loc = some node

theorem Extends.refl (fs : FileSystem) : Extends fs fs := ⟨rfl, fun _ _ h => h⟩

theorem Extends.trans (h : Extends fs fs') (h' : Extends fs' fs'') : Extends fs fs'' where
  cwd := h'.cwd.trans h.cwd
  entry := fun loc node hloc => h'.entry loc node (h.entry loc node hloc)

theorem Extends.locate (h : Extends fs fs') (p : Path) : fs'.locate p = fs.locate p := by
  rw [FileSystem.locate, FileSystem.locate, start, start, h.cwd]

theorem addDir_entry (fs : FileSystem) (loc loc' : Location) :
    (fs.addDir loc).entry loc' = if loc' = loc then some .dir else fs.entry loc' :=
  Function.update_apply fs.entry loc _ loc'

theorem addFile_entry (fs : FileSystem) (loc loc' : Location) :
    (fs.addFile loc).entry loc' = if loc' = loc then some (.file fs.next) else fs.entry loc' :=
  Function.update_apply fs.entry loc _ loc'

theorem extends_addFile {loc : Location} (h : fs.entry loc = none) :
    Extends fs (fs.addFile loc) where
  cwd := rfl
  entry := by
    intro loc' node hloc
    have hne : loc' ≠ loc := fun heq => by simp [heq, h] at hloc
    rw [addFile_entry, if_neg hne, hloc]

structure SameFiles (fs fs' : FileSystem) : Prop extends Extends fs fs' where
  file : ∀ loc i, fs'.entry loc = some (.file i) → fs.entry loc = some (.file i)
  content : fs'.content = fs.content

theorem SameFiles.refl (fs : FileSystem) : SameFiles fs fs where
  toExtends := .refl fs
  file := fun _ _ h => h
  content := rfl

theorem SameFiles.trans (h : SameFiles fs fs') (h' : SameFiles fs' fs'') : SameFiles fs fs'' where
  toExtends := h.toExtends.trans h'.toExtends
  file := fun loc i hloc => h.file loc i (h'.file loc i hloc)
  content := h'.content.trans h.content

theorem sameFiles_addDir {loc : Location} (h : fs.entry loc = none) :
    SameFiles fs (fs.addDir loc) where
  cwd := rfl
  entry := by
    intro loc' node hloc
    have hne : loc' ≠ loc := fun heq => by simp [heq, h] at hloc
    rw [addDir_entry, if_neg hne, hloc]
  file := by
    intro loc' i hloc
    rw [addDir_entry] at hloc
    split_ifs at hloc
    · cases hloc
    · exact hloc
  content := rfl

theorem sameFiles_makeDirs (fs : FileSystem) (loc : Location) (parts : List Name) :
    SameFiles fs (fs.makeDirs loc parts).2 := by
  induction fs, loc, parts using makeDirs.induct with
  | case1 fs loc => exact .refl fs
  | case2 fs loc part parts hskip ih =>
    rw [makeDirs, if_pos hskip]
    exact ih
  | case3 fs loc parts hskip ih =>
    rw [makeDirs, if_neg hskip, if_pos rfl]
    exact ih
  | case4 fs loc part parts hskip hup hnone ih =>
    rw [makeDirs, if_neg hskip, if_neg hup, hnone]
    exact (sameFiles_addDir hnone).trans ih
  | case5 fs loc part parts hskip hup hdir ih =>
    rw [makeDirs, if_neg hskip, if_neg hup, hdir]
    exact ih
  | case6 fs loc part parts hskip hup i hfile =>
    rw [makeDirs, if_neg hskip, if_neg hup, hfile]
    exact .refl fs

theorem sameFiles_createDirAll (p : Path) (fs : FileSystem) :
    SameFiles fs (createDirAll p fs).2 := by
  rw [createDirAll]
  split_ifs
  · exact .refl fs
  · exact sameFiles_makeDirs fs (fs.start p) p.parts

theorem enter_ok {loc loc' : Location} {part : Name} (h : fs.enter loc part = .ok loc') :
    loc' = if skips part then loc else follow loc part := by
  rw [enter] at h
  rw [follow]
  split_ifs at h ⊢
  · exact (Except.ok.inj h).symm
  · exact (Except.ok.inj h).symm
  · cases hentry : fs.entry (loc ++ [part]) with
    | none => rw [hentry] at h; cases h
    | some node =>
      cases node with
      | file i => rw [hentry] at h; cases h
      | dir => rw [hentry] at h; exact (Except.ok.inj h).symm

theorem walk_ok {loc loc' : Location} {parts : List Name} (h : fs.walk loc parts = .ok loc') :
    loc' = (parts.filter fun part => !skips part).foldl follow loc := by
  induction parts generalizing loc with
  | nil => exact (Except.ok.inj h).symm
  | cons part parts ih =>
    rw [walk] at h
    cases hpart : fs.enter loc part with
    | error e => rw [hpart] at h; cases h
    | ok next =>
      rw [hpart] at h
      rw [ih h, enter_ok hpart, List.filter_cons]
      cases hskip : skips part with
      | true => rfl
      | false => rfl

theorem locate_eq {p : Path} {loc : Location} {parts : List Name} {last : Name}
    (hwalk : fs.walk (fs.start p) parts = .ok loc) (hparts : p.parts = parts ++ [last])
    (hskip : skips last = false) (hup : last ≠ dotDot) : fs.locate p = loc ++ [last] := by
  rw [locate, names, hparts, List.filter_append, List.foldl_append, ← walk_ok hwalk,
    List.filter_singleton, hskip]
  simp [follow, hup]

theorem foldl_follow (loc : Location) {parts : List Name} (h : dotDot ∉ parts) :
    parts.foldl follow loc = loc ++ parts := by
  induction parts generalizing loc with
  | nil => exact (List.append_nil loc).symm
  | cons part parts ih =>
    rw [List.mem_cons, not_or] at h
    rw [List.foldl_cons, ih _ h.2, follow, if_neg (Ne.symm h.1), List.append_assoc,
      List.singleton_append]

theorem locate_join (fs : FileSystem) (p : Path) {q : Path} (h : q.isAbsolute = false)
    (hup : .parentDir ∉ q.components) : fs.locate (p.join q) = fs.locate p ++ q.names := by
  have hstart : fs.start (p.push q) = fs.start p := by
    by_cases hp : p = []
    · subst hp
      rw [nil_push, start, start, h]
      rfl
    · rw [start, start, isAbsolute_push hp h]
  rw [parentDir_mem_components_iff] at hup
  rw [locate, join, names_push p h, hstart, List.foldl_append, foldl_follow _ hup]
  rfl

theorem openNew_cases (p : Path) (fs : FileSystem) :
    (∃ e, openNew p fs = (.error e, fs)) ∨
      fs.entry (fs.locate p) = none ∧ openNew p fs = (.ok fs.next, fs.addFile (fs.locate p)) := by
  by_cases hnul : 0 ∈ p
  · exact .inl ⟨.invalidInput, by simp only [openNew, if_pos hnul]⟩
  by_cases hempty : p = []
  · exact .inl ⟨.notFound, by simp only [openNew, if_neg hnul, if_pos hempty]⟩
  simp only [openNew, if_neg hnul, if_neg hempty]
  cases hwalk : fs.walk (fs.start p) (p.parts.rdropWhile (· = [])).dropLast with
  | error e => exact .inl ⟨e, rfl⟩
  | ok loc =>
    cases hlast : (p.parts.rdropWhile (· = [])).getLast? with
    | none => exact .inl ⟨.alreadyExists, rfl⟩
    | some last =>
      by_cases hdots : last = dot ∨ last = dotDot
      · exact .inl ⟨.alreadyExists, by simp only [if_pos hdots]⟩
      by_cases hslash : p.parts.rdropWhile (· = []) ≠ p.parts
      · exact .inl ⟨.isADirectory, by simp only [if_neg hdots, if_pos hslash]⟩
      simp only [if_neg hdots, if_neg hslash]
      rw [not_not] at hslash
      have hlocate : fs.locate p = loc ++ [last] := by
        rw [hslash] at hwalk hlast
        refine locate_eq hwalk (List.dropLast_append_getLast? last hlast).symm ?_ (by tauto)
        have hne : last ≠ [] := by
          rw [List.getLast?_eq_some_getLast p.parts_ne_nil, Option.some_inj] at hlast
          simpa [hlast] using List.rdropWhile_eq_self_iff.mp hslash p.parts_ne_nil
        simpa [skips, hne] using fun h => hdots (.inl h)
      rw [hlocate]
      cases hentry : fs.entry (loc ++ [last]) with
      | some node => exact .inl ⟨.alreadyExists, rfl⟩
      | none => exact .inr ⟨rfl, rfl⟩

theorem openExisting_ok {p : Path} {i : Nat} (h : openExisting p fs = .ok i) :
    fs.entry (fs.locate p) = some (.file i) := by
  rw [openExisting] at h
  split_ifs at h with hnul hempty
  cases hwalk : fs.walk (fs.start p) p.parts.dropLast with
  | error e => rw [hwalk] at h; cases h
  | ok loc =>
    cases hlast : p.parts.getLast? with
    | none => rw [hwalk, hlast] at h; cases h
    | some last =>
      rw [hwalk, hlast] at h
      simp only at h
      split_ifs at h with hdots
      have hparts := (List.dropLast_append_getLast? last hlast).symm
      simp only [not_or, Bool.not_eq_true] at hdots
      rw [locate_eq hwalk hparts hdots.1 hdots.2]
      cases hentry : fs.entry (loc ++ [last]) with
      | none => rw [hentry] at h; cases h
      | some node =>
        cases node with
        | dir => rw [hentry] at h; cases h
        | file j => rw [hentry] at h; cases h; rfl

def Unlinked (fs : FileSystem) (dir : Location) : Prop :=
  ∀ a b i, dir <+: a → dir <+: b → fs.entry a = some (.file i) → fs.entry b = some (.file i) →
    a = b

def Vacant (fs : FileSystem) (dir : Location) : Prop :=
  ∀ loc, dir <+: loc → loc ≠ dir → fs.entry loc = none

variable {dir : Location}

theorem Vacant.unlinked (h : Vacant fs dir) : Unlinked fs dir := by
  intro a b i ha hb hai hbi
  have hdir : ∀ loc, dir <+: loc → fs.entry loc = some (.file i) → loc = dir := by
    intro loc hloc hentry
    by_contra hne
    rw [h loc hloc hne] at hentry
    cases hentry
  rw [hdir a ha hai, hdir b hb hbi]

theorem Unlinked.sameFiles (h : Unlinked fs dir) (hsame : SameFiles fs fs') :
    Unlinked fs' dir := by
  intro a b i ha hb hai hbi
  exact h a b i ha hb (hsame.file a i hai) (hsame.file b i hbi)

theorem Unlinked.addFile {loc : Location} (h : Unlinked fs dir) :
    Unlinked (fs.addFile loc) dir := by
  intro a b i ha hb hai hbi
  rw [addFile_entry] at hai hbi
  split_ifs at hai hbi with haloc hbloc hbloc
  · rw [haloc, hbloc]
  · cases hai
    exact absurd (fs.inode_lt b fs.next hbi) (lt_irrefl _)
  · cases hbi
    exact absurd (fs.inode_lt a fs.next hai) (lt_irrefl _)
  · exact h a b i ha hb hai hbi

theorem Unlinked.setContent (h : Unlinked fs dir) (i : Nat) (bytes : List UInt8) :
    Unlinked (fs.setContent i bytes) dir := h

def read (fs : FileSystem) (loc : Location) : Option (List UInt8) :=
  match fs.entry loc with
  | some (.file i) => some (fs.content i)
  | _ => none

theorem read_of_entry {loc : Location} {i : Nat} (h : fs.entry loc = some (.file i)) :
    fs.read loc = some (fs.content i) := by rw [read, h]

theorem SameFiles.read (h : SameFiles fs fs') (loc : Location) : fs'.read loc = fs.read loc := by
  cases hentry : fs.entry loc with
  | some node =>
    rw [FileSystem.read, FileSystem.read, h.entry loc node hentry, hentry, h.content]
  | none =>
    rw [FileSystem.read, FileSystem.read, hentry]
    cases hentry' : fs'.entry loc with
    | none => rfl
    | some node =>
      cases node with
      | dir => rfl
      | file i =>
        rw [h.file loc i hentry'] at hentry
        cases hentry

theorem read_addFile {loc loc' : Location} (hne : loc' ≠ loc) :
    (fs.addFile loc).read loc' = fs.read loc' := by
  rw [read, read, addFile_entry, if_neg hne]
  cases hentry : fs.entry loc' with
  | none => rfl
  | some node =>
    cases node with
    | dir => rfl
    | file i =>
      have hi : i ≠ fs.next := (fs.inode_lt loc' i hentry).ne
      simp only [addFile, Function.update_of_ne hi]

theorem Unlinked.read_setContent {loc loc' : Location} {i : Nat} (h : Unlinked fs dir)
    (hdir : dir <+: loc) (hdir' : dir <+: loc') (hentry : fs.entry loc = some (.file i))
    (hne : loc' ≠ loc) (bytes : List UInt8) :
    (fs.setContent i bytes).read loc' = fs.read loc' := by
  rw [FileSystem.read, FileSystem.read, FileSystem.setContent]
  cases hentry' : fs.entry loc' with
  | none => rfl
  | some node =>
    cases node with
    | dir => rfl
    | file j =>
      have hij : j ≠ i := by
        rintro rfl
        exact hne (h loc' loc j hdir' hdir hentry' hentry)
      simp only [Function.update_of_ne hij]

theorem content_setContent (fs : FileSystem) (i : Nat) (bytes : List UInt8) :
    (fs.setContent i bytes).content i = bytes := by simp only [setContent, Function.update_self]

theorem content_writeAt {i j : Nat} (hij : i ≠ j) (offset : Nat) (data : List UInt8) :
    (fs.writeAt i offset data).content j = fs.content j := by
  rw [writeAt]
  split_ifs
  · rfl
  · exact Function.update_of_ne hij.symm _ _

theorem takeD_eq_append (l : List UInt8) {n : Nat} (h : l.length ≤ n) :
    l.takeD n 0 = l ++ List.replicate (n - l.length) 0 := by
  induction l generalizing n with
  | nil => exact List.takeD_nil n 0
  | cons a l ih =>
    obtain ⟨n, rfl⟩ : ∃ k, n = k + 1 := ⟨n - 1, by simp at h; omega⟩
    rw [List.takeD_succ, List.head?_cons, Option.getD_some, List.tail_cons,
      ih (by simpa using h), List.length_cons, Nat.add_sub_add_right, List.cons_append]

end FileSystem

end Unix
