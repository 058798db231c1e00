import Tortue.Unix.FileSystem
import Tortue.Adapters.DiskStorage
import Tortue.Domain.Wire

namespace Tortue.CreateFiles

open Unix

inductive Error where
  | io (e : Errno)
  | pathTraversal
  | invalidFile
  deriving DecidableEq, Repr

structure Metadata where
  isFile : Bool
  len : Nat

-- What the operating system is asked for: `σ` is its state and `φ` an open file.
structure Os (σ φ : Type) where
  createDirAll : Path → σ → Except Errno Unit × σ
  openNew : Path → σ → Except Errno φ × σ
  openExisting : Path → σ → Except Errno φ × σ
  metadata : φ → σ → Except Errno Metadata × σ
  setLen : φ → Nat → σ → Except Errno Unit × σ

structure Session (σ : Type) where
  os : σ
  opened : List Path

abbrev Io (σ : Type) := ExceptT Error (StateM (Session σ))

structure OpenFile (φ : Type) where
  file : φ
  length : Nat
  offset : Nat
  deriving DecidableEq

variable {σ φ α β : Type}

def attempt (f : σ → Except Errno α × σ) : Io σ (Except Errno α) := fun s =>
  let (answer, os) := f s.os
  (.ok answer, { s with os })

def call (f : σ → Except Errno α × σ) : Io σ α := do
  match ← attempt f with
  | .ok a => return a
  | .error e => throw (.io e)

def record (path : Path) : Io σ Unit := fun s =>
  (.ok (), { s with opened := s.opened ++ [path] })

def buildPath (rootPath path : Path) : Except Error Path :=
  if path.isAbsolute ∨ .parentDir ∈ path.components then .error .pathTraversal
  else .ok (rootPath.join path)

def openFile (os : Os σ φ) (filePath : Path) (length : Nat) : Io σ φ := do
  record filePath
  match ← attempt (os.openNew filePath) with
  | .ok file =>
    call (os.setLen file length)
    return file
  | .error .alreadyExists =>
    let file ← call (os.openExisting filePath)
    let metadata ← call (os.metadata file)
    if !metadata.isFile then throw .invalidFile
    if metadata.len > length then throw .invalidFile
    call (os.setLen file length)
    return file
  | .error e => throw (.io e)

def createParent (os : Os σ φ) (path : Path) : Io σ Unit := do
  match path.parent with
  | none => return ()
  | some parent => call (os.createDirAll parent)

def entryPath (f : File) : Path := Path.fromIter (f.path.map utf8Bytes)

def createEntries (os : Os σ φ) (base : Path) : Nat → List File → Io σ (List (OpenFile φ))
  | _, [] => return []
  | offset, f :: files => do
    let filePath ← buildPath base (entryPath f)
    createParent os filePath
    let file ← openFile os filePath f.length
    let rest ← createEntries os base (wrap (offset + f.length)) files
    return ⟨file, f.length, offset⟩ :: rest

def createFiles (os : Os σ φ) (m : Metainfo) (root : Path) : Io σ (List (OpenFile φ)) := do
  let base ← buildPath root (utf8Bytes m.name)
  createParent os base
  match m.mode with
  | .single length =>
    let file ← openFile os base length
    return [⟨file, length, 0⟩]
  | .multiple files => createEntries os base 0 files

theorem bind_cases (x : Io σ α) (f : α → Io σ β) (s : Session σ) :
    (∃ e t, x s = (.error e, t) ∧ (x >>= f) s = (.error e, t)) ∨
      ∃ a t, x s = (.ok a, t) ∧ (x >>= f) s = f a t := by
  have hbind : (x >>= f) s = StateT.bind x (ExceptT.bindCont f) s := rfl
  rcases hx : x s with ⟨e | a, t⟩
  · refine .inl ⟨e, t, rfl, ?_⟩
    rw [hbind, StateT.bind, hx]
    rfl
  · refine .inr ⟨a, t, rfl, ?_⟩
    rw [hbind, StateT.bind, hx]
    rfl

theorem bind_ok {x : Io σ α} {f : α → Io σ β} {s t : Session σ} {b : β}
    (h : (x >>= f) s = (.ok b, t)) : ∃ a u, x s = (.ok a, u) ∧ f a u = (.ok b, t) := by
  obtain ⟨e, u, -, hfail⟩ | ⟨a, u, hx, hf⟩ := bind_cases x f s
  · rw [hfail] at h
    cases h
  · exact ⟨a, u, hx, hf.symm.trans h⟩

theorem bind_pure_apply (x : Io σ α) (g : α → β) (s : Session σ) :
    (x >>= fun a => pure (g a)) s = ((x s).1.map g, (x s).2) := by
  obtain ⟨e, t, hx, h⟩ | ⟨a, t, hx, h⟩ := bind_cases x (fun a => pure (g a)) s
  · rw [h, hx]
    rfl
  · rw [h, hx]
    rfl

theorem record_bind (path : Path) (f : Unit → Io σ α) (s : Session σ) :
    (record path >>= f) s = f () ⟨s.os, s.opened ++ [path]⟩ := rfl

theorem attempt_bind (f : σ → Except Errno α × σ) (g : Except Errno α → Io σ β)
    (s : Session σ) : (attempt f >>= g) s = g (f s.os).1 ⟨(f s.os).2, s.opened⟩ := rfl

theorem call_session (f : σ → Except Errno α × σ) (s : Session σ) :
    (call f s).2 = ⟨(f s.os).2, s.opened⟩ := by
  rw [call, attempt_bind]
  cases (f s.os).1 <;> rfl

theorem call_bind_ok {f : σ → Except Errno α × σ} {a : α} {os os' : σ} {opened : List Path}
    (g : α → Io σ β) (h : f os = (.ok a, os')) :
    (call f >>= g) ⟨os, opened⟩ = g a ⟨os', opened⟩ := by
  rw [call, bind_assoc, attempt_bind, h]
  rfl

theorem call_bind_error {f : σ → Except Errno α × σ} {e : Errno} {os os' : σ}
    {opened : List Path} (g : α → Io σ β) (h : f os = (.error e, os')) :
    (call f >>= g) ⟨os, opened⟩ = (.error (.io e), ⟨os', opened⟩) := by
  rw [call, bind_assoc, attempt_bind, h]
  rfl

def Quiet (x : Io σ α) : Prop := ∀ s, (x s).2.opened = s.opened

theorem quiet_pure (a : α) : Quiet (pure a : Io σ α) := fun _ => rfl

theorem quiet_throw (e : Error) : Quiet (throw e : Io σ α) := fun _ => rfl

theorem quiet_cases {x : Io σ α} (hx : Quiet x) (f : α → Io σ β) (s : Session σ) :
    (∃ e t, t.opened = s.opened ∧ (x >>= f) s = (.error e, t)) ∨
      ∃ a t, x s = (.ok a, t) ∧ t.opened = s.opened ∧ (x >>= f) s = f a t := by
  have hs := hx s
  obtain ⟨e, t, hxs, h⟩ | ⟨a, t, hxs, h⟩ := bind_cases x f s
  · rw [hxs] at hs
    exact .inl ⟨e, t, hs, h⟩
  · rw [hxs] at hs
    exact .inr ⟨a, t, hxs, hs, h⟩

theorem quiet_bind {x : Io σ α} {f : α → Io σ β} (hx : Quiet x) (hf : ∀ a, Quiet (f a)) :
    Quiet (x >>= f) := by
  intro s
  obtain ⟨e, t, ht, h⟩ | ⟨a, t, -, ht, h⟩ := quiet_cases hx f s
  · rw [h, ht]
  · rw [h, hf a t, ht]

theorem quiet_call (f : σ → Except Errno α × σ) : Quiet (call f) := by
  intro s
  rw [call_session]

theorem quiet_ite {c : Prop} [Decidable c] {x y : Io σ α} (hx : Quiet x) (hy : Quiet y) :
    Quiet (if c then x else y) := by
  split_ifs
  · exact hx
  · exact hy

theorem record_bind_opened (path : Path) {f : Unit → Io σ α} (hf : ∀ u, Quiet (f u))
    (s : Session σ) : ((record path >>= f) s).2.opened = s.opened ++ [path] :=
  hf () { s with opened := s.opened ++ [path] }

theorem openFile_opened (os : Os σ φ) (path : Path) (length : Nat) (s : Session σ) :
    (openFile os path length s).2.opened = s.opened ++ [path] := by
  refine record_bind_opened path (fun _ => quiet_bind (fun _ => rfl) ?_) s
  rintro (e | file)
  · cases e with
    | alreadyExists =>
      refine quiet_bind (quiet_call _) fun file => quiet_bind (quiet_call _) fun metadata => ?_
      refine quiet_ite (quiet_throw _) (quiet_ite (quiet_throw _) ?_)
      exact quiet_bind (quiet_call _) fun _ => quiet_pure file
    | _ => exact quiet_throw _
  · exact quiet_bind (quiet_call _) fun _ => quiet_pure file

theorem quiet_createParent (os : Os σ φ) (path : Path) : Quiet (createParent os path) := by
  rw [createParent]
  cases path.parent with
  | none => exact quiet_pure ()
  | some parent => exact quiet_call _

theorem lift_apply (e : Except Error α) (s : Session σ) : (liftM e : Io σ α) s = (e, s) := rfl

theorem quiet_lift (e : Except Error α) : Quiet (liftM e : Io σ α) := fun _ => rfl

theorem buildPath_cases (root path : Path) :
    buildPath root path = .error .pathTraversal ∨
      path.isAbsolute = false ∧ .parentDir ∉ path.components ∧
        buildPath root path = .ok (root.join path) := by
  rw [buildPath]
  split_ifs with hbad
  · exact .inl rfl
  · simp only [not_or, Bool.not_eq_true] at hbad
    exact .inr ⟨hbad.1, hbad.2, rfl⟩

theorem buildPath_ok {root path built : Path} (h : buildPath root path = .ok built) :
    path.isAbsolute = false ∧ .parentDir ∉ path.components ∧ built = root.join path := by
  obtain hbad | ⟨habs, hup, hbuild⟩ := buildPath_cases root path
  · rw [hbad] at h
    cases h
  · rw [hbuild] at h
    exact ⟨habs, hup, (Except.ok.inj h).symm⟩

theorem below_buildPath {root path built : Path} (h : buildPath root path = .ok built) :
    Path.Below root built := by
  obtain ⟨habs, hup, rfl⟩ := buildPath_ok h
  exact Path.below_join root habs hup

theorem prepared_ok {os : Os σ φ} {root path : Path} {f : Path → Io σ α} {s t : Session σ} {a : α}
    (h : (liftM (buildPath root path) >>= fun p => createParent os p >>= fun _ => f p) s =
      (.ok a, t)) :
    path.isAbsolute = false ∧ .parentDir ∉ path.components ∧
      ∃ u, createParent os (root.join path) s = (.ok (), u) ∧
        f (root.join path) u = (.ok a, t) := by
  obtain ⟨built, s', hbuild, h⟩ := bind_ok h
  rw [lift_apply, Prod.mk.injEq] at hbuild
  obtain ⟨hbuild, rfl⟩ := hbuild
  obtain ⟨habs, hup, rfl⟩ := buildPath_ok hbuild
  obtain ⟨⟨⟩, u, hparent, h⟩ := bind_ok h
  exact ⟨habs, hup, u, hparent, h⟩

theorem createEntries_cons {os : Os σ φ} {base : Path} {offset : Nat} {f : File}
    {files : List File} {outs : List (OpenFile φ)} {s t : Session σ}
    (h : createEntries os base offset (f :: files) s = (.ok outs, t)) :
    ∃ u v file rest, (entryPath f).isAbsolute = false ∧
      .parentDir ∉ (entryPath f).components ∧
      createParent os (base.join (entryPath f)) s = (.ok (), u) ∧
      openFile os (base.join (entryPath f)) f.length u = (.ok file, v) ∧
      createEntries os base (wrap (offset + f.length)) files v = (.ok rest, t) ∧
      outs = ⟨file, f.length, offset⟩ :: rest := by
  rw [createEntries] at h
  obtain ⟨habs, hup, u, hparent, h⟩ := prepared_ok h
  obtain ⟨file, v, hfile, h⟩ := bind_ok h
  obtain ⟨rest, w, hrest, h⟩ := bind_ok h
  cases h
  exact ⟨u, v, file, rest, habs, hup, hparent, hfile, hrest, rfl⟩

end Tortue.CreateFiles
