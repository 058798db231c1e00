import Tortue.Adapters.CreateFiles

namespace Tortue.CreateFiles

open Unix

variable {σ φ : Type} {os : Os σ φ}

def basePath (m : Metainfo) (root : Path) : Path := root.join (utf8Bytes m.name)

def targets (m : Metainfo) (root : Path) : List Path :=
  match m.mode with
  | .single _ => [basePath m root]
  | .multiple files => files.map fun f => (basePath m root).join (entryPath f)

structure Confined (root : Path) (paths opened : List Path) (done : Bool) : Prop where
  initial : opened <+: paths
  below : ∀ p ∈ opened, Path.Below root p
  complete : done = true → opened = paths

theorem Confined.nil (root : Path) (paths : List Path) : Confined root paths [] false where
  initial := List.nil_prefix
  below := by simp
  complete := by simp

theorem Confined.cons {root path : Path} {paths opened : List Path} {done : Bool}
    (hpath : Path.Below root path) (h : Confined root paths opened done) :
    Confined root (path :: paths) (path :: opened) done where
  initial := (List.prefix_cons_inj path).mpr h.initial
  below := List.forall_mem_cons.mpr ⟨hpath, h.below⟩
  complete := fun hdone => by rw [h.complete hdone]

theorem Confined.only {root path : Path} (paths : List Path) (hpath : Path.Below root path) :
    Confined root (path :: paths) [path] false :=
  (Confined.nil root paths).cons hpath

theorem Confined.below_root {root base : Path} {paths opened : List Path} {done : Bool}
    (hbase : Path.Below root base) (h : Confined base paths opened done) :
    Confined root paths opened done where
  initial := h.initial
  below := fun p hp => hbase.trans (h.below p hp)
  complete := h.complete

theorem Confined.before {root path : Path} {paths opened : List Path} {done : Bool} {i : Nat}
    (h : Confined root paths opened done) (hpath : paths[i]? = some path)
    (hout : ¬ Path.Below root path) : opened <+: paths.take i := by
  have hlen : opened.length ≤ i := by
    by_contra hlt
    have hi : i < opened.length := not_le.mp hlt
    have hmem : path ∈ opened := by
      rw [List.prefix_iff_getElem?.mp h.initial i hi, Option.some_inj] at hpath
      exact hpath ▸ List.getElem_mem hi
    exact hout (h.below path hmem)
  exact List.prefix_take_iff.mpr ⟨h.initial, hlen⟩

theorem Confined.not_done {root path : Path} {paths opened : List Path} {done : Bool}
    (h : Confined root paths opened done) (hpath : path ∈ paths)
    (hout : ¬ Path.Below root path) : done = false := by
  rw [← Bool.not_eq_true]
  intro hdone
  rw [← h.complete hdone] at hpath
  exact hout (h.below path hpath)

theorem toBool_map {ε α β : Type} (g : α → β) (r : Except ε α) : (r.map g).toBool = r.toBool := by
  cases r <;> rfl

theorem prepared_cases {α : Type} (os : Os σ φ) (root path : Path) (f : Path → Io σ α)
    (s : Session σ) :
    (∃ e t, t.opened = s.opened ∧
      (liftM (buildPath root path) >>= fun p => createParent os p >>= fun _ => f p) s =
        (.error e, t)) ∨
      ∃ t, Path.Below root (root.join path) ∧ t.opened = s.opened ∧
        (liftM (buildPath root path) >>= fun p => createParent os p >>= fun _ => f p) s =
          f (root.join path) t := by
  obtain ⟨e, t, ht, h⟩ | ⟨built, t, hbuild, ht, h⟩ := quiet_cases
    (quiet_lift (buildPath root path)) (fun p => createParent os p >>= fun _ => f p) s
  · exact .inl ⟨e, t, ht, h⟩
  rw [lift_apply, Prod.mk.injEq] at hbuild
  obtain ⟨hbuild, rfl⟩ := hbuild
  have hbelow := below_buildPath hbuild
  obtain ⟨-, -, rfl⟩ := buildPath_ok hbuild
  obtain ⟨e, u, hu, h'⟩ | ⟨_, u, -, hu, h'⟩ :=
    quiet_cases (quiet_createParent os (root.join path)) (fun _ => f (root.join path)) s
  · exact .inl ⟨e, u, hu, h.trans h'⟩
  · exact .inr ⟨u, hbelow, hu, h.trans h'⟩

theorem createEntries_confined (os : Os σ φ) (base : Path) (offset : Nat) (files : List File)
    (s : Session σ) :
    ∃ opened, (createEntries os base offset files s).2.opened = s.opened ++ opened ∧
      Confined base (files.map fun f => base.join (entryPath f)) opened
        (createEntries os base offset files s).1.toBool := by
  induction files generalizing offset s with
  | nil => exact ⟨[], (List.append_nil _).symm, List.prefix_rfl, by simp, fun _ => rfl⟩
  | cons f files ih =>
    rw [createEntries, List.map_cons]
    obtain ⟨e, t, ht, h⟩ | ⟨t, hpath, ht, h⟩ := prepared_cases os base (entryPath f) _ s
    · rw [h, ht]
      exact ⟨[], (List.append_nil _).symm, .nil base _⟩
    rw [h]
    have hopened := openFile_opened os (base.join (entryPath f)) f.length t
    rw [ht] at hopened
    obtain ⟨e, u, hu, h⟩ | ⟨file, u, hu, h⟩ :=
      bind_cases (openFile os (base.join (entryPath f)) f.length) _ t
    · rw [h]
      rw [hu] at hopened
      exact ⟨[base.join (entryPath f)], hopened, .only _ hpath⟩
    rw [h, bind_pure_apply, toBool_map]
    rw [hu] at hopened
    obtain ⟨opened, hrest, hconf⟩ := ih (wrap (offset + f.length)) u
    refine ⟨base.join (entryPath f) :: opened, ?_, .cons hpath hconf⟩
    rw [hrest, hopened, List.append_assoc, List.singleton_append]

theorem createFiles_confined (os : Os σ φ) (m : Metainfo) (root : Path) (t : σ) :
    Confined root (targets m root) (createFiles os m root ⟨t, []⟩).2.opened
      (createFiles os m root ⟨t, []⟩).1.toBool := by
  rw [createFiles]
  obtain ⟨e, u, hu, h⟩ | ⟨u, hbase, hu, h⟩ :=
    prepared_cases os root (utf8Bytes m.name) _ ⟨t, []⟩
  · rw [h, hu]
    exact .nil root _
  rw [h, targets]
  cases m.mode with
  | single length =>
    simp only
    rw [bind_pure_apply, openFile_opened, hu]
    exact ⟨List.prefix_rfl, by simpa using hbase, fun _ => rfl⟩
  | multiple files =>
    obtain ⟨opened, hrest, hconf⟩ :=
      createEntries_confined os (root.join (utf8Bytes m.name)) 0 files u
    simp only
    rw [hrest, hu, List.nil_append]
    exact hconf.below_root hbase

theorem error_of_toBool {ε α : Type} {r : Except ε α} (h : r.toBool = false) :
    ∃ e, r = .error e := by
  cases r with
  | ok a => cases h
  | error e => exact ⟨e, rfl⟩

theorem createFiles_refused (os : Os σ φ) {m : Metainfo} {root : Path} (t : σ)
    (hout : ¬ Path.Below root (basePath m root)) :
    createFiles os m root ⟨t, []⟩ = (.error .pathTraversal, ⟨t, []⟩) := by
  obtain hbuild | ⟨habs, hup, -⟩ := buildPath_cases root (utf8Bytes m.name)
  · rw [createFiles, hbuild]
    rfl
  · exact absurd (Path.below_join root habs hup) hout

theorem createFiles_below_root (os : Os σ φ) (m : Metainfo) (root : Path) (t : σ) :
    (∀ path ∈ (createFiles os m root ⟨t, []⟩).2.opened, Path.Below root path) ∧
      (¬ Path.Below root (basePath m root) →
        (∃ e, (createFiles os m root ⟨t, []⟩).1 = .error e) ∧
          (createFiles os m root ⟨t, []⟩).2.opened = []) ∧
      ∀ i path, (targets m root)[i]? = some path → ¬ Path.Below root path →
        (∃ e, (createFiles os m root ⟨t, []⟩).1 = .error e) ∧
          (createFiles os m root ⟨t, []⟩).2.opened <+: (targets m root).take i := by
  have hconf := createFiles_confined os m root t
  refine ⟨hconf.below, ?_, ?_⟩
  · intro hout
    rw [createFiles_refused os t hout]
    exact ⟨⟨.pathTraversal, rfl⟩, rfl⟩
  · intro i path hpath hout
    have hdone := hconf.not_done (List.mem_of_getElem? hpath) hout
    exact ⟨error_of_toBool hdone, hconf.before hpath hout⟩

end Tortue.CreateFiles
