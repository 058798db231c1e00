import Mathlib.Data.List.DropRight

namespace Unix

abbrev Path := List UInt8

abbrev Name := List UInt8

def slash : UInt8 := 47

def dot : Name := [46]

def dotDot : Name := [46, 46]

inductive Component where
  | rootDir
  | curDir
  | parentDir
  | normal (name : Name)
  deriving DecidableEq

namespace Path

def isAbsolute (p : Path) : Bool := p.head? = some slash

def parts (p : Path) : List Name := p.splitOn slash

def skips (part : Name) : Bool := part = [] || part = dot

def names (p : Path) : List Name := p.parts.filter fun part => !skips part

def component (name : Name) : Component := if name = dotDot then .parentDir else .normal name

-- A leading `.` of a relative path is the only one that counts as a component.
def leading (p : Path) : List Component :=
  if p.isAbsolute then [.rootDir] else if p.parts.head? = some dot then [.curDir] else []

def components (p : Path) : List Component := p.leading ++ p.names.map component

def push (p q : Path) : Path :=
  if q.isAbsolute then q
  else if p = [] ∨ p.getLast? = some slash then p ++ q
  else p ++ slash :: q

def join (p q : Path) : Path := p.push q

def fromIter (ps : List Path) : Path := ps.foldl push []

def trimEnd (parts : List Name) : List Name := parts.rdropWhile skips

def parent (p : Path) : Option Path :=
  match p.parts with
  | [] => none
  | first :: rest =>
    if trimEnd rest = [] then if first = [] then none else some []
    else
      let kept := trimEnd (trimEnd rest).dropLast
      if first = [] ∧ kept = [] then some [slash] else some ([slash].intercalate (first :: kept))

variable {p q : Path}

@[simp] theorem names_nil : names [] = [] := rfl

theorem names_append_slash (a b : Path) : names (a ++ slash :: b) = names a ++ names b := by
  rw [names, parts, List.splitOn_append_cons_self, List.filter_append]
  rfl

theorem parts_append_slash (a b : Path) : parts (a ++ slash :: b) = parts a ++ parts b :=
  List.splitOn_append_cons_self a b

-- Pushing a relative path puts one separator in between, unless there is nothing before it.
theorem push_cases (p : Path) (h : q.isAbsolute = false) :
    (p = [] ∧ p.push q = q) ∨
      ∃ a, p ≠ [] ∧ (p = a ∨ p = a ++ [slash]) ∧ p.push q = a ++ slash :: q := by
  rw [push, if_neg (by simp [h])]
  rcases List.eq_nil_or_concat p with rfl | ⟨a, c, rfl⟩
  · exact .inl ⟨rfl, rfl⟩
  · refine .inr ?_
    rw [List.concat_eq_append]
    by_cases hc : c = slash
    · refine ⟨a, by simp, .inr (by rw [hc]), ?_⟩
      rw [hc, if_pos (by simp), List.append_assoc, List.singleton_append]
    · refine ⟨a ++ [c], by simp, .inl rfl, ?_⟩
      rw [if_neg (by simp [hc])]

theorem names_push (p : Path) (h : q.isAbsolute = false) :
    (p.push q).names = p.names ++ q.names := by
  obtain ⟨rfl, hpush⟩ | ⟨a, -, ha, hpush⟩ := push_cases p h
  · rw [hpush, names_nil, List.nil_append]
  · rw [hpush, names_append_slash]
    rcases ha with rfl | rfl
    · rfl
    · rw [names_append_slash, names_nil, List.append_nil]

theorem parts_ne_nil (p : Path) : p.parts ≠ [] := List.splitOn_ne_nil slash p

theorem leading_append_slash {a : Path} (b : Path) (h : a ≠ []) :
    leading (a ++ slash :: b) = leading a := by
  have habs : isAbsolute (a ++ slash :: b) = isAbsolute a := by
    rw [isAbsolute, isAbsolute, List.head?_append_of_ne_nil a h]
  have hparts : (parts (a ++ slash :: b)).head? = (parts a).head? := by
    rw [parts_append_slash, List.head?_append_of_ne_nil _ (parts_ne_nil a)]
  rw [leading, leading, habs, hparts]

theorem isAbsolute_push (hp : p ≠ []) (h : q.isAbsolute = false) :
    (p.push q).isAbsolute = p.isAbsolute := by
  rw [push, if_neg (by simp [h])]
  split_ifs <;> rw [isAbsolute, isAbsolute, List.head?_append_of_ne_nil p hp]

theorem leading_push (hp : p ≠ []) (h : q.isAbsolute = false) :
    (p.push q).leading = p.leading := by
  obtain ⟨rfl, -⟩ | ⟨a, -, ha, hpush⟩ := push_cases p h
  · exact absurd rfl hp
  rw [hpush]
  by_cases ha' : a = []
  · subst ha'
    rcases ha with rfl | rfl
    · exact absurd rfl hp
    · rfl
  · rw [leading_append_slash q ha']
    rcases ha with rfl | rfl
    · rfl
    · rw [leading_append_slash [] ha']

theorem components_push (hp : p ≠ []) (h : q.isAbsolute = false) :
    (p.push q).components = p.components ++ q.names.map component := by
  rw [components, components, leading_push hp h, names_push p h, List.map_append,
    List.append_assoc]

theorem nil_push (q : Path) : push [] q = q := by simp [push]

theorem push_absolute (h : p.isAbsolute = true) (q : Path) : (p.push q).isAbsolute = true := by
  cases hq : q.isAbsolute with
  | true => rwa [push, if_pos hq]
  | false =>
    have hp : p ≠ [] := fun hp => by simp [hp, isAbsolute] at h
    rw [isAbsolute_push hp hq, h]

theorem foldl_push_absolute (h : p.isAbsolute = true) (ps : List Path) :
    (ps.foldl push p).isAbsolute = true := by
  induction ps generalizing p with
  | nil => exact h
  | cons q ps ih => exact ih (push_absolute h q)

theorem names_foldl_push {ps : List Path} (h : (ps.foldl push p).isAbsolute = false) :
    (ps.foldl push p).names = p.names ++ ps.flatMap names := by
  induction ps generalizing p with
  | nil => exact (List.append_nil _).symm
  | cons q ps ih =>
    have hq : q.isAbsolute = false := by
      rw [← Bool.not_eq_true]
      intro hq
      have hpush : (p.push q).isAbsolute = true := by rwa [push, if_pos hq]
      rw [List.foldl_cons, foldl_push_absolute hpush ps] at h
      cases h
    rw [List.foldl_cons, ih h, names_push p hq, List.flatMap_cons, List.append_assoc]

theorem names_fromIter {ps : List Path} (h : (fromIter ps).isAbsolute = false) :
    (fromIter ps).names = ps.flatMap names := names_foldl_push h

theorem parentDir_mem_components_iff : .parentDir ∈ p.components ↔ dotDot ∈ p.names := by
  have hlead : .parentDir ∉ p.leading := by
    rw [leading]
    split_ifs <;> simp
  have hcomp : ∀ name, component name = .parentDir ↔ name = dotDot := by
    intro name
    rw [component]
    split_ifs with hname <;> simp [hname]
  rw [components, List.mem_append, List.mem_map]
  simp [hlead, hcomp]

def Below (root path : Path) : Prop :=
  ∃ rest, path.components = root.components ++ rest ∧ .parentDir ∉ rest

theorem Below.trans {a b c : Path} (hab : Below a b) (hbc : Below b c) : Below a c := by
  obtain ⟨r, hb, hr⟩ := hab
  obtain ⟨s, hc, hs⟩ := hbc
  exact ⟨r ++ s, by rw [hc, hb, List.append_assoc], by simp [hr, hs]⟩

theorem below_join (p : Path) (h : q.isAbsolute = false) (hq : .parentDir ∉ q.components) :
    Below p (p.join q) := by
  rw [join]
  by_cases hp : p = []
  · subst hp
    exact ⟨q.components, by rw [nil_push]; rfl, hq⟩
  · refine ⟨q.names.map component, components_push hp h, fun hmem => hq ?_⟩
    exact List.mem_append_right _ hmem

end Path

end Unix
