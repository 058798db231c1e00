namespace Collections

universe u v w

structure Event (σ : Type u) (ι : Type v) (ο : Type w) where
  before : σ
  input : ι
  outputs : List ο

-- The newest event comes first, so "since then" is a prefix of the list.
inductive History {σ : Type u} {ι : Type v} {ο : Type w} (step : σ → ι → σ × List ο)
    (init : σ → Prop) : List (Event σ ι ο) → σ → Prop
  | start {s : σ} : init s → History step init [] s
  | next {h : List (Event σ ι ο)} {s : σ} (i : ι) : History step init h s →
      History step init (⟨s, i, (step s i).2⟩ :: h) (step s i).1

def Since {α : Type u} (P Q : α → Prop) (h : List α) : Prop :=
  ∃ newer e older, h = newer ++ e :: older ∧ P e ∧ ∀ f ∈ newer, ¬ Q f

theorem since_cons {α : Type u} {P Q : α → Prop} {e : α} {h : List α} :
    Since P Q (e :: h) ↔ (Since P Q h ∧ ¬ Q e) ∨ P e := by
  constructor
  · rintro ⟨newer, f, older, hh, hf, hkept⟩
    cases newer with
    | nil =>
      rw [List.nil_append, List.cons.injEq] at hh
      exact .inr (hh.1 ▸ hf)
    | cons g newer =>
      rw [List.cons_append, List.cons.injEq] at hh
      obtain ⟨rfl, hh⟩ := hh
      refine .inl ⟨⟨newer, f, older, hh, hf, fun k hk => ?_⟩, ?_⟩
      · exact hkept k (List.mem_cons_of_mem _ hk)
      · exact hkept e (List.mem_cons_self ..)
  · rintro (⟨⟨newer, f, older, rfl, hf, hkept⟩, hnow⟩ | he)
    · refine ⟨e :: newer, f, older, rfl, hf, fun k hk => ?_⟩
      rcases List.mem_cons.mp hk with rfl | hk
      · exact hnow
      · exact hkept k hk
    · exact ⟨[], e, h, rfl, he, by simp⟩

theorem since_after {α : Type u} {P Q : α → Prop} {newer older : List α} {f : α}
    (h : Since P Q (newer ++ f :: older)) (hf : Q f) : P f ∨ ∃ g ∈ newer, P g := by
  induction newer with
  | nil =>
    rcases since_cons.mp h with ⟨-, hnot⟩ | hp
    · exact absurd hf hnot
    · exact .inl hp
  | cons g newer ih =>
    rcases since_cons.mp h with ⟨hold, -⟩ | hp
    · exact (ih hold).imp_right fun ⟨k, hk, hp⟩ => ⟨k, List.mem_cons_of_mem _ hk, hp⟩
    · exact .inr ⟨g, List.mem_cons_self .., hp⟩

theorem position_iff {α : Type u} {h : List α} {n : Nat} {e : α} :
    h.reverse[n]? = some e ↔ ∃ newer older, h = newer ++ e :: older ∧ older.length = n := by
  constructor
  · intro hn
    obtain ⟨hlt, he⟩ := List.getElem?_eq_some_iff.mp hn
    refine ⟨(h.reverse.drop (n + 1)).reverse, (h.reverse.take n).reverse, ?_, ?_⟩
    · have hsplit := List.take_append_drop n h.reverse
      rw [List.drop_eq_getElem_cons hlt, he] at hsplit
      simpa using congrArg List.reverse hsplit.symm
    · rw [List.length_reverse, List.length_take, Nat.min_eq_left (Nat.le_of_lt hlt)]
  · rintro ⟨newer, older, rfl, rfl⟩
    simp

structure Answers {α : Type u} (P Q : α → Prop) (h : List α) (k n : Nat) : Prop where
  earlier : k < n
  opens : ∃ e, h.reverse[k]? = some e ∧ P e
  kept : ∀ i e, k < i → i < n → h.reverse[i]? = some e → ¬ Q e

theorem answers_of_since {α : Type u} {P Q : α → Prop} (newer : List α) (e : α) {older : List α}
    (h : Since P Q older) : ∃ k, Answers P Q (newer ++ e :: older) k older.length := by
  obtain ⟨between, f, oldest, rfl, hf, hkept⟩ := h
  refine ⟨oldest.length, ?_, ⟨f, by simp, hf⟩, fun i g hi hn hg => hkept g ?_⟩
  · rw [List.length_append, List.length_cons]
    omega
  · have hlist : (newer ++ e :: (between ++ f :: oldest)).reverse =
        (f :: oldest).reverse ++ (between.reverse ++ e :: newer.reverse) := by simp
    rw [List.length_append, List.length_cons] at hn
    rw [hlist, List.getElem?_append_right (by simp; omega), List.getElem?_append_left] at hg
    · exact List.mem_reverse.mp (List.mem_of_getElem? hg)
    · simp
      omega

theorem Answers.unique {α : Type u} {P Q : α → Prop} {h : List α} {k n n' : Nat} {e e' : α}
    (ha : Answers P Q h k n) (ha' : Answers P Q h k n') (hn : h.reverse[n]? = some e)
    (hn' : h.reverse[n']? = some e') (he : Q e) (he' : Q e') : n = n' := by
  rcases Nat.lt_trichotomy n n' with hlt | heq | hgt
  · exact absurd he (ha'.kept n e ha.earlier hlt hn)
  · exact heq
  · exact absurd he' (ha.kept n' e' ha'.earlier hgt hn')

namespace History

variable {σ : Type u} {ι : Type v} {ο : Type w} {step : σ → ι → σ × List ο} {init : σ → Prop}

def Reachable (step : σ → ι → σ × List ο) (init : σ → Prop) (s : σ) : Prop :=
  ∃ h, History step init h s

theorem invariant {P : σ → Prop} (hinit : ∀ s, init s → P s)
    (hstep : ∀ s i, P s → P (step s i).1) {h : List (Event σ ι ο)} {s : σ}
    (hist : History step init h s) : P s := by
  induction hist with
  | start hs => exact hinit _ hs
  | next i _ ih => exact hstep _ i ih

theorem guarded_invariant {P : σ → Prop} {G : σ → ι → Prop} (hinit : ∀ s, init s → P s)
    (hstep : ∀ s i, G s i → P s → P (step s i).1) {h : List (Event σ ι ο)} {s : σ}
    (hist : History step init h s) (hG : ∀ e ∈ h, G e.before e.input) : P s := by
  induction hist with
  | start hs => exact hinit _ hs
  | next i _ ih =>
    have hnow := hG _ (List.mem_cons_self ..)
    exact hstep _ i hnow (ih fun e he => hG e (List.mem_cons_of_mem _ he))

theorem reachable_invariant {P : σ → Prop} (hinit : ∀ s, init s → P s)
    (hstep : ∀ s i, P s → P (step s i).1) {s : σ} (hr : Reachable step init s) : P s :=
  hr.elim fun _ hist => hist.invariant hinit hstep

theorem reachable_start {s : σ} (hs : init s) : Reachable step init s := ⟨[], .start hs⟩

theorem reachable_next {s : σ} (hr : Reachable step init s) (i : ι) :
    Reachable step init (step s i).1 :=
  hr.elim fun _ hist => ⟨_, hist.next i⟩

def run (step : σ → ι → σ × List ο) (s : σ) : List ι → σ × List ο
  | [] => (s, [])
  | i :: is =>
    ((run step (step s i).1 is).1, (step s i).2 ++ (run step (step s i).1 is).2)

theorem run_invariant {P : σ → Prop} {G : ι → Prop} (hstep : ∀ s i, G i → P s → P (step s i).1)
    {s : σ} (hs : P s) (is : List ι) (hG : ∀ i ∈ is, G i) : P (run step s is).1 := by
  induction is generalizing s with
  | nil => exact hs
  | cons i is ih =>
    have hnow : P (step s i).1 := hstep s i (hG i (List.mem_cons_self ..)) hs
    exact ih hnow fun j hj => hG j (List.mem_cons_of_mem _ hj)

theorem run_append (s : σ) (is js : List ι) : run step s (is ++ js) =
    ((run step (run step s is).1 js).1,
      (run step s is).2 ++ (run step (run step s is).1 js).2) := by
  induction is generalizing s with
  | nil => rfl
  | cons i is ih => rw [List.cons_append, run, ih, run, List.append_assoc]

def events (step : σ → ι → σ × List ο) (s : σ) : List ι → List (Event σ ι ο)
  | [] => []
  | i :: is => events step (step s i).1 is ++ [⟨s, i, (step s i).2⟩]

theorem run_events {h : List (Event σ ι ο)} {s : σ} (hist : History step init h s) (is : List ι) :
    History step init (events step s is ++ h) (run step s is).1 := by
  induction is generalizing h s with
  | nil => exact hist
  | cons i is ih =>
    have hnext := ih (hist.next i)
    rw [events, List.append_assoc, List.singleton_append]
    exact hnext

theorem mem_events {s : σ} {is : List ι} {e : Event σ ι ο} (he : e ∈ events step s is) :
    e.input ∈ is := by
  induction is generalizing s with
  | nil => contradiction
  | cons i is ih =>
    rcases List.mem_append.mp he with he | he
    · exact List.mem_cons_of_mem _ (ih he)
    · rw [List.mem_singleton] at he
      rw [he]
      exact List.mem_cons_self ..

theorem stable_after {P : σ → Prop} (hstep : ∀ s i, P s → P (step s i).1)
    {h newer older : List (Event σ ι ο)} {s : σ} {e : Event σ ι ο} (hist : History step init h s)
    (hh : h = newer ++ e :: older) (he : P (step e.before e.input).1) :
    (∀ f ∈ newer, P f.before) ∧ P s := by
  induction hist generalizing newer with
  | start _ => simp at hh
  | next i hist ih =>
    cases newer with
    | nil =>
      rw [List.nil_append, List.cons.injEq] at hh
      obtain ⟨rfl, rfl⟩ := hh
      exact ⟨by simp, he⟩
    | cons f newer =>
      rw [List.cons_append, List.cons.injEq] at hh
      obtain ⟨rfl, hh⟩ := hh
      obtain ⟨hnewer, hs⟩ := ih hh
      refine ⟨fun g hg => ?_, hstep _ i hs⟩
      rcases List.mem_cons.mp hg with rfl | hg
      · exact hs
      · exact hnewer g hg

theorem event_before {h newer older : List (Event σ ι ο)} {s : σ} {e : Event σ ι ο}
    (hist : History step init h s) (hh : h = newer ++ e :: older) :
    History step init older e.before ∧ e.outputs = (step e.before e.input).2 := by
  induction hist generalizing newer with
  | start _ => simp at hh
  | next i hist ih =>
    cases newer with
    | nil =>
      simp only [List.nil_append, List.cons.injEq] at hh
      obtain ⟨rfl, rfl⟩ := hh
      exact ⟨hist, rfl⟩
    | cons f newer =>
      simp only [List.cons_append, List.cons.injEq] at hh
      exact ih hh.2

end History

end Collections
