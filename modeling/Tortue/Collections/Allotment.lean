import Mathlib.Data.List.Count
import Mathlib.Data.List.Nodup
import Mathlib.Logic.Function.Basic

namespace Collections

universe u v

variable {β : Type u} {π : Type v} {ok : β → π → Prop}

section

variable [DecidableEq β]

theorem filterMap_update {f : β → Option π} {b : β} {l : List β} (hb : b ∉ l) (x : Option π) :
    l.filterMap (Function.update f b x) = l.filterMap f := by
  refine List.filterMap_congr fun c hc => ?_
  rw [Function.update_of_ne]
  rintro rfl
  exact hb hc

theorem filterMap_release {f : β → Option π} {b : β} {p : π} {l : List β} (hnodup : l.Nodup)
    (hb : b ∈ l) (hf : f b = some p) :
    (l.filterMap f).Perm (p :: l.filterMap (Function.update f b none)) := by
  induction l with
  | nil => contradiction
  | cons c l ih =>
    obtain ⟨hc, hnodup⟩ := List.nodup_cons.mp hnodup
    by_cases hcb : c = b
    · subst hcb
      rw [List.filterMap_cons_some hf, List.filterMap_cons_none (Function.update_self ..),
        filterMap_update hc]
    · have hrest := ih hnodup ((List.mem_cons.mp hb).resolve_left (Ne.symm hcb))
      have hsame : Function.update f b none c = f c := Function.update_of_ne hcb ..
      cases hfc : f c with
      | none =>
        rw [List.filterMap_cons_none hfc, List.filterMap_cons_none (hsame.trans hfc)]
        exact hrest
      | some q =>
        rw [List.filterMap_cons_some hfc, List.filterMap_cons_some (hsame.trans hfc)]
        exact (hrest.cons q).trans (.swap p q _)

end

variable [DecidableEq π]

def spend (cap : π → Nat) (p : π) (q : π) : Nat := if q = p then cap q - 1 else cap q

inductive Greedy (ok : β → π → Prop) : (π → Nat) → Nat → List β → List (β × π) → Prop
  | nil {cap : π → Nat} {n : Nat} : Greedy ok cap n [] []
  | spent {cap : π → Nat} {l : List β} : Greedy ok cap 0 l []
  | skip {cap : π → Nat} {n : Nat} {b : β} {l : List β} {ps : List (β × π)} :
      (∀ p, ok b p → cap p = 0) → Greedy ok cap n l ps → Greedy ok cap n (b :: l) ps
  | pick {cap : π → Nat} {n : Nat} {b : β} {p : π} {l : List β} {ps : List (β × π)} :
      ok b p → 0 < cap p → Greedy ok (spend cap p) n l ps →
        Greedy ok cap (n + 1) (b :: l) ((b, p) :: ps)

def Leftover (ok : β → π → Prop) (cap : π → Nat) (l : List β) (ps : List (β × π)) : Prop :=
  ∃ b ∈ l, b ∉ ps.map Prod.fst ∧ ∃ p, ok b p ∧ (ps.map Prod.snd).count p < cap p

structure Allots (ok : β → π → Prop) (cap : π → Nat) (l : List β) (f : β → Option π) : Prop where
  allowed : ∀ b ∈ l, ∀ p, f b = some p → ok b p
  within : ∀ p, (l.filterMap f).count p ≤ cap p

theorem count_spend {cap : π → Nat} {p : π} (hp : 0 < cap p) (q : π) (l : List π) :
    (p :: l).count q ≤ cap q ↔ l.count q ≤ spend cap p q := by
  unfold spend
  by_cases h : q = p
  · subst h
    rw [if_pos rfl, List.count_cons_self]
    omega
  · rw [if_neg h, List.count_cons_of_ne (Ne.symm h)]

theorem count_lt_spend {cap : π → Nat} {p q : π} {l : List π} :
    l.count q < spend cap p q ↔ (p :: l).count q < cap q := by
  unfold spend
  by_cases h : q = p
  · subst h
    rw [if_pos rfl, List.count_cons_self]
    omega
  · rw [if_neg h, List.count_cons_of_ne (Ne.symm h)]

theorem Greedy.subset {cap : π → Nat} {n : Nat} {l : List β} {ps : List (β × π)}
    (h : Greedy ok cap n l ps) : ∀ c ∈ ps.map Prod.fst, c ∈ l := by
  induction h with
  | nil => simp
  | spent => simp
  | skip _ _ ih => exact fun c hc => List.mem_cons_of_mem _ (ih c hc)
  | pick _ _ _ ih =>
    intro c hc
    rw [List.map_cons, List.mem_cons] at hc
    rcases hc with rfl | hc
    · exact List.mem_cons_self ..
    · exact List.mem_cons_of_mem _ (ih c hc)

theorem Greedy.of_spent {cap : π → Nat} {l : List β} {ps : List (β × π)}
    (h : Greedy ok cap 0 l ps) : ps = [] := by
  generalize hn : 0 = n at h
  induction h with
  | nil => rfl
  | spent => rfl
  | skip _ _ ih => exact ih hn
  | pick => contradiction

theorem leftover_tail {cap : π → Nat} {b : β} {p : π} {l : List β} {ps : List (β × π)}
    (h : Leftover ok cap (b :: l) ((b, p) :: ps)) : Leftover ok (spend cap p) l ps := by
  obtain ⟨c, hc, hfree, q, hok, hroom⟩ := h
  rw [List.map_cons, List.mem_cons, not_or] at hfree
  refine ⟨c, (List.mem_cons.mp hc).resolve_left hfree.1, hfree.2, q, hok, ?_⟩
  rw [count_lt_spend]
  exact hroom

theorem leftover_cons {cap : π → Nat} {b : β} {p : π} {l : List β} {ps : List (β × π)}
    (hb : b ∉ l) (h : Leftover ok (spend cap p) l ps) :
    Leftover ok cap (b :: l) ((b, p) :: ps) := by
  obtain ⟨c, hc, hfree, q, hok, hroom⟩ := h
  refine ⟨c, List.mem_cons_of_mem _ hc, ?_, q, hok, count_lt_spend.mp hroom⟩
  rw [List.map_cons, List.mem_cons, not_or]
  refine ⟨?_, hfree⟩
  rintro rfl
  exact hb hc

theorem Greedy.maximal {cap : π → Nat} {n : Nat} {l : List β} {ps : List (β × π)}
    (h : Greedy ok cap n l ps) (hlt : ps.length < n) : ¬ Leftover ok cap l ps := by
  induction h with
  | nil =>
    rintro ⟨b, hb, -⟩
    contradiction
  | spent => contradiction
  | @skip cap n b l ps hnone _ ih =>
    rintro ⟨c, hc, hfree, q, hok, hroom⟩
    rcases List.mem_cons.mp hc with rfl | hc
    · have hzero := hnone q hok
      omega
    · exact ih hlt ⟨c, hc, hfree, q, hok, hroom⟩
  | @pick cap n b p l ps _ _ _ ih =>
    intro hleft
    rw [List.length_cons] at hlt
    exact ih (by omega) (leftover_tail hleft)

variable [DecidableEq β]

theorem allotment_of_leftover {cap : π → Nat} {n : Nat} {l : List β} {ps : List (β × π)}
    (h : Greedy ok cap n l ps) (hnodup : l.Nodup) (hleft : Leftover ok cap l ps) :
    ∃ f, Allots ok cap l f ∧ n < (l.filterMap f).length := by
  induction h with
  | nil =>
    obtain ⟨b, hb, -⟩ := hleft
    contradiction
  | @spent cap l =>
    obtain ⟨b, hb, -, p, hok, hroom⟩ := hleft
    refine ⟨Function.update (fun _ => none) b (some p), ⟨fun c _ q hq => ?_, fun q => ?_⟩, ?_⟩
    · by_cases hcb : c = b
      · subst hcb
        rw [Function.update_self, Option.some.injEq] at hq
        exact hq ▸ hok
      · rw [Function.update_of_ne hcb] at hq
        contradiction
    · have hperm := filterMap_release (p := p) hnodup hb
        (Function.update_self b (some p) fun _ => none)
      rw [Function.update_idem, Function.update_eq_self b fun _ => (none : Option π)] at hperm
      rw [hperm.count_eq, List.filterMap_none, count_spend (by omega)]
      exact Nat.zero_le _
    · refine List.length_pos_of_mem (a := p) (List.mem_filterMap.mpr ⟨b, hb, ?_⟩)
      rw [Function.update_self]
  | @skip cap n b l ps hnone hrun ih =>
    obtain ⟨hb, hnodup⟩ := List.nodup_cons.mp hnodup
    obtain ⟨c, hc, hfree, q, hok, hroom⟩ := hleft
    have hcl : c ∈ l := by
      rcases List.mem_cons.mp hc with rfl | hc
      · have hzero := hnone q hok
        omega
      · exact hc
    obtain ⟨f, hf, hsize⟩ := ih hnodup ⟨c, hcl, hfree, q, hok, hroom⟩
    refine ⟨Function.update f b none, ⟨fun d hd r hr => ?_, fun r => ?_⟩, ?_⟩
    · by_cases hdb : d = b
      · rw [hdb, Function.update_self] at hr
        contradiction
      · rw [Function.update_of_ne hdb] at hr
        exact hf.allowed d ((List.mem_cons.mp hd).resolve_left hdb) r hr
    · rw [List.filterMap_cons_none (Function.update_self ..), filterMap_update hb]
      exact hf.within r
    · rw [List.filterMap_cons_none (Function.update_self ..), filterMap_update hb]
      exact hsize
  | @pick cap n b p l ps hokb hcap hrun ih =>
    obtain ⟨hb, hnodup⟩ := List.nodup_cons.mp hnodup
    obtain ⟨f, hf, hsize⟩ := ih hnodup (leftover_tail hleft)
    refine ⟨Function.update f b (some p), ⟨fun d hd r hr => ?_, fun r => ?_⟩, ?_⟩
    · by_cases hdb : d = b
      · rw [hdb, Function.update_self, Option.some.injEq] at hr
        rw [hdb, ← hr]
        exact hokb
      · rw [Function.update_of_ne hdb] at hr
        exact hf.allowed d ((List.mem_cons.mp hd).resolve_left hdb) r hr
    · rw [List.filterMap_cons_some (Function.update_self ..), filterMap_update hb,
        count_spend hcap]
      exact hf.within r
    · rw [List.filterMap_cons_some (Function.update_self ..), filterMap_update hb,
        List.length_cons]
      omega

theorem Allots.after_pick {cap : π → Nat} {l : List β} {f : β → Option π} (h : Allots ok cap l f)
    (hnodup : l.Nodup) {p : π} (hp : 0 < cap p) :
    ∃ g, Allots ok (spend cap p) l g ∧ (l.filterMap f).length ≤ (l.filterMap g).length + 1 := by
  by_cases hroom : (l.filterMap f).count p < cap p
  · refine ⟨f, ⟨h.allowed, fun q => ?_⟩, Nat.le_succ _⟩
    have hq := h.within q
    unfold spend
    split
    · next hqp =>
      subst hqp
      omega
    · exact hq
  · have hused : 0 < (l.filterMap f).count p := by omega
    obtain ⟨b, hb, hf⟩ := List.mem_filterMap.mp (List.count_pos_iff.mp hused)
    have hperm := filterMap_release hnodup hb hf
    refine ⟨Function.update f b none, ⟨fun c hc q hq => ?_, fun q => ?_⟩, ?_⟩
    · by_cases hcb : c = b
      · rw [hcb, Function.update_self] at hq
        contradiction
      · rw [Function.update_of_ne hcb] at hq
        exact h.allowed c hc q hq
    · rw [← count_spend hp, ← hperm.count_eq]
      exact h.within q
    · exact Nat.le_of_eq hperm.length_eq

theorem leftover_of_allotment {cap : π → Nat} {n : Nat} {l : List β} {f : β → Option π}
    (h : Allots ok cap l f) (hnodup : l.Nodup) (hsize : n < (l.filterMap f).length) :
    ∃ ps, Greedy ok cap n l ps ∧ Leftover ok cap l ps := by
  induction l generalizing cap n f with
  | nil => simp at hsize
  | cons b l ih =>
    obtain ⟨hb, hnodup'⟩ := List.nodup_cons.mp hnodup
    cases n with
    | zero =>
      obtain ⟨p, hp⟩ := List.exists_mem_of_length_pos hsize
      obtain ⟨c, hc, hfc⟩ := List.mem_filterMap.mp hp
      refine ⟨[], .spent, c, hc, by simp, p, h.allowed c hc p hfc, ?_⟩
      have hcount := List.count_pos_iff.mpr hp
      have hwithin := h.within p
      simp only [List.map_nil, List.count_nil]
      omega
    | succ n =>
      have hallowed : ∀ c ∈ l, ∀ p, f c = some p → ok c p := fun c hc =>
        h.allowed c (List.mem_cons_of_mem _ hc)
      cases hfb : f b with
      | some p =>
        have hokb := h.allowed b (List.mem_cons_self ..) p hfb
        have hwithin := h.within
        simp only [List.filterMap_cons_some hfb] at hwithin hsize
        have hcap : 0 < cap p := by
          have hp := hwithin p
          rw [List.count_cons_self] at hp
          omega
        have hrest : Allots ok (spend cap p) l f :=
          ⟨hallowed, fun q => (count_spend hcap q _).mp (hwithin q)⟩
        rw [List.length_cons, Nat.add_lt_add_iff_right] at hsize
        obtain ⟨ps, hrun, hleft⟩ := ih hrest hnodup' hsize
        exact ⟨(b, p) :: ps, .pick hokb hcap hrun, leftover_cons hb hleft⟩
      | none =>
        have hwithin := h.within
        simp only [List.filterMap_cons_none hfb] at hwithin hsize
        have hrest : Allots ok cap l f := ⟨hallowed, hwithin⟩
        by_cases hpick : ∃ p, ok b p ∧ 0 < cap p
        · obtain ⟨p, hokb, hcap⟩ := hpick
          obtain ⟨g, hg, hlen⟩ := hrest.after_pick hnodup' hcap
          have hsize' : n < (l.filterMap g).length := by omega
          obtain ⟨ps, hrun, hleft⟩ := ih hg hnodup' hsize'
          exact ⟨(b, p) :: ps, .pick hokb hcap hrun, leftover_cons hb hleft⟩
        · obtain ⟨ps, hrun, c, hc, hfree, hq⟩ := ih hrest hnodup' hsize
          refine ⟨ps, .skip (fun p hp => ?_) hrun, c, List.mem_cons_of_mem _ hc, hfree, hq⟩
          by_contra hpos
          exact hpick ⟨p, hp, Nat.pos_of_ne_zero hpos⟩

theorem greedy_leftover_iff {cap : π → Nat} {n : Nat} {l : List β} (hnodup : l.Nodup) :
    (∃ ps, Greedy ok cap n l ps ∧ Leftover ok cap l ps) ↔
      ∃ f, Allots ok cap l f ∧ n < (l.filterMap f).length := by
  constructor
  · rintro ⟨ps, hrun, hleft⟩
    exact allotment_of_leftover hrun hnodup hleft
  · rintro ⟨f, hf, hsize⟩
    exact leftover_of_allotment hf hnodup hsize

end Collections
