import Tortue.Adapters.TrackerIo
import Tortue.Domain.Swarm.Frame

namespace Tortue

open Collections

namespace SessionStats

def running (stats : SessionStats) : Bool := stats.swarmStatus.upload && decide (0 < stats.left)

def paused (stats : SessionStats) : Bool := !stats.swarmStatus.upload && decide (0 < stats.left)

def done (stats : SessionStats) : Bool := decide (stats.left = 0)

end SessionStats

namespace TrackerIo

variable {event : AnnounceEvent} {stats : SessionStats} {h rounds : List Round} {i j : Nat}
  {r q : Round} {a : Announce}

theorem nextEvent_done (hs : stats.done = true) : nextEvent event stats = .completed := by
  unfold nextEvent
  rw [if_pos (by simpa [SessionStats.done] using hs)]

theorem nextEvent_paused (hs : stats.paused = true) : nextEvent event stats = .stopped := by
  simp only [SessionStats.paused, Bool.and_eq_true, decide_eq_true_eq] at hs
  unfold nextEvent
  rw [if_neg hs.2.ne', if_pos hs.1]

theorem nextEvent_running (hs : stats.running = true) : nextEvent event stats = event := by
  simp only [SessionStats.running, Bool.and_eq_true, decide_eq_true_eq] at hs
  unfold nextEvent
  rw [if_neg hs.2.ne', if_neg (by simp [hs.1])]

theorem stats_cases (stats : SessionStats) :
    (stats.running = true ∧ stats.paused = false ∧ stats.done = false) ∨
    (stats.running = false ∧ stats.paused = true ∧ stats.done = false) ∨
    (stats.running = false ∧ stats.paused = false ∧ stats.done = true) := by
  unfold SessionStats.running SessionStats.paused SessionStats.done
  rcases Nat.eq_zero_or_pos stats.left with hleft | hleft
  · simp [hleft]
  · cases stats.swarmStatus.upload <;> simp [hleft, hleft.ne']

def Follows (P : SessionStats → Bool) (h : List Round) : Prop :=
  Since (fun r => P r.stats = true) (fun r => r.stats.running = false) h

def Fresh (h : List Round) : Prop := ∀ r ∈ h, r.stats.running = true

theorem follows_cons {P : SessionStats → Bool} : Follows P (r :: h) ↔
    (Follows P h ∧ r.stats.running = true) ∨ P r.stats = true := by
  rw [Follows, since_cons, Bool.not_eq_false]
  exact Iff.rfl

theorem event_completed_iff : eventAfter .started h = .completed ↔ Follows SessionStats.done h := by
  induction h with
  | nil => simp [eventAfter, Follows, Since]
  | cons r h ih =>
    rw [follows_cons, eventAfter]
    rcases stats_cases r.stats with ⟨hr, -, hd⟩ | ⟨hr, hp, hd⟩ | ⟨hr, -, hd⟩
    · rw [nextEvent_running hr, ih]
      simp [hr, hd]
    · rw [nextEvent_paused hp]
      simp [hr, hd]
    · rw [nextEvent_done hd]
      simp [hd]

theorem event_stopped_iff : eventAfter .started h = .stopped ↔ Follows SessionStats.paused h := by
  induction h with
  | nil => simp [eventAfter, Follows, Since]
  | cons r h ih =>
    rw [follows_cons, eventAfter]
    rcases stats_cases r.stats with ⟨hr, hp, -⟩ | ⟨hr, hp, -⟩ | ⟨hr, hp, hd⟩
    · rw [nextEvent_running hr, ih]
      simp [hr, hp]
    · rw [nextEvent_paused hp]
      simp [hp]
    · rw [nextEvent_done hd]
      simp [hr, hp]

theorem event_started_iff : eventAfter .started h = .started ↔ Fresh h := by
  induction h with
  | nil => simp [eventAfter, Fresh]
  | cons r h ih =>
    rw [Fresh, List.forall_mem_cons, eventAfter]
    rcases stats_cases r.stats with ⟨hr, -, -⟩ | ⟨hr, hp, -⟩ | ⟨hr, -, hd⟩
    · rw [nextEvent_running hr, ih, and_iff_right hr]
      exact Iff.rfl
    · rw [nextEvent_paused hp]
      simp [hr]
    · rw [nextEvent_done hd]
      simp [hr]

def soFar (rounds : List Round) (j : Nat) : List Round := (rounds.take (j + 1)).reverse

theorem soFar_succ (hq : rounds[j + 1]? = some q) : soFar rounds (j + 1) = q :: soFar rounds j := by
  unfold soFar
  rw [List.take_add_one, hq, Option.toList_some, List.reverse_append]
  rfl

theorem soFar_zero (hr : rounds[0]? = some r) : soFar rounds 0 = [r] := by
  unfold soFar
  rw [List.take_add_one, hr]
  rfl

structure EventsInOrder (announces : List Announce) : Prop where
  started_once : ∀ (i j : Nat) (a b : Announce), announces[i]? = some a → announces[j]? = some b →
    a.succeeded = true → b.succeeded = true →
      a.request.event = .started → b.request.event = .started → i = j
  completed_once : ∀ (i j : Nat) (a b : Announce), announces[i]? = some a →
    announces[j]? = some b → a.succeeded = true → b.succeeded = true →
      a.request.event = .completed → b.request.event = .completed → i = j
  completed_after_work : ∀ (j : Nat) (b : Announce), announces[j]? = some b →
    b.succeeded = true → b.request.event = .completed →
      ∃ i < j, ∃ a : Announce, announces[i]? = some a ∧ 0 < a.request.stats.left
  running_not_stopped : ∀ (j : Nat) (a : Announce), announces[j]? = some a →
    a.request.stats.swarmStatus.upload = true → 0 < a.request.stats.left →
      a.request.event ≠ .stopped

structure WellTimed (rounds : List Round) : Prop where
  one_fresh : ∀ (i j : Nat) (r q : Round), rounds[i]? = some r → rounds[j]? = some q →
    r.response.isSome = true → q.response.isSome = true →
      Fresh (soFar rounds i) → Fresh (soFar rounds j) → i = j
  one_done : ∀ (i j : Nat) (r q : Round), rounds[i]? = some r → rounds[j]? = some q →
    r.response.isSome = true → q.response.isSome = true →
      Follows SessionStats.done (soFar rounds i) → Follows SessionStats.done (soFar rounds j) →
        i = j
  done_after_work : ∀ (j : Nat) (r : Round), rounds[j]? = some r → r.response.isSome = true →
    Follows SessionStats.done (soFar rounds j) →
      ∃ i < j, ∃ q : Round, rounds[i]? = some q ∧ 0 < q.stats.left
  never_resumed : ∀ (j : Nat) (r q : Round), rounds[j]? = some r → rounds[j + 1]? = some q →
    r.stats.paused = true → q.stats.running = false

structure Reads (rounds : List Round) (j : Nat) (a : Announce) (r : Round) : Prop where
  stats : a.request.stats = r.stats
  succeeded : a.succeeded = r.response.isSome
  started : a.request.event = .started ↔ Fresh (soFar rounds j)
  completed : a.request.event = .completed ↔ Follows SessionStats.done (soFar rounds j)
  stopped : a.request.event = .stopped ↔ Follows SessionStats.paused (soFar rounds j)

theorem run_reads (t : TrackerIo) (ha : (t.run rounds)[j]? = some a)
    (hr : (made rounds)[j]? = some r) : Reads (made rounds) j a r := by
  have hcarries := runFrom_carries t start rounds ha hr
  refine ⟨hcarries.stats, hcarries.succeeded, ?_, ?_, ?_⟩
  · rw [hcarries.event]
    exact event_started_iff
  · rw [hcarries.event]
    exact event_completed_iff
  · rw [hcarries.event]
    exact event_stopped_iff

theorem announce_round (t : TrackerIo) (ha : (t.run rounds)[j]? = some a) :
    ∃ r, (made rounds)[j]? = some r ∧ Reads (made rounds) j a r := by
  have hlt : j < (made rounds).length :=
    runFrom_length t start rounds ▸ (List.getElem?_eq_some_iff.mp ha).1
  exact ⟨_, List.getElem?_eq_getElem hlt, run_reads t ha (List.getElem?_eq_getElem hlt)⟩

theorem round_announce (t : TrackerIo) (hr : (made rounds)[j]? = some r) :
    ∃ a, (t.run rounds)[j]? = some a ∧ Reads (made rounds) j a r := by
  have hlt : j < (t.run rounds).length :=
    (runFrom_length t start rounds).symm ▸ (List.getElem?_eq_some_iff.mp hr).1
  exact ⟨_, List.getElem?_eq_getElem hlt, run_reads t (List.getElem?_eq_getElem hlt) hr⟩

theorem not_follows_pause (hnever : ∀ (j : Nat) (r q : Round), rounds[j]? = some r →
    rounds[j + 1]? = some q → r.stats.paused = true → q.stats.running = false)
    (hr : rounds[j]? = some r) (hrunning : r.stats.running = true) :
    ¬ Follows SessionStats.paused (soFar rounds j) := by
  have hunpaused : ∀ {q : Round}, q.stats.running = true → q.stats.paused = false := by
    intro q hq
    rcases stats_cases q.stats with ⟨-, hp, -⟩ | ⟨hnot, -⟩ | ⟨hnot, -⟩
    · exact hp
    · rw [hq] at hnot
      contradiction
    · rw [hq] at hnot
      contradiction
  induction j generalizing r with
  | zero =>
    rw [soFar_zero hr, follows_cons, hunpaused hrunning]
    simp [Follows, Since]
  | succ j ih =>
    obtain ⟨p, hp⟩ : ∃ p, rounds[j]? = some p := by
      have hlt := (List.getElem?_eq_some_iff.mp hr).1
      exact ⟨_, List.getElem?_eq_getElem (by omega)⟩
    rw [soFar_succ hr, follows_cons, hunpaused hrunning]
    rintro (⟨hfollows, -⟩ | h)
    · rcases stats_cases p.stats with ⟨hrun, -⟩ | ⟨-, hpaused, -⟩ | ⟨hrun, hpaused, -⟩
      · exact ih hp hrun hfollows
      · rw [hnever j p r hp hr hpaused] at hrunning
        contradiction
      · cases j with
        | zero =>
          rw [soFar_zero hp, follows_cons, hrun, hpaused] at hfollows
          simp at hfollows
        | succ j =>
          rw [soFar_succ hp, follows_cons, hrun, hpaused] at hfollows
          simp at hfollows
    · contradiction

theorem events_in_order_iff (t : TrackerIo) (rounds : List Round) :
    EventsInOrder (t.run rounds) ↔ WellTimed (made rounds) := by
  constructor
  · intro h
    refine ⟨fun i j r q hr hq hrs hqs hrf hqf => ?_, fun i j r q hr hq hrs hqs hrf hqf => ?_,
      fun j r hr hrs hdone => ?_, fun j r q hr hq hpaused => ?_⟩
    · obtain ⟨a, ha, hra⟩ := round_announce t hr
      obtain ⟨b, hb, hqb⟩ := round_announce t hq
      exact h.started_once i j a b ha hb (hra.succeeded.trans hrs) (hqb.succeeded.trans hqs)
        (hra.started.mpr hrf) (hqb.started.mpr hqf)
    · obtain ⟨a, ha, hra⟩ := round_announce t hr
      obtain ⟨b, hb, hqb⟩ := round_announce t hq
      exact h.completed_once i j a b ha hb (hra.succeeded.trans hrs) (hqb.succeeded.trans hqs)
        (hra.completed.mpr hrf) (hqb.completed.mpr hqf)
    · obtain ⟨a, ha, hra⟩ := round_announce t hr
      obtain ⟨i, hi, b, hb, hleft⟩ := h.completed_after_work j a ha (hra.succeeded.trans hrs)
        (hra.completed.mpr hdone)
      obtain ⟨q, hq, hqb⟩ := announce_round t hb
      exact ⟨i, hi, q, hq, hqb.stats ▸ hleft⟩
    · by_contra hrunning
      rw [Bool.not_eq_false] at hrunning
      obtain ⟨a, ha, hqa⟩ := round_announce t hq
      have hboth := hrunning
      simp only [SessionStats.running, Bool.and_eq_true, decide_eq_true_eq] at hboth
      refine h.running_not_stopped (j + 1) a ha (hqa.stats ▸ hboth.1) (hqa.stats ▸ hboth.2) ?_
      rw [hqa.stopped, soFar_succ hq, follows_cons]
      refine .inl ⟨?_, hrunning⟩
      cases j with
      | zero =>
        rw [soFar_zero hr, follows_cons]
        exact .inr hpaused
      | succ j =>
        rw [soFar_succ hr, follows_cons]
        exact .inr hpaused
  · intro h
    refine ⟨fun i j a b ha hb has hbs hae hbe => ?_, fun i j a b ha hb has hbs hae hbe => ?_,
      fun j b hb hbs hbe => ?_, fun j a ha hupload hleft hae => ?_⟩
    · obtain ⟨r, hr, hra⟩ := announce_round t ha
      obtain ⟨q, hq, hqb⟩ := announce_round t hb
      exact h.one_fresh i j r q hr hq (hra.succeeded ▸ has) (hqb.succeeded ▸ hbs)
        (hra.started.mp hae) (hqb.started.mp hbe)
    · obtain ⟨r, hr, hra⟩ := announce_round t ha
      obtain ⟨q, hq, hqb⟩ := announce_round t hb
      exact h.one_done i j r q hr hq (hra.succeeded ▸ has) (hqb.succeeded ▸ hbs)
        (hra.completed.mp hae) (hqb.completed.mp hbe)
    · obtain ⟨q, hq, hqb⟩ := announce_round t hb
      obtain ⟨i, hi, r, hr, hleft⟩ :=
        h.done_after_work j q hq (hqb.succeeded ▸ hbs) (hqb.completed.mp hbe)
      obtain ⟨a, ha, hra⟩ := round_announce t hr
      exact ⟨i, hi, a, ha, hra.stats ▸ hleft⟩
    · obtain ⟨r, hr, hra⟩ := announce_round t ha
      refine not_follows_pause h.never_resumed hr ?_ (hra.stopped.mp hae)
      rw [hra.stats] at hupload hleft
      simp [SessionStats.running, hupload, hleft]

end TrackerIo

namespace Sample

def tracker : TrackerIo := ⟨octets 0, ⟨peerId 1, 1234⟩⟩

def runningRound : TrackerIo.Round := ⟨⟨.active, 0, 0, 1⟩, some ⟨1800, []⟩, true⟩

end Sample

namespace TrackerIo

theorem started_announced_again : ¬ ∀ (t : TrackerIo) (rounds : List Round),
    EventsInOrder (t.run rounds) := by
  intro hall
  have h := (hall Sample.tracker [Sample.runningRound, Sample.runningRound]).started_once 0 1 _ _
    rfl rfl rfl rfl rfl rfl
  contradiction

end TrackerIo

end Tortue
