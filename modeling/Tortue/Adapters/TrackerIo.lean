import Tortue.Collections.History
import Tortue.Domain.Tracker

namespace Tortue

open Collections

structure TrackerIo where
  infoHash : InfoHash
  node : Node

namespace TrackerIo

-- Durations are in seconds.
def initialBackoff : Nat := 15

def maxBackoff : Nat := 3600

structure Round where
  stats : SessionStats
  response : Option TrackerResponse
  delivered : Bool

structure Loop where
  interval : Nat
  backoff : Nat
  event : AnnounceEvent

structure Announce where
  slept : Nat
  request : AnnounceRequest
  succeeded : Bool

def start : Loop := ⟨0, initialBackoff, .started⟩

def nextEvent (event : AnnounceEvent) (stats : SessionStats) : AnnounceEvent :=
  let event := if !stats.swarmStatus.upload then .stopped else event
  if stats.left = 0 then .completed else event

def announceRequest (t : TrackerIo) (event : AnnounceEvent) (stats : SessionStats) :
    AnnounceRequest where
  infoHash := t.infoHash
  peerId := t.node.id
  port := t.node.port
  stats := stats
  event := event
  compact := true

def announce (t : TrackerIo) (l : Loop) (r : Round) : Announce where
  slept := l.interval
  request := t.announceRequest (nextEvent l.event r.stats) r.stats
  succeeded := r.response.isSome

-- The loop ends when the peers of a response find the channel closed.
def advance (l : Loop) (r : Round) : Option Loop :=
  match r.response with
  | some resp =>
    if r.delivered then
      some ⟨max resp.interval.toNat 60, initialBackoff, nextEvent l.event r.stats⟩
    else none
  | none => some ⟨l.backoff, min (l.backoff * 2) maxBackoff, nextEvent l.event r.stats⟩

def runFrom (t : TrackerIo) (l : Loop) : List Round → List Announce
  | [] => []
  | r :: rounds =>
    t.announce l r ::
      match advance l r with
      | some l => t.runFrom l rounds
      | none => []

def run (t : TrackerIo) (rounds : List Round) : List Announce := t.runFrom start rounds

def made : List Round → List Round
  | [] => []
  | r :: rounds => r :: if r.response.isSome && !r.delivered then [] else made rounds

theorem advance_eq_none {l : Loop} {r : Round} :
    advance l r = none ↔ (r.response.isSome && !r.delivered) = true := by
  unfold advance
  cases r.response with
  | none => simp
  | some resp => cases r.delivered <;> simp

theorem advance_event {l l' : Loop} {r : Round} (h : advance l r = some l') :
    l'.event = nextEvent l.event r.stats := by
  unfold advance at h
  split at h
  · split_ifs at h
    rw [Option.some.injEq] at h
    rw [← h]
  · rw [Option.some.injEq] at h
    rw [← h]

def eventAfter (event : AnnounceEvent) : List Round → AnnounceEvent
  | [] => event
  | r :: older => nextEvent (eventAfter event older) r.stats

theorem eventAfter_append (event : AnnounceEvent) (newer : List Round) (r : Round) :
    eventAfter event (newer ++ [r]) = eventAfter (nextEvent event r.stats) newer := by
  induction newer with
  | nil => rfl
  | cons q newer ih =>
    rw [List.cons_append, eventAfter, ih, eventAfter]

structure Carries (a : Announce) (r : Round) (event : AnnounceEvent) : Prop where
  stats : a.request.stats = r.stats
  succeeded : a.succeeded = r.response.isSome
  event : a.request.event = event

theorem runFrom_length (t : TrackerIo) (l : Loop) (rounds : List Round) :
    (t.runFrom l rounds).length = (made rounds).length := by
  induction rounds generalizing l with
  | nil => rfl
  | cons r rounds ih =>
    simp only [runFrom, made, List.length_cons]
    cases ha : advance l r with
    | none => simp [advance_eq_none.mp ha]
    | some l' =>
      rw [if_neg (fun h => by simp [advance_eq_none.mpr h] at ha)]
      simp only [ih]

theorem runFrom_carries (t : TrackerIo) (l : Loop) (rounds : List Round) {j : Nat} {a : Announce}
    {r : Round} (ha : (t.runFrom l rounds)[j]? = some a) (hr : (made rounds)[j]? = some r) :
    Carries a r (eventAfter l.event ((made rounds).take (j + 1)).reverse) := by
  induction rounds generalizing l j with
  | nil => contradiction
  | cons q rounds ih =>
    simp only [runFrom, made] at ha hr ⊢
    cases j with
    | zero =>
      simp only [List.getElem?_cons_zero, Option.some.injEq] at ha hr
      subst ha
      subst hr
      exact ⟨rfl, rfl, rfl⟩
    | succ j =>
      rw [List.getElem?_cons_succ] at ha hr
      rw [List.take_succ_cons, List.reverse_cons, eventAfter_append]
      cases hnext : advance l q with
      | none =>
        rw [hnext] at ha
        contradiction
      | some l' =>
        have hgoes : ¬ (q.response.isSome && !q.delivered) = true := fun h => by
          simp [advance_eq_none.mpr h] at hnext
        rw [hnext] at ha
        rw [if_neg hgoes] at hr ⊢
        rw [← advance_event hnext]
        exact ih l' ha hr

end TrackerIo

end Tortue
