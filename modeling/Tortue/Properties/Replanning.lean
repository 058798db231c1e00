import Tortue.Domain.Swarm.Ledger

namespace Tortue

open Collections

namespace Swarm

open PeerRegistry BlockAssignments

variable {sha1 : Sha1} {env : Entropy} {s t : Swarm} {x : SocketAddr} {p q : PeerState}
  {m : Message}

def share (a : BlockAssignments) (e : SocketAddr × PeerState) : Nat :=
  if e.2.peerChoking then 0 else a.freeSlotsFor e.1

theorem sum_unchoked (f : SocketAddr → Nat) (entries : List (SocketAddr × PeerState)) :
    (((entries.filter fun e => !e.2.peerChoking).map Prod.fst).map f).sum =
      (entries.map fun e => if e.2.peerChoking then 0 else f e.1).sum := by
  induction entries with
  | nil => rfl
  | cons e entries ih =>
    rw [List.filter_cons, List.map_cons, List.sum_cons]
    cases e.2.peerChoking with
    | true => simpa using ih
    | false => simpa using ih

theorem budget_eq_shares (s : Swarm) :
    s.budget = (s.peerRegistry.peers.entries.map (share s.blockAssignments)).sum :=
  sum_unchoked s.blockAssignments.freeSlotsFor s.peerRegistry.peers.entries

theorem budget_change (hp : s.peerRegistry.peers.get x = some p)
    (hpeers : t.peerRegistry.peers = s.peerRegistry.peers.insert x q)
    (hother : ∀ y, y ≠ x → t.blockAssignments.inFlight y = s.blockAssignments.inFlight y) :
    ∃ others, s.budget = share s.blockAssignments (x, p) + others ∧
      t.budget = share t.blockAssignments (x, q) + others := by
  refine ⟨((s.peerRegistry.peers.remove x).entries.map (share s.blockAssignments)).sum, ?_, ?_⟩
  · rw [budget_eq_shares, ((HashMap.entries_perm hp).map _).sum_nat, List.map_cons, List.sum_cons]
  · have hsame : ∀ e ∈ (s.peerRegistry.peers.remove x).entries,
        share t.blockAssignments e = share s.blockAssignments e := by
      intro e he
      have hne : e.1 ≠ x := by
        have hkept := (List.mem_filter.mp he).2
        simpa using hkept
      unfold share freeSlotsFor
      rw [hother e.1 hne]
    rw [budget_eq_shares, hpeers]
    simp only [HashMap.insert, List.map_cons, List.sum_cons]
    rw [List.map_congr_left hsame]

-- What the doc of `affects_scheduling` says of the messages that skip replanning.
structure EnablesNothing (s t : Swarm) : Prop where
  budget : t.budget ≤ s.budget
  serves : ∀ y piece, s.peerRegistry.canServe y piece = false →
    t.peerRegistry.canServe y piece = false

def FreesSlot (s : Swarm) (x : SocketAddr) : Message → Prop
  | .rejectRequest range => s.blockAssignments.isHolder range x = true ∧
      ∃ p, s.peerRegistry.peers.get x = some p ∧ p.fast = true ∧ p.peerChoking = false
  | _ => False

theorem canServe_of_skipped (hm : m.affectsScheduling = false) {piece : Nat}
    (h : p.canServe piece = false) : (p.apply m).canServe piece = false := by
  cases m with
  | choke =>
    simp only [PeerState.canServe, Bool.or_eq_false_iff] at h
    simp [PeerState.apply, PeerState.canServe, h.2]
  | unchoke => contradiction
  | allowedFast piece => contradiction
  | _ => exact h

theorem applied_canServe {r r' : PeerRegistry} (ha : r.apply x m = .ok r')
    (hm : m.affectsScheduling = false) {y : SocketAddr} {piece : Nat}
    (h : r.canServe y piece = false) : r'.canServe y piece = false := by
  obtain ⟨p, hp, -, hpeers, -, -⟩ := apply_ok ha
  unfold PeerRegistry.canServe at *
  rw [hpeers, HashMap.get_insert]
  by_cases hy : y = x
  · subst hy
    rw [if_pos rfl]
    rw [hp] at h
    exact canServe_of_skipped hm h
  · rw [if_neg hy]
    exact h

theorem handleMessage_inFlight_other (hm : m.affectsScheduling = false) {y : SocketAddr}
    (hy : y ≠ x) : (s.handleMessage sha1 env x m).1.blockAssignments.inFlight y =
      s.blockAssignments.inFlight y := by
  cases m with
  | piece range data => contradiction
  | choke => exact inFlight_releasePeer_other _ hy
  | rejectRequest range => exact inFlight_unassign_other _ range hy
  | request range =>
    obtain ⟨_, _, hs⟩ := onMessageRequest_fst s x range
    simp only [handleMessage, hs]
  | cancel range =>
    obtain ⟨_, hs⟩ := cancelUpload_fst s x range
    simp only [handleMessage, hs]
  | _ => rfl

theorem share_rejected {range : BlockRange} (hroom : s.blockAssignments.inFlight x ≤ 32)
    (hp : s.peerRegistry.peers.get x = some p) (hfast : p.fast = true) :
    share (s.blockAssignments.unassign range x) (x, p) ≤ share s.blockAssignments (x, p) ↔
      ¬ FreesSlot s x (.rejectRequest range) := by
  simp only [share, freeSlotsFor, maxInFlightPerPeer, FreesSlot, hp, Option.some.injEq,
    exists_eq_left', hfast, true_and]
  cases hchoking : p.peerChoking with
  | true => simp
  | false =>
    cases hheld : s.blockAssignments.isHolder range x with
    | true =>
      have hfreed := inFlight_unassign_held s.blockAssignments hheld
      simp only [Bool.false_eq_true, if_false, and_self, not_true_eq_false, iff_false]
      omega
    | false => simp [inFlight_unassign_free s.blockAssignments hheld]

theorem share_skipped (hm : m.affectsScheduling = false) (hreject : ∀ r, m ≠ .rejectRequest r)
    (r : PeerRegistry) :
    share (handleMessage sha1 env { s with peerRegistry := r } x m).1.blockAssignments
      (x, p.apply m) ≤ share s.blockAssignments (x, p) := by
  cases m with
  | piece range data => contradiction
  | unchoke => contradiction
  | rejectRequest range => exact absurd rfl (hreject range)
  | choke => simp [share, PeerState.apply]
  | request range =>
    obtain ⟨_, _, hs⟩ := onMessageRequest_fst { s with peerRegistry := r } x range
    rw [handleMessage, hs]
    exact le_refl _
  | cancel range =>
    obtain ⟨_, hs⟩ := cancelUpload_fst { s with peerRegistry := r } x range
    rw [handleMessage, hs]
    exact le_refl _
  | _ => exact le_refl _

theorem share_handled (sha1 : Sha1) (env : Entropy) {r : PeerRegistry}
    (ha : s.peerRegistry.apply x m = .ok r) (hp : s.peerRegistry.peers.get x = some p)
    (hroom : s.blockAssignments.inFlight x ≤ 32) (hm : m.affectsScheduling = false) :
    share (handleMessage sha1 env { s with peerRegistry := r } x m).1.blockAssignments
      (x, p.apply m) ≤ share s.blockAssignments (x, p) ↔ ¬ FreesSlot s x m := by
  by_cases hreject : ∃ range, m = .rejectRequest range
  · obtain ⟨range, rfl⟩ := hreject
    obtain ⟨q, hq, hfast, -⟩ := apply_ok ha
    rw [hp, Option.some.injEq] at hq
    subst hq
    exact share_rejected hroom hp (hfast rfl)
  · have hnot : ¬ FreesSlot s x m := by
      cases m with
      | rejectRequest range => exact absurd ⟨range, rfl⟩ hreject
      | _ => exact fun h => h
    exact iff_of_true (share_skipped hm (fun range h => hreject ⟨range, h⟩) r) hnot

theorem not_freesSlot_of_rejected {reason : RejectReason}
    (hx : s.peerRegistry.containsAddr x = true)
    (ha : s.peerRegistry.apply x m = .error reason) : ¬ FreesSlot s x m := by
  obtain ⟨p, hp⟩ := HashMap.contains_iff.mp hx
  intro hfrees
  cases m with
  | rejectRequest range =>
    obtain ⟨-, q, hq, hfast, -⟩ := hfrees
    unfold apply at ha
    rw [hq] at ha
    simp [hfast] at ha
  | _ => exact hfrees

theorem skipped_message_enables_nothing_iff {clientId : PeerId} {metainfo : Metainfo}
    (hr : Reachable sha1 clientId metainfo s) (hx : s.peerRegistry.containsAddr x = true)
    (hm : m.affectsScheduling = false) :
    EnablesNothing s (step sha1 s (.messageReceived x m, env)).1 ↔ ¬ FreesSlot s x m := by
  obtain ⟨h, hist⟩ := hr
  obtain ⟨p, hp⟩ := HashMap.contains_iff.mp hx
  simp only [step]
  rcases onMessage_cases sha1 env s x m with ⟨reason, ha, hs, -⟩ | ⟨r, ha, -, hs⟩ | ⟨r, -, hyes, -⟩
  · rw [hs]
    exact iff_of_true ⟨le_refl _, fun _ _ h => h⟩ (not_freesSlot_of_rejected hx ha)
  · rw [hs, ← share_handled sha1 env ha hp (held_room hist x) hm]
    have hpeers : (handleMessage sha1 env { s with peerRegistry := r } x m).1.peerRegistry.peers =
        s.peerRegistry.peers.insert x (p.apply m) := by
      obtain ⟨q, hq, -, hinsert, -, -⟩ := apply_ok ha
      rw [hp, Option.some.injEq] at hq
      rw [handleMessage_peerRegistry, hinsert, hq]
    obtain ⟨others, hbefore, hafter⟩ :=
      budget_change hp hpeers fun y hy => handleMessage_inFlight_other hm hy
    constructor
    · intro henables
      have hbudget := henables.budget
      omega
    · intro hshare
      refine ⟨by omega, fun y piece hserves => ?_⟩
      rw [handleMessage_peerRegistry]
      exact applied_canServe ha hm hserves
  · rw [hm] at hyes
    contradiction

theorem choke_enables_nothing :
    EnablesNothing Sample.requested
      (step Sample.sha1 Sample.requested (Sample.message 80 .choke)).1 :=
  (skipped_message_enables_nothing_iff ⟨_, Sample.history Sample.requesting⟩
    (by decide +kernel) rfl).mpr fun h => h

theorem reject_frees_slot_unplanned :
    ¬ ∀ sha1 clientId metainfo s, Reachable sha1 clientId metainfo s → ∀ env x m,
      s.peerRegistry.containsAddr x = true → m.affectsScheduling = false →
        EnablesNothing s (step sha1 s (.messageReceived x m, env)).1 := by
  intro hall
  have h := hall _ _ _ _ ⟨_, Sample.history Sample.requesting⟩ Sample.env (Sample.addr 80)
    (.rejectRequest ⟨0, 0, 2⟩) (by decide +kernel) rfl
  have hbudget := h.budget
  have hmore : ¬ (step Sample.sha1 Sample.requested
      (Sample.message 80 (.rejectRequest ⟨0, 0, 2⟩))).1.budget ≤ Sample.requested.budget := by
    decide +kernel
  exact hmore hbudget

end Swarm

end Tortue
