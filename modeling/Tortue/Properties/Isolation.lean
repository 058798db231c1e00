import Tortue.Domain.Swarm.Announcements

namespace Tortue

open Collections

namespace PeerRegistry

open PieceAvailability

variable {r : PeerRegistry} {y : SocketAddr}

theorem sameAt_refl (y : SocketAddr) (r : PeerRegistry) : SameAt y r r :=
  ⟨rfl, fun _ => rfl, rfl, rfl, fun _ => rfl⟩

end PeerRegistry

def readFor (reads : HashMap BlockRange PendingRead) (y : SocketAddr) (range : BlockRange) :
    Option UploadReadId :=
  ((reads.get range).filter fun read => read.peers.contains y).map PendingRead.id

theorem readFor_insert (reads : HashMap BlockRange PendingRead) (y : SocketAddr)
    (range : BlockRange) (read : PendingRead) (range' : BlockRange) :
    readFor (reads.insert range read) y range' =
      if range' = range then (if read.peers.contains y then some read.id else none)
      else readFor reads y range' := by
  unfold readFor
  rw [HashMap.get_insert]
  split
  · cases hin : read.peers.contains y <;> simp [Option.filter, hin]
  · rfl

theorem readFor_remove (reads : HashMap BlockRange PendingRead) (y : SocketAddr)
    (range range' : BlockRange) :
    readFor (reads.remove range) y range' =
      if range' = range then none else readFor reads y range' := by
  unfold readFor
  rw [HashMap.get_remove]
  split <;> rfl

theorem readFor_of_get {reads : HashMap BlockRange PendingRead} {range : BlockRange}
    {read : PendingRead} (h : reads.get range = some read) (y : SocketAddr) :
    readFor reads y range = if read.peers.contains y then some read.id else none := by
  unfold readFor
  rw [h]
  cases hin : read.peers.contains y <;> simp [Option.filter, hin]

theorem readFor_of_get_none {reads : HashMap BlockRange PendingRead} {range : BlockRange}
    (h : reads.get range = none) (y : SocketAddr) : readFor reads y range = none := by
  unfold readFor
  rw [h]
  rfl

namespace Swarm

open PeerRegistry BlockAssignments

variable {sha1 : Sha1} {env : Entropy} {s t : Swarm} {x y : SocketAddr} {m : Message}

theorem readFor_request (hyx : y ≠ x) (s : Swarm) (range range' : BlockRange) :
    readFor (s.onMessageRequest x range).1.pendingReads y range' =
      readFor s.pendingReads y range' := by
  unfold onMessageRequest
  split_ifs
  · rfl
  · rfl
  · rfl
  · split
    · next read hread =>
      rw [readFor_insert]
      split
      · next heq => simp [heq, readFor_of_get hread, hyx]
      · rfl
    · next hnone =>
      rw [readFor_insert]
      split
      · next heq => simp [heq, readFor_of_get_none hnone, hyx]
      · rfl

theorem readFor_cancel (hyx : y ≠ x) (s : Swarm) (range range' : BlockRange) :
    readFor (s.cancelUpload x range).1.pendingReads y range' =
      readFor s.pendingReads y range' := by
  simp only [cancelUpload]
  split
  · rfl
  · next read hread =>
    have hleft : HashMap.contains (HashMap.remove read.peers x) y = read.peers.contains y := by
      simp [hyx]
    split
    · rw [readFor_insert]
      split
      · next heq => rw [heq, readFor_of_get hread, hleft]
      · rfl
    · next hlen =>
      rw [readFor_remove]
      split
      · next heq =>
        have hout : read.peers.contains y = false := by
          rw [← hleft]
          exact HashMap.contains_eq_false_of_len_eq_zero (not_not.mp hlen) y
        simp [heq, readFor_of_get hread, hout]
      · rfl

theorem readFor_handleMessage (hyx : y ≠ x) (sha1 : Sha1) (env : Entropy) (s : Swarm) (m : Message)
    (range : BlockRange) :
    readFor (s.handleMessage sha1 env x m).1.pendingReads y range =
      readFor s.pendingReads y range := by
  cases m with
  | request r => exact readFor_request hyx s r range
  | cancel r => exact readFor_cancel hyx s r range
  | piece r data =>
    rcases onMessagePiece_fst sha1 env s x r data with ⟨-, hs⟩ | ⟨-, _, hs⟩
    · simp only [handleMessage, hs]
    · simp only [handleMessage, hs]
  | _ => rfl

structure Isolated (y : SocketAddr) (m : Message) (env : Entropy) (s t : Swarm) : Prop where
  registry : SameAt y s.peerRegistry t.peerRegistry
  reads : ∀ range, readFor t.pendingReads y range = readFor s.pendingReads y range
  kept : ∀ b, s.blockAssignments.isHolder b y = true → t.blockAssignments.isHolder b y = true
  planned : ∃ u : Swarm, (∀ b, u.blockAssignments.isHolder b y = s.blockAssignments.isHolder b y) ∧
    (t = u ∨ (m.affectsScheduling = true ∧ t = (u.plan env).1))
  room : t.blockAssignments.inFlight y ≤ maxInFlightPerPeer

theorem plan_kept {b : BlockRange} (env : Entropy) (s : Swarm)
    (h : s.blockAssignments.isHolder b y = true) :
    (s.plan env).1.blockAssignments.isHolder b y = true :=
  ((plan_granted env s).holders b y).mpr (.inl h)

theorem handleMessage_holds_other (hyx : y ≠ x) (sha1 : Sha1) (env : Entropy) (s : Swarm)
    (m : Message) (b : BlockRange) :
    (s.handleMessage sha1 env x m).1.blockAssignments.isHolder b y =
      s.blockAssignments.isHolder b y := by
  rw [Bool.eq_iff_iff, handleMessage_isHolder]
  simp [hyx]

theorem isolated_onMessage (hyx : y ≠ x) (sha1 : Sha1) (env : Entropy) (s : Swarm) (m : Message)
    (hroom : (s.onMessage sha1 env x m).1.blockAssignments.inFlight y ≤ maxInFlightPerPeer) :
    Isolated y m env s (s.onMessage sha1 env x m).1 := by
  rcases onMessage_cases sha1 env s x m with ⟨_, -, hs, -⟩ | ⟨r, ha, -, hs⟩ | ⟨r, ha, hm, hs⟩
  · rw [hs] at hroom ⊢
    exact ⟨sameAt_refl y _, fun _ => rfl, fun _ hb => hb, ⟨s, fun _ => rfl, .inl rfl⟩, hroom⟩
  · rw [hs] at hroom ⊢
    have hheld := handleMessage_holds_other hyx sha1 env { s with peerRegistry := r } m
    refine ⟨?_, readFor_handleMessage hyx sha1 env _ m, fun b hb => ?_, ⟨_, hheld, .inl rfl⟩, hroom⟩
    · rw [handleMessage_peerRegistry]
      exact sameAt_apply hyx ha
    · rw [hheld]
      exact hb
  · rw [hs] at hroom ⊢
    have hheld := handleMessage_holds_other hyx sha1 env { s with peerRegistry := r } m
    refine ⟨?_, fun range => ?_, fun b hb => ?_, ⟨_, hheld, .inr ⟨hm, rfl⟩⟩, hroom⟩
    · rw [plan_peerRegistry, handleMessage_peerRegistry]
      exact sameAt_apply hyx ha
    · rw [plan_pendingReads]
      exact readFor_handleMessage hyx sha1 env _ m range
    · exact plan_kept env _ ((hheld b).trans hb)

theorem pieces_changed_only_by_piece
    (h : (s.onMessage sha1 env x m).1.pieces ≠ s.pieces) :
    ∃ range data, m = .piece range data ∧ s.blockAssignments.isHolder range x = true := by
  by_cases hm : ∃ range data, m = .piece range data
  · obtain ⟨range, data, rfl⟩ := hm
    exact ⟨range, data, rfl, piece_changes_only_if_held h⟩
  · have hsame : (s.onMessage sha1 env x m).1.pieces = s.pieces :=
      (onMessage_unaffected x fun range data heq => hm ⟨range, data, heq⟩).1
    exact absurd hsame h

theorem rejected_unchanged (env : Entropy) (h : s.peerRegistry.Rejects x m) :
    (s.onMessage sha1 env x m).1 = s ∧
      ∀ o ∈ (s.onMessage sha1 env x m).2, o = .disconnectPeer x := by
  obtain ⟨reason, hreason⟩ := apply_error h
  rcases onMessage_cases sha1 env s x m with ⟨_, -, hs, ho⟩ | ⟨r, ha, -⟩ | ⟨r, ha, -⟩
  · exact ⟨hs, ho⟩
  · rw [hreason] at ha
    contradiction
  · rw [hreason] at ha
    contradiction

theorem peer_isolation {clientId : PeerId} {metainfo : Metainfo}
    (hr : Reachable sha1 clientId metainfo s) (env : Entropy) (x : SocketAddr) (m : Message) :
    (∀ y, y ≠ x → Isolated y m env s (step sha1 s (.messageReceived x m, env)).1) ∧
    ((step sha1 s (.messageReceived x m, env)).1.pieces ≠ s.pieces →
      ∃ range data, m = .piece range data ∧ s.blockAssignments.isHolder range x = true) ∧
    (s.peerRegistry.Rejects x m → (step sha1 s (.messageReceived x m, env)).1 = s ∧
      ∀ o ∈ (step sha1 s (.messageReceived x m, env)).2, o = .disconnectPeer x) := by
  refine ⟨fun y hyx => ?_, pieces_changed_only_by_piece, rejected_unchanged env⟩
  obtain ⟨_, hist⟩ := hr.next (.messageReceived x m, env)
  exact isolated_onMessage hyx sha1 env s m (held_room hist y)

end Swarm

namespace Sample

def shared : Swarm :=
  (History.run (Swarm.step sha1) swarm (requesting ++ [connect 3 .outbound 81])).1

end Sample

namespace Swarm

theorem choke_leaves_other_request :
    Isolated (Sample.addr 80) .choke Sample.env Sample.shared
      (step Sample.sha1 Sample.shared (Sample.message 81 .choke)).1 :=
  (peer_isolation ⟨_, Sample.history _⟩ Sample.env (Sample.addr 81) .choke).1 (Sample.addr 80)
    (by decide)

end Swarm

end Tortue
