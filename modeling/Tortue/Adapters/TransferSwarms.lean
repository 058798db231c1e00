import Tortue.Adapters.TransferCosts
import Tortue.Domain.Swarm.Announcements

namespace Tortue

open Collections

namespace Message

def light : Message → Bool
  | .choke | .piece _ _ | .request _ | .extension _ _ | .rejectRequest _ | .cancel _ => false
  | _ => true

def offersAll : Message → Bool
  | .haveAll => true
  | _ => false

end Message

structure SessionView where
  peer : Option PeerState
  seeds : Bool
  holds : BlockRange → Bool

def SessionView.hears (v : SessionView) (m : Message) : SessionView where
  peer := v.peer.map fun p => p.apply m
  seeds := v.seeds || m.offersAll
  holds b := v.holds b && decide (m.brought ≠ some b)

namespace Swarm

variable {sha1 : Sha1} {env : Entropy} {s : Swarm} {r : PeerRegistry} {x y : SocketAddr}
  {p : PeerState} {m : Message} {n : Nat} {b : BlockRange} {data : Bytes}

def view (s : Swarm) (x : SocketAddr) : SessionView where
  peer := s.peerRegistry.peers.get x
  seeds := s.peerRegistry.availability.isSeeder x
  holds b := s.blockAssignments.isHolder b x

theorem declareInterest_registered (h : s.peerRegistry.containsAddr x = true) :
    s.declareInterest x = [.sendToPeer x .interested] := by
  have hcontains : s.peerRegistry.peers.contains x = true := h
  unfold declareInterest PeerRegistry.declareInterest
  rw [hcontains]
  rfl

theorem handleMessage_light (hreg : s.peerRegistry.containsAddr x = true) (hl : m.light = true) :
    s.handleMessage sha1 env x m = (s, m.reply.map (.sendToPeer x)) := by
  have hinterest := declareInterest_registered hreg
  cases m with
  | choke | piece | request | extension | rejectRequest | cancel => contradiction
  | bitfield | havePiece | haveAll | suggestPiece | allowedFast =>
    simp only [handleMessage, hinterest, Message.reply, List.map_cons, List.map_nil]
  | _ => rfl

theorem apply_fast (hp : s.peerRegistry.peers.get x = some p) (hfast : p.fast = true)
    (m : Message) : ∃ r, s.peerRegistry.apply x m = .ok r ∧
      r.peers = s.peerRegistry.peers.insert x (p.apply m) ∧
      r.availability = PeerRegistry.recordMessage s.peerRegistry.availability x m := by
  cases happly : s.peerRegistry.apply x m with
  | error e =>
    unfold PeerRegistry.apply at happly
    simp [hp, hfast] at happly
  | ok r =>
    obtain ⟨q, hq, -, hpeers, -, havail⟩ := PeerRegistry.apply_ok happly
    obtain rfl := Option.some.inj (hp.symm.trans hq)
    exact ⟨r, rfl, hpeers, havail⟩

theorem view_apply_other (hc : PeerRegistry.Classified n s.peerRegistry)
    (ha : s.peerRegistry.apply x m = .ok r) (hne : y ≠ x) :
    ({ s with peerRegistry := r } : Swarm).view y = s.view y := by
  obtain ⟨q, -, -, hpeers, -, havail⟩ := PeerRegistry.apply_ok ha
  have htidy := (hc.apply ha).tidy
  have hseeds : r.availability.isSeeder y = s.peerRegistry.availability.isSeeder y := by
    rw [Bool.eq_iff_iff, PieceAvailability.isSeeder_iff htidy,
      PieceAvailability.isSeeder_iff hc.tidy]
    refine forall₂_congr fun i hi => ?_
    rw [havail, PieceAvailability.has_recordMessage_iff hc.tidy hi]
    simp [hne]
  unfold view
  rw [hseeds, hpeers, HashMap.get_insert, if_neg hne]

theorem view_apply_self (hp : s.peerRegistry.peers.get x = some p)
    (ha : s.peerRegistry.apply x m = .ok r) (hquiet : m.advertises = false) :
    ({ s with peerRegistry := r } : Swarm).view x =
      { s.view x with peer := some (p.apply m) } := by
  obtain ⟨q, hq, -, hpeers, -, havail⟩ := PeerRegistry.apply_ok ha
  obtain rfl := Option.some.inj (hp.symm.trans hq)
  have hkept : r.availability = s.peerRegistry.availability := by
    rw [havail]
    cases m <;> first | rfl | contradiction
  unfold view
  rw [hkept, hpeers, HashMap.get_insert_self]

theorem view_apply_haveAll (hp : s.peerRegistry.peers.get x = some p)
    (hc : PeerRegistry.Classified n s.peerRegistry)
    (ha : s.peerRegistry.apply x .haveAll = .ok r) :
    ({ s with peerRegistry := r } : Swarm).view x =
      { s.view x with peer := some p, seeds := true } := by
  obtain ⟨q, hq, -, hpeers, -, havail⟩ := PeerRegistry.apply_ok ha
  obtain rfl := Option.some.inj (hp.symm.trans hq)
  have hseeds : r.availability.isSeeder x = true := by
    rw [PieceAvailability.isSeeder_iff (hc.apply ha).tidy]
    intro i hi
    rw [havail, PieceAvailability.has_recordMessage_iff hc.tidy hi]
    exact .inr ⟨rfl, hi⟩
  unfold view
  rw [hseeds, hpeers, HashMap.get_insert_self]
  rfl

theorem view_plan (env : Entropy) (s : Swarm) (x : SocketAddr) :
    (s.plan env).1.view x =
      { s.view x with holds := fun b => (s.plan env).1.blockAssignments.isHolder b x } := by
  unfold view
  rw [plan_peerRegistry]

theorem view_handle (sha1 : Sha1) (env : Entropy) (s : Swarm) (x y : SocketAddr) (m : Message) :
    (s.handleMessage sha1 env x m).1.view y = { s.view y with
      holds := fun b => (s.handleMessage sha1 env x m).1.blockAssignments.isHolder b y } := by
  unfold view
  rw [handleMessage_peerRegistry]

theorem view_register_other {d : ConnectionDirection} {id : PeerId} {e : PeerExtensions}
    (hne : y ≠ x) : (s.register x d id e).1.view y = s.view y := by
  have hholds : ∀ b, (s.blockAssignments.releasePeer x).isHolder b y =
      s.blockAssignments.isHolder b y := by
    intro b
    rw [Bool.eq_iff_iff, BlockAssignments.isHolder_releasePeer]
    exact and_iff_left hne
  unfold view
  simp only [register_peerRegistry, register_blockAssignments, PeerRegistry.get_connected,
    if_neg hne, hholds]
  rfl

theorem view_register_self (s : Swarm) (x : SocketAddr) (d : ConnectionDirection) (id : PeerId)
    (e : PeerExtensions) : (s.register x d id e).1.view x =
      ⟨some (.new id e), s.peerRegistry.availability.isSeeder x, fun _ => false⟩ := by
  have hholds : ∀ b, (s.blockAssignments.releasePeer x).isHolder b x = false := by
    intro b
    rw [Bool.eq_false_iff]
    exact fun h => ((BlockAssignments.isHolder_releasePeer ..).mp h).2 rfl
  unfold view
  simp only [register_peerRegistry, register_blockAssignments, PeerRegistry.get_connected,
    if_true, hholds]
  rfl

theorem contains_register (s : Swarm) (x : SocketAddr) (d : ConnectionDirection) (id : PeerId)
    (e : PeerExtensions) : (s.register x d id e).1.peerRegistry.containsAddr x = true := by
  rw [register_peerRegistry]
  simp [PeerRegistry.containsAddr, HashMap.contains, PeerRegistry.get_connected]

theorem register_greets (s : Swarm) (x : SocketAddr) (d : ConnectionDirection) (id : PeerId)
    (e : PeerExtensions) : (s.register x d id e).2 =
      [.sendToPeer x (s.availabilityMessage e), .sendToPeer x .interested] := by
  have hout : (s.register x d id e).2 = .sendToPeer x (s.availabilityMessage e) ::
      (s.register x d id e).1.declareInterest x := rfl
  rw [hout, declareInterest_registered (contains_register ..)]

theorem onConnected_new {d : ConnectionDirection} {id : PeerId} {e : PeerExtensions}
    (h : s.peerRegistry.byId.get id = none) :
    s.onConnected env x d id e = s.register x d id e := by
  unfold onConnected PeerRegistry.connectionFor
  rw [h]

theorem plannedBlocks_complete (h : s.pieces.isComplete = true) : s.plannedBlocks = [] := by
  have hneeded := (PieceManager.neededPieces_nil_iff s.pieces).mpr h
  unfold plannedBlocks
  rw [hneeded]
  rfl

theorem plan_complete (env : Entropy) (h : s.pieces.isComplete = true) : (s.plan env).2 = [] := by
  have hnone := plannedBlocks_complete h
  have hstable : Stable s.peerRegistry s.plannedBlocks fun p => p.outputs = [] := by
    refine ⟨fun _ _ h => h, fun _ h => h, fun p b a hb _ _ _ => ?_⟩
    rw [hnone] at hb
    contradiction
  unfold plan
  split_ifs
  · rfl
  · rfl
  · exact hstable.planLoop _ rfl

theorem request_opens (hup : s.status.upload = true) (hvalid : s.pieces.validUploadRange b = true)
    (hroom : s.pendingUploads < maxPendingUploads) (hnone : s.pendingReads.get b = none) :
    s.onMessageRequest x b = ({ s with
      nextUploadReadId := s.nextUploadReadId + 1
      pendingReads := s.pendingReads.insert b ⟨⟨s.nextUploadReadId⟩, HashSet.add .empty x⟩ },
        [.readForUpload ⟨s.nextUploadReadId⟩ b]) := by
  unfold onMessageRequest
  rw [hup, hvalid, hnone]
  simp only [Bool.not_true, Bool.false_eq_true, if_false, ge_iff_le, Nat.not_le.mpr hroom]

theorem upload_completes {id : UploadReadId} (hup : s.status.upload = true)
    (hread : s.pendingReads.get b = some ⟨id, HashSet.add .empty x⟩)
    (hreg : s.peerRegistry.containsAddr x = true) :
    s.onUploadReadCompleted env id b data = ({ s with
      pendingReads := s.pendingReads.remove b
      uploadedBytes := s.uploadedBytes + data.length }, [.sendToPeer x (.piece b data)]) := by
  have harrange : env.order.arrange (HashMap.keys (HashSet.add HashMap.empty x)) = [x] :=
    List.perm_singleton.mp (env.order.perm [x])
  unfold onUploadReadCompleted
  rw [hread]
  simp only [ne_eq, not_true_eq_false, if_false, hup, Bool.not_true, Bool.false_eq_true, harrange,
    List.filter_singleton, hreg, cond_true, List.map_cons, List.map_nil,
    List.length_singleton, Nat.one_mul]

end Swarm

end Tortue
