import Tortue.Domain.Swarm.Accounts

namespace Tortue

open Collections

namespace Swarm

open PeerRegistry BlockAssignments

variable {sha1 : Sha1} {env : Entropy} {s t : Swarm}

def Released (s : Swarm) (x : SocketAddr) (b : BlockRange) : Input → Prop
  | .messageReceived y (.piece range _) => x = y ∧ b = range
  | .messageReceived y (.rejectRequest range) =>
    (x = y ∧ b = range) ∧ ∃ p, s.peerRegistry.peers.get x = some p ∧ p.fast = true
  | .messageReceived y .choke => x = y
  | .peerDisconnected y => x = y
  | .peerConnected id d y _ =>
    ¬ s.Refused d id ∧ (x = y ∨ ∃ d', s.peerRegistry.connectionFor id = some (x, d'))
  | _ => False

abbrev Trace := List (Event Swarm (Input × Entropy) Output)

def Outstanding (h : Trace) (x : SocketAddr) (b : BlockRange) : Prop :=
  ∃ newer e older, h = newer ++ e :: older ∧ (x, b) ∈ requestsOf e.outputs ∧
    ∀ f ∈ newer, ¬ Released f.before x b f.input.1

theorem outstanding_cons {h : Trace} {e : Event Swarm (Input × Entropy) Output} {x : SocketAddr}
    {b : BlockRange} : Outstanding (e :: h) x b ↔
      (Outstanding h x b ∧ ¬ Released e.before x b e.input.1) ∨ (x, b) ∈ requestsOf e.outputs :=
  since_cons

structure Balanced (s : Swarm) (R : SocketAddr → BlockRange → Prop) (t : Swarm)
    (outputs : List Output) : Prop where
  held : ∀ b x, t.blockAssignments.isHolder b x = true ↔
    (s.blockAssignments.isHolder b x = true ∧ ¬ R x b) ∨ (x, b) ∈ requestsOf outputs
  fresh : ∀ b x, (x, b) ∈ requestsOf outputs →
    ¬ (s.blockAssignments.isHolder b x = true ∧ ¬ R x b)
  nodup : (requestsOf outputs).Nodup
  room : (∀ y, s.blockAssignments.inFlight y ≤ maxInFlightPerPeer) →
    ∀ y, t.blockAssignments.inFlight y ≤ maxInFlightPerPeer

namespace Balanced

variable {R : SocketAddr → BlockRange → Prop} {outputs : List Output}

theorem of_release (hreq : requestsOf outputs = [])
    (hheld : ∀ b x, t.blockAssignments.isHolder b x = true ↔
      s.blockAssignments.isHolder b x = true ∧ ¬ R x b)
    (hroom : ∀ y, t.blockAssignments.inFlight y ≤ s.blockAssignments.inFlight y) :
    Balanced s R t outputs where
  held b x := by rw [hheld, hreq]; simp
  fresh b x h := by rw [hreq] at h; contradiction
  nodup := by rw [hreq]; exact List.nodup_nil
  room h y := (hroom y).trans (h y)

theorem of_same (hreq : requestsOf outputs = []) (ha : t.blockAssignments = s.blockAssignments)
    (hR : ∀ b x, s.blockAssignments.isHolder b x = true → ¬ R x b) : Balanced s R t outputs := by
  refine of_release hreq (fun b x => ?_) (fun y => by rw [ha])
  rw [ha]
  exact ⟨fun h => ⟨h, hR b x h⟩, fun h => h.1⟩

theorem plan (h : Balanced s R t outputs) (hreq : requestsOf outputs = []) (env : Entropy) :
    Balanced s R (t.plan env).1 (outputs ++ (t.plan env).2) := by
  have hg := plan_granted env t
  have hheld : ∀ b x, t.blockAssignments.isHolder b x = true ↔
      s.blockAssignments.isHolder b x = true ∧ ¬ R x b := by
    intro b x
    rw [h.held, hreq]
    simp
  have hsame : requestsOf (outputs ++ (t.plan env).2) = requestsOf (t.plan env).2 := by
    rw [requestsOf_append, hreq, List.nil_append]
  refine ⟨fun b x => ?_, fun b x hb => ?_, ?_, fun hroom => hg.room (h.room hroom)⟩
  · rw [hg.holders, hheld, hsame]
  · rw [hsame] at hb
    rw [← hheld, hg.fresh x b hb]
    exact Bool.false_ne_true
  · rw [hsame]
    exact hg.nodup

end Balanced

theorem handleMessage_inFlight_le (sha1 : Sha1) (env : Entropy) (s : Swarm) (x : SocketAddr)
    (m : Message) (y : SocketAddr) :
    (s.handleMessage sha1 env x m).1.blockAssignments.inFlight y ≤
      s.blockAssignments.inFlight y := by
  cases m with
  | choke => exact inFlight_releasePeer_le _ x y
  | rejectRequest range => exact inFlight_unassign_le _ range x y
  | piece range data =>
    rcases onMessagePiece_fst sha1 env s x range data with ⟨-, hs⟩ | ⟨-, _, hs⟩
    · simp only [handleMessage, hs, le_refl]
    · simp only [handleMessage, hs]
      exact inFlight_unassign_le _ range x y
  | request range =>
    obtain ⟨_, _, hs⟩ := onMessageRequest_fst s x range
    simp only [handleMessage, hs, le_refl]
  | cancel range =>
    obtain ⟨_, hs⟩ := cancelUpload_fst s x range
    simp only [handleMessage, hs, le_refl]
  | _ => exact le_refl _

theorem released_message_iff {r : PeerRegistry} {x y : SocketAddr} {m : Message} {b : BlockRange}
    (ha : s.peerRegistry.apply x m = .ok r) :
    Released s y b (.messageReceived x m) ↔ y = x ∧ m.Releases b := by
  cases m with
  | rejectRequest range =>
    obtain ⟨p, hp, hfast, -⟩ := apply_ok ha
    simp only [Released, Message.Releases, and_iff_left_iff_imp]
    rintro ⟨rfl, -⟩
    exact ⟨p, hp, hfast rfl⟩
  | choke => simp [Released, Message.Releases]
  | piece range data => rfl
  | _ => simp [Released, Message.Releases]

theorem not_released_of_rejected {reason : RejectReason} {x y : SocketAddr} {m : Message}
    {b : BlockRange} (hacc : Accounted s) (ha : s.peerRegistry.apply x m = .error reason)
    (hheld : s.blockAssignments.isHolder b y = true) :
    ¬ Released s y b (.messageReceived x m) := by
  obtain ⟨p, hp⟩ := HashMap.contains_iff.mp (hacc.registered y (hacc.assigned b y hheld))
  have hsender : y = x → (m.needsFast && !p.fast) = true := by
    rintro rfl
    unfold apply at ha
    rw [hp] at ha
    by_contra hok
    simp [hok] at ha
  intro hrel
  cases m with
  | rejectRequest range =>
    obtain ⟨⟨hyx, -⟩, q, hq, hfast⟩ := hrel
    have hpq : p = q := Option.some.inj (hp.symm.trans hq)
    have hbad := hsender hyx
    rw [hpq, hfast] at hbad
    contradiction
  | choke =>
    have hbad := hsender hrel
    contradiction
  | piece range data =>
    have hbad := hsender hrel.1
    contradiction
  | _ => exact hrel

theorem balanced_onMessage (h : Accounted s) (sha1 : Sha1) (env : Entropy) (x : SocketAddr)
    (m : Message) : Balanced s (fun y b => Released s y b (.messageReceived x m))
      (s.onMessage sha1 env x m).1 (s.onMessage sha1 env x m).2 := by
  have hhandled : ∀ r, s.peerRegistry.apply x m = .ok r →
      Balanced s (fun y b => Released s y b (.messageReceived x m))
        (handleMessage sha1 env { s with peerRegistry := r } x m).1
        (handleMessage sha1 env { s with peerRegistry := r } x m).2 := by
    intro r ha
    refine Balanced.of_release (requestsOf_handleMessage ..) (fun b y => ?_) fun y => ?_
    · rw [handleMessage_isHolder, released_message_iff ha]
    · exact handleMessage_inFlight_le ..
  rcases onMessage_cases sha1 env s x m with ⟨reason, ha, hs, ho⟩ | ⟨r, ha, -, hs⟩ | ⟨r, ha, -, hs⟩
  · refine Balanced.of_same (requestsOf_eq_nil fun o hin y b => ?_) (by rw [hs]) fun b y hb => ?_
    · rw [ho o hin]
      exact Output.noConfusion
    · exact not_released_of_rejected h ha hb
  · rw [hs]
    exact hhandled r ha
  · rw [hs]
    exact (hhandled r ha).plan (requestsOf_handleMessage ..) env

theorem balanced_onConnected (env : Entropy) (s : Swarm) (x : SocketAddr) (d : ConnectionDirection)
    (id : PeerId) (e : PeerExtensions) :
    Balanced s (fun y b => Released s y b (.peerConnected id d x e))
      (s.onConnected env x d id e).1 (s.onConnected env x d id e).2 := by
  have hreq := (plain_onConnected env s x d id e).requestsOf
  rcases onConnected_cases env s x d id e with ⟨hb, hs⟩ | ⟨old, hb, hd, hs⟩ | ⟨old, hb, hd, hs⟩
  · have hnot : ¬ s.Refused d id := by
      rintro ⟨old, hold, -⟩
      rw [connectionFor, hb] at hold
      contradiction
    refine Balanced.of_release hreq (fun b y => ?_) fun y => ?_
    · rw [hs, register_blockAssignments, isHolder_releasePeer]
      simp [Released, hnot, connectionFor, hb]
    · rw [hs, register_blockAssignments]
      exact inFlight_releasePeer_le _ x y
  · refine Balanced.of_same hreq (by rw [hs]) fun b y _ => ?_
    rintro ⟨hnot, -⟩
    exact hnot ⟨old, hb, hd⟩
  · have hnot : ¬ s.Refused d id := not_refused s hb hd
    refine Balanced.of_release hreq (fun b y => ?_) fun y => ?_
    · rw [hs, register_blockAssignments, isHolder_releasePeer, onDisconnected_blockAssignments,
        isHolder_releasePeer]
      simp only [Released, hnot, not_false_eq_true, true_and, connectionFor, hb, Option.some.injEq,
        not_or, and_assoc]
      have hold : (∃ d', old = (y, d')) ↔ y = old.1 := by
        constructor
        · rintro ⟨d', rfl⟩
          rfl
        · rintro rfl
          exact ⟨old.2, rfl⟩
      rw [hold, and_comm (a := y ≠ old.1)]
    · rw [hs, register_blockAssignments, onDisconnected_blockAssignments]
      exact (inFlight_releasePeer_le _ x y).trans (inFlight_releasePeer_le _ old.1 y)

theorem step_balanced (sha1 : Sha1) (h : Accounted s) (i : Input × Entropy) :
    Balanced s (fun y b => Released s y b i.1) (step sha1 s i).1 (step sha1 s i).2 := by
  obtain ⟨input, env⟩ := i
  cases input with
  | peersDiscovered addrs =>
    exact Balanced.of_same (plain_onDiscovered s addrs).requestsOf rfl fun _ _ _ h => h
  | peerConnected id d x e => exact balanced_onConnected env s x d id e
  | peerDisconnected x =>
    refine Balanced.of_release (plain_onDisconnected env s x).requestsOf (fun b y => ?_) fun y => ?_
    · exact isHolder_releasePeer ..
    · exact inFlight_releasePeer_le ..
  | messageReceived x m => exact balanced_onMessage h sha1 env x m
  | localPiece i data => exact Balanced.of_same rfl rfl fun _ _ _ h => h
  | uploadReadCompleted id range data =>
    rcases onUploadReadCompleted_cases env s id range data with hs | ⟨_, _, hs⟩ <;>
      simp only [step, hs]
    · exact Balanced.of_same rfl rfl fun _ _ _ h => h
    · refine Balanced.of_same (requestsOf_eq_nil fun o ho x b hb => ?_) rfl fun _ _ _ h => h
      obtain ⟨y, -, rfl⟩ := List.mem_map.mp ho
      simp at hb
  | swarmCommand cmd =>
    refine Balanced.of_same (plain_onSwarmCommand env s cmd).requestsOf ?_ fun _ _ _ h => h
    obtain ⟨_, _, _, -, hs⟩ := onSwarmCommand_cases env s cmd
    simp only [step, hs]
  | tick t =>
    cases t with
    | block =>
      have hstart : Balanced s (fun y b => Released s y b (.tick .block)) s [] :=
        Balanced.of_same rfl rfl fun _ _ _ h => h
      exact hstart.plan rfl env
    | pex => exact Balanced.of_same (plain_pexOutputs env s).requestsOf rfl fun _ _ _ h => h

theorem held_iff_outstanding {clientId : PeerId} {metainfo : Metainfo} {h : Trace}
    (hist : History (step sha1) (Started clientId metainfo) h s) (x : SocketAddr) (b : BlockRange) :
    s.blockAssignments.isHolder b x = true ↔ Outstanding h x b := by
  induction hist with
  | start hs =>
    rw [(started_fields hs).2.2.2.2.1]
    constructor
    · intro hb
      simp [isHolder, BlockAssignments.new] at hb
    · rintro ⟨newer, e, older, hh, -⟩
      simp at hh
  | next i hist ih =>
    have hacc := reachable_accounted ⟨_, hist⟩
    rw [(step_balanced sha1 hacc i).held, outstanding_cons, ih]

theorem started_room {clientId : PeerId} {metainfo : Metainfo} (hs : Started clientId metainfo s)
    (y : SocketAddr) : s.blockAssignments.inFlight y ≤ maxInFlightPerPeer := by
  rw [(started_fields hs).2.2.2.2.1]
  simp [inFlight, BlockAssignments.new]

theorem held_room {clientId : PeerId} {metainfo : Metainfo} {h : Trace}
    (hist : History (step sha1) (Started clientId metainfo) h s) (y : SocketAddr) :
    s.blockAssignments.inFlight y ≤ maxInFlightPerPeer := by
  induction hist generalizing y with
  | start hs => exact started_room hs y
  | next i hist ih =>
    have hacc := reachable_accounted ⟨_, hist⟩
    exact (step_balanced sha1 hacc i).room ih y

theorem piece_changes_only_if_held {x : SocketAddr} {range : BlockRange} {data : Bytes}
    (h : (step sha1 s (.messageReceived x (.piece range data), env)).1.pieces ≠ s.pieces) :
    s.blockAssignments.isHolder range x = true := by
  by_contra hnot
  rw [Bool.not_eq_true] at hnot
  apply h
  have hsame : ∀ r, (handleMessage sha1 env { s with peerRegistry := r } x
      (.piece range data)).1.pieces = s.pieces := by
    intro r
    rcases onMessagePiece_cases sha1 env { s with peerRegistry := r } x range data with
      ⟨-, hs⟩ | ⟨hheld, -⟩
    · simp only [handleMessage, hs]
    · simp only at hheld
      rw [hnot] at hheld
      contradiction
  simp only [step]
  rcases onMessage_cases sha1 env s x (.piece range data) with
    ⟨_, -, hs, -⟩ | ⟨r, -, -, hs⟩ | ⟨r, -, -, hs⟩
  · rw [hs]
  · rw [hs]
    exact hsame r
  · rw [hs, plan_pieces]
    exact hsame r

end Swarm

end Tortue
