import Tortue.Domain.Swarm.Completion
import Tortue.Domain.Swarm.Reads

namespace Tortue

open Collections

def Message.Offers (n : Nat) (i : Nat) : Message → Prop
  | .haveAll => i < n
  | .bitfield bits => Bitfield.bitSet bits i = true
  | .havePiece j => j = i
  | _ => False

namespace Swarm

open PieceManager

abbrev Happening := Event Swarm (Input × Entropy) Output

end Swarm

namespace PieceAvailability

variable {x y : SocketAddr}

theorem has_record_other (hyx : y ≠ x) (a : PieceAvailability) (q p : Nat) :
    (a.record q x).has p y = a.has p y := by
  rw [Bool.eq_iff_iff, has_record]
  simp [hyx]

theorem has_records_other (hyx : y ≠ x) (pieces : List Nat) (a : PieceAvailability) (p : Nat) :
    (pieces.foldl (fun a piece => a.record piece x) a).has p y = a.has p y := by
  rw [Bool.eq_iff_iff, PeerRegistry.has_fold_record]
  simp [hyx]

theorem has_removePeer_other (hyx : y ≠ x) (a : PieceAvailability) (p : Nat) :
    (a.removePeer x).has p y = a.has p y := by
  rw [Bool.eq_iff_iff, has_removePeer]
  simp [hyx]

end PieceAvailability

namespace PeerRegistry

open PieceAvailability

variable {r r' : PeerRegistry} {x y : SocketAddr} {m : Message}

theorem has_recordMessage_other (hyx : y ≠ x) (a : PieceAvailability) (m : Message) (p : Nat) :
    (recordMessage a x m).has p y = a.has p y := by
  cases m with
  | bitfield bits =>
    simp only [recordMessage]
    split
    · rw [has_records_other hyx, has_removePeer_other hyx]
    · rw [has_removePeer_other hyx]
  | havePiece piece => exact has_record_other hyx a piece p
  | haveAll => exact has_records_other hyx _ a p
  | haveNone => exact has_removePeer_other hyx a p
  | _ => rfl

structure SameAt (y : SocketAddr) (r r' : PeerRegistry) : Prop where
  peer : r'.peers.get y = r.peers.get y
  available : ∀ p, r'.availability.has p y = r.availability.has p y
  seeding : r'.seeders.contains y = r.seeders.contains y
  leeching : r'.leechers.contains y = r.leechers.contains y
  indexed : ∀ id, r'.byId.get id = r.byId.get id

theorem sameAt_classify (hyx : y ≠ x) (r : PeerRegistry) : SameAt y r (r.classify x) := by
  refine ⟨by rw [classify_peers], fun p => by rw [classify_availability], ?_, ?_,
    fun id => by rw [classify_byId]⟩
  · unfold classify
    split <;> simp [hyx]
  · unfold classify
    split <;> simp [hyx]

theorem sameAt_apply (hyx : y ≠ x) (h : r.apply x m = .ok r') : SameAt y r r' := by
  unfold apply at h
  split at h
  · contradiction
  · next peer hpeer =>
    split at h
    · contradiction
    · rw [Except.ok.injEq] at h
      have hclass := sameAt_classify hyx { r with
        peers := r.peers.insert x (peer.apply m)
        availability := recordMessage r.availability x m }
      rw [h] at hclass
      refine ⟨?_, fun p => ?_, hclass.seeding, hclass.leeching, hclass.indexed⟩
      · rw [hclass.peer, HashMap.get_insert, if_neg hyx]
      · rw [hclass.available, has_recordMessage_other hyx]

def Rejects (r : PeerRegistry) (x : SocketAddr) (m : Message) : Prop :=
  r.containsAddr x = false ∨
    m.needsFast = true ∧ ∃ p, r.peers.get x = some p ∧ p.fast = false

theorem apply_error (h : Rejects r x m) : ∃ reason, r.apply x m = .error reason := by
  unfold apply
  rcases h with hnone | ⟨hneeds, p, hp, hslow⟩
  · have hget : r.peers.get x = none := Option.not_isSome_iff_eq_none.mp (by simp [← hnone,
      containsAddr, HashMap.contains])
    exact ⟨.unknownPeer, by rw [hget]⟩
  · exact ⟨.protocolViolation, by rw [hp]; simp [hneeds, hslow]⟩

theorem accepted_iff : (∃ r', r.apply x m = .ok r') ↔ ¬ r.Rejects x m := by
  constructor
  · rintro ⟨r', hok⟩ hrejects
    obtain ⟨reason, herror⟩ := apply_error hrejects
    rw [hok] at herror
    contradiction
  · intro hno
    simp only [Rejects, not_or, Bool.not_eq_false, not_and, not_exists] at hno
    obtain ⟨hregistered, hfast⟩ := hno
    obtain ⟨peer, hpeer⟩ := HashMap.contains_iff.mp hregistered
    have hallowed : (m.needsFast && !peer.fast) = false := by
      cases hneeds : m.needsFast with
      | false => rfl
      | true => simpa using hfast hneeds peer hpeer
    exact ⟨_, by simp only [apply, hpeer, hallowed, Bool.false_eq_true, if_false]; rfl⟩

end PeerRegistry

def Message.resets : Message → Bool
  | .bitfield _ | .haveAll | .haveNone => true
  | _ => false

namespace PieceAvailability

variable {a : PieceAvailability} {x y : SocketAddr}

structure Tidy (n : Nat) (a : PieceAvailability) : Prop where
  total : a.totalPieces = n
  nonempty : ∀ p peers, a.byPiece.get p = some peers → 0 < peers.len

variable {n : Nat}

theorem Tidy.record (h : Tidy n a) (q : Nat) (x : SocketAddr) : Tidy n (a.record q x) where
  total := h.total
  nonempty p peers hp := by
    simp only [PieceAvailability.record, HashMap.get_insert] at hp
    split at hp
    · rw [Option.some.injEq] at hp
      subst hp
      exact Nat.zero_lt_succ _
    · exact h.nonempty p peers hp

theorem Tidy.records (h : Tidy n a) (pieces : List Nat) (x : SocketAddr) :
    Tidy n (pieces.foldl (fun a piece => a.record piece x) a) := by
  induction pieces generalizing a with
  | nil => exact h
  | cons q pieces ih => exact ih (h.record q x)

theorem Tidy.removePeer (h : Tidy n a) (x : SocketAddr) : Tidy n (a.removePeer x) where
  total := h.total
  nonempty p peers hp := by
    simp only [PieceAvailability.removePeer, HashMap.get_retain] at hp
    obtain ⟨before, -, hdrop⟩ := Option.bind_eq_some_iff.mp hp
    simp only [dropPeer] at hdrop
    split at hdrop
    · contradiction
    · next hlen =>
      rw [Option.some.injEq] at hdrop
      exact Nat.pos_of_ne_zero (hdrop ▸ hlen)

theorem Tidy.recordMessage (h : Tidy n a) (x : SocketAddr) (m : Message) :
    Tidy n (PeerRegistry.recordMessage a x m) := by
  cases m with
  | bitfield bits =>
    simp only [PeerRegistry.recordMessage]
    split
    · exact (h.removePeer x).records _ x
    · exact h.removePeer x
  | havePiece piece => exact h.record piece x
  | haveAll => exact h.records _ x
  | haveNone => exact h.removePeer x
  | _ => exact h

theorem has_recordMessage_iff (h : Tidy n a) {p : Nat} (hp : p < n) (x y : SocketAddr)
    (m : Message) : (PeerRegistry.recordMessage a x m).has p y = true ↔
      (a.has p y = true ∧ ¬ (y = x ∧ m.resets = true)) ∨ (y = x ∧ m.Offers n p) := by
  cases m with
  | bitfield bits =>
    simp only [PeerRegistry.recordMessage, Bitfield.tryFrom_eq, PeerRegistry.has_fold_record,
      has_removePeer, Bitfield.mem_iter, Message.resets, Message.Offers, and_true, ne_eq]
  | havePiece piece =>
    simp only [PeerRegistry.recordMessage, has_record, Message.resets, Message.Offers,
      Bool.false_eq_true, and_false, not_false_eq_true, and_true]
    grind
  | haveAll =>
    simp only [PeerRegistry.recordMessage, recordAll, PeerRegistry.has_fold_record, List.mem_range,
      h.total, Message.resets, Message.Offers, and_true]
    grind
  | haveNone =>
    simp only [PeerRegistry.recordMessage, has_removePeer, Message.resets, Message.Offers,
      and_true, and_false, or_false, ne_eq]
  | _ => simp [PeerRegistry.recordMessage, Message.resets, Message.Offers]

theorem isSeeder_iff (h : Tidy n a) (x : SocketAddr) :
    a.isSeeder x = true ↔ ∀ p < n, a.has p x = true := by
  simp [isSeeder, h.total]

end PieceAvailability

namespace PeerRegistry

variable {n : Nat} {r r' : PeerRegistry} {x y : SocketAddr} {m : Message}

structure Classified (n : Nat) (r : PeerRegistry) : Prop where
  tidy : r.availability.Tidy n
  disjoint : ∀ x, r.seeders.contains x = true → r.leechers.contains x = false
  seeding : ∀ x, r.seeders.contains x = true → ∀ p < n, r.availability.has p x = true
  leeching : ∀ x, r.leechers.contains x = true → ∃ p < n, r.availability.has p x = false

theorem classified_new (n : Nat) : Classified n (.new n) where
  tidy := ⟨rfl, fun p peers hp => by simp [PeerRegistry.new, PieceAvailability.new] at hp⟩
  disjoint x hx := by simp [PeerRegistry.new] at hx
  seeding x hx := by simp [PeerRegistry.new] at hx
  leeching x hx := by simp [PeerRegistry.new] at hx

theorem apply_classifies (h : r.apply x m = .ok r') :
    r'.seeders.contains x = r'.availability.isSeeder x ∧
      r'.leechers.contains x = !r'.availability.isSeeder x := by
  unfold apply at h
  split at h
  · contradiction
  · split at h
    · contradiction
    · rw [Except.ok.injEq] at h
      rw [← h, classify_availability]
      unfold classify
      split
      · next hseeder => simp [hseeder]
      · next hleecher => simp [hleecher]

namespace Classified

theorem connected (h : Classified n r) (x : SocketAddr) (id : PeerId) (d : ConnectionDirection)
    (e : PeerExtensions) : Classified n (r.connected x id d e) :=
  ⟨h.tidy, h.disjoint, h.seeding, h.leeching⟩

theorem disconnected (h : Classified n r) (x : SocketAddr) : Classified n (r.disconnected x) := by
  obtain ⟨hs, hl, ha⟩ := disconnected_rest r x
  refine ⟨ha ▸ h.tidy.removePeer x, fun y hy => ?_, fun y hy p hp => ?_, fun y hy => ?_⟩
  · rw [hs, HashSet.contains_remove, Bool.and_eq_true, decide_eq_true_eq] at hy
    rw [hl, HashSet.contains_remove, h.disjoint y hy.2, Bool.and_false]
  · rw [hs, HashSet.contains_remove, Bool.and_eq_true, decide_eq_true_eq] at hy
    rw [ha, PieceAvailability.has_removePeer]
    exact ⟨h.seeding y hy.2 p hp, hy.1⟩
  · rw [hl, HashSet.contains_remove, Bool.and_eq_true, decide_eq_true_eq] at hy
    obtain ⟨p, hp, hnot⟩ := h.leeching y hy.2
    refine ⟨p, hp, ?_⟩
    rw [Bool.eq_false_iff, ha, ne_eq, PieceAvailability.has_removePeer, hnot]
    simp

theorem apply (h : Classified n r) (ha : r.apply x m = .ok r') : Classified n r' := by
  have htidy : r'.availability.Tidy n := by
    obtain ⟨-, -, -, -, -, havail⟩ := apply_ok ha
    exact havail ▸ h.tidy.recordMessage x m
  obtain ⟨hseeds, hleeches⟩ := apply_classifies ha
  refine ⟨htidy, fun y hy => ?_, fun y hy => ?_, fun y hy => ?_⟩
  · by_cases hyx : y = x
    · subst hyx
      rw [hleeches, ← hseeds, hy]
      rfl
    · have hsame := sameAt_apply hyx ha
      rw [hsame.seeding] at hy
      rw [hsame.leeching, h.disjoint y hy]
  · by_cases hyx : y = x
    · subst hyx
      rw [hseeds] at hy
      exact (PieceAvailability.isSeeder_iff htidy y).mp hy
    · have hsame := sameAt_apply hyx ha
      rw [hsame.seeding] at hy
      intro p hp
      rw [hsame.available]
      exact h.seeding y hy p hp
  · by_cases hyx : y = x
    · subst hyx
      rw [hleeches, Bool.not_eq_true'] at hy
      have hlacks : ¬ ∀ p < n, r'.availability.has p y = true := by
        rw [← PieceAvailability.isSeeder_iff htidy, hy]
        exact Bool.false_ne_true
      simpa using hlacks
    · have hsame := sameAt_apply hyx ha
      rw [hsame.leeching] at hy
      obtain ⟨p, hp, hnot⟩ := h.leeching y hy
      exact ⟨p, hp, by rw [hsame.available, hnot]⟩

end Classified

end PeerRegistry

namespace Swarm

open PeerRegistry

variable {sha1 : Sha1} {s : Swarm} {n : Nat}

inductive Enrolment (s : Swarm) (i : Input) (r : PeerRegistry) : Prop
  | keep : (∀ x m r', i = .messageReceived x m → s.peerRegistry.apply x m ≠ .ok r') →
      (∀ x, ¬ s.Leaves x i) → r = s.peerRegistry → Enrolment s i r
  | message (x : SocketAddr) (m : Message) : i = .messageReceived x m →
      s.peerRegistry.apply x m = .ok r → Enrolment s i r
  | leave (x : SocketAddr) : i = .peerDisconnected x → r = s.peerRegistry.disconnected x →
      Enrolment s i r
  | join (id : PeerId) (d : ConnectionDirection) (x : SocketAddr) (e : PeerExtensions) :
      i = .peerConnected id d x e → (∀ y, ¬ s.Leaves y i) →
      r = s.peerRegistry.connected x id d e → Enrolment s i r
  | replace (id : PeerId) (d : ConnectionDirection) (x old : SocketAddr) (e : PeerExtensions) :
      i = .peerConnected id d x e → (∀ y, s.Leaves y i ↔ y = old) →
      r = (s.peerRegistry.disconnected old).connected x id d e → Enrolment s i r

theorem enrolment_step (sha1 : Sha1) (s : Swarm) (i : Input × Entropy) :
    Enrolment s i.1 (step sha1 s i).1.peerRegistry := by
  obtain ⟨input, env⟩ := i
  have hquiet : (∀ x m, input ≠ .messageReceived x m) → ∀ x m r', input = .messageReceived x m →
      s.peerRegistry.apply x m ≠ .ok r' := fun hno x m _ hi => absurd hi (hno x m)
  cases input with
  | messageReceived x m =>
    simp only [step]
    rcases onMessage_cases sha1 env s x m with ⟨_, ha, hs, -⟩ | ⟨r, ha, -, hs⟩ | ⟨r, ha, -, hs⟩
    · refine .keep (fun y m' r' hi hok => ?_) (fun y hleaves => hleaves) (by rw [hs])
      rw [Input.messageReceived.injEq] at hi
      obtain ⟨rfl, rfl⟩ := hi
      rw [ha] at hok
      contradiction
    · exact .message x m rfl (by rw [hs, handleMessage_peerRegistry, ha])
    · exact .message x m rfl (by rw [hs, plan_peerRegistry, handleMessage_peerRegistry, ha])
  | peerDisconnected x => exact .leave x rfl rfl
  | peerConnected id d x e =>
    simp only [step]
    rcases onConnected_cases env s x d id e with ⟨hb, hs⟩ | ⟨old, hb, hd, hs⟩ | ⟨old, hb, hd, hs⟩
    · refine .join id d x e rfl ?_ (by rw [hs]; rfl)
      rintro y ⟨-, d', hd'⟩
      rw [connectionFor, hb] at hd'
      contradiction
    · refine .keep (hquiet (by simp)) ?_ (by rw [hs])
      rintro y ⟨haccepted, -⟩
      exact haccepted ⟨old, hb, hd⟩
    · refine .replace id d x old.1 e rfl (fun y => ⟨?_, ?_⟩) (by rw [hs]; rfl)
      · rintro ⟨-, d', hd'⟩
        rw [connectionFor, hb, Option.some.injEq] at hd'
        rw [hd']
      · rintro rfl
        exact ⟨not_refused s hb hd, old.2, hb⟩
  | uploadReadCompleted id range data =>
    refine .keep (hquiet (by simp)) (fun y hleaves => hleaves) ?_
    rcases onUploadReadCompleted_cases env s id range data with hs | ⟨_, _, hs⟩ <;>
      simp only [step, hs]
  | swarmCommand cmd =>
    obtain ⟨_, _, _, -, hs⟩ := onSwarmCommand_cases env s cmd
    exact .keep (hquiet (by simp)) (fun y hleaves => hleaves) (by simp only [step, hs])
  | tick t =>
    refine .keep (hquiet (by simp)) (fun y hleaves => hleaves) ?_
    cases t <;> simp [step, onTick]
  | _ => exact .keep (hquiet (by simp)) (fun y hleaves => hleaves) rfl

theorem Enrolment.classified {i : Input} {r : PeerRegistry} (h : Enrolment s i r)
    (hc : Classified n s.peerRegistry) : Classified n r := by
  cases h with
  | keep _ _ hr => exact hr ▸ hc
  | message x m _ ha => exact hc.apply ha
  | leave x _ hr => exact hr ▸ hc.disconnected x
  | join id d x e _ _ hr => exact hr ▸ hc.connected x id d e
  | replace id d x old e _ _ hr => exact hr ▸ (hc.disconnected old).connected x id d e

section

variable {clientId : PeerId} {metainfo : Metainfo} {h : Trace}

theorem history_classified (hist : History (step sha1) (Started clientId metainfo) h s) :
    Classified metainfo.pieces.length s.peerRegistry := by
  refine hist.invariant (P := fun t => Classified metainfo.pieces.length t.peerRegistry)
    (fun t ht => ?_) fun t i hc => (enrolment_step sha1 t i).classified hc
  rw [(started_fields ht).2.2.2.1]
  exact classified_new _

end

end Swarm

end Tortue
