import Tortue.Domain.Swarm.Extensions
import Tortue.Domain.Swarm.Ledger
import Tortue.Properties.ExtensionIds

namespace Tortue

open Collections

namespace Metadata

variable {sha1 : Sha1} {s : Metadata} {x : SocketAddr} {k : UInt8}

structure Spoils (sha1 : Sha1) (s : Metadata) (piece : Nat) (data : Bytes) : Prop where
  vacant : Slots.Vacant s.pieces piece
  full : Slots.Full (s.store piece data).pieces
  mismatch : sha1 (s.store piece data).contents ≠ s.infoHash

def Addresses (sha1 : Sha1) (s : Metadata) (x : SocketAddr) (k : UInt8) :
    Input × IterOrder → Prop
  | (.messageReceived y (.extensionHandshake hs), _) =>
    x = y ∧ hs.extensions.get "ut_metadata" = some k ∧
      ∃ size, hs.metadataSize = some size ∧ ∃ j, Slots.Vacant (s.announceSize size).pieces j
  | (.messageReceived y (.extension extId payload), order) =>
    s.peers.get y = some extId ∧ s.peers.get x = some k ∧
      ((∃ piece, UtMetadataMessage.decode payload = .ok (.reject piece) ∧
          (order.arrange s.peers.keys).find? (fun a => a ≠ y) = some x) ∨
        ∃ piece totalSize data, UtMetadataMessage.decode payload =
          .ok (.data piece totalSize data) ∧
          Spoils sha1 s piece data)
  | _ => False

def SendsExtension (x : SocketAddr) (k : UInt8) (outputs : List Output) : Prop :=
  ∃ payload, .sendToPeer x (.extension k payload) ∈ outputs

theorem not_sendsExtension_nil : ¬ SendsExtension x k [] := by simp [SendsExtension]

theorem sendsExtension_requestMissingFrom (y : SocketAddr) :
    SendsExtension x k (s.requestMissingFrom y) ↔
      x = y ∧ s.peers.get y = some k ∧ ∃ j, Slots.Vacant s.pieces j := by
  simp only [SendsExtension, mem_requestMissingFrom, makeRequest, Output.sendToPeer.injEq,
    Message.extension.injEq]
  constructor
  · rintro ⟨payload, extId, piece, hpeer, hvacant, rfl, rfl, -⟩
    exact ⟨rfl, hpeer, piece, hvacant⟩
  · rintro ⟨rfl, hpeer, piece, hvacant⟩
    exact ⟨_, k, piece, hpeer, hvacant, rfl, rfl, rfl⟩

theorem sendsExtension_tryFinalize (order : IterOrder) :
    SendsExtension x k (s.tryFinalize sha1 order).2 ↔ sha1 s.contents ≠ s.infoHash ∧
      s.peers.get x = some k ∧ ∃ j, Slots.Vacant s.discard.pieces j := by
  unfold tryFinalize
  split_ifs with hhash
  · simp [SendsExtension, hhash]
  · simp only [hhash, ne_eq, not_false_eq_true, true_and]
    have hmem : SendsExtension x k
        ((order.arrange s.peers.keys).flatMap s.discard.requestMissingFrom) ↔
          ∃ y ∈ order.arrange s.peers.keys,
            SendsExtension x k (s.discard.requestMissingFrom y) := by
      simp only [SendsExtension, List.mem_flatMap]
      constructor
      · rintro ⟨p, y, hy, hp⟩
        exact ⟨y, hy, p, hp⟩
      · rintro ⟨y, hy, p, hp⟩
        exact ⟨p, y, hy, hp⟩
    rw [hmem]
    simp only [sendsExtension_requestMissingFrom, (order.perm _).mem_iff, HashMap.mem_keys_iff]
    constructor
    · rintro ⟨y, -, rfl, hpeer, hvacant⟩
      exact ⟨hpeer, hvacant⟩
    · rintro ⟨hpeer, hvacant⟩
      exact ⟨x, HashMap.contains_iff.mpr ⟨k, hpeer⟩, rfl, hpeer, hvacant⟩

theorem sendsExtension_onData (order : IterOrder) (piece : Nat) (data : Bytes) :
    SendsExtension x k (s.onData sha1 order piece data).2 ↔
      s.peers.get x = some k ∧ Spoils sha1 s piece data := by
  rcases onData_cases sha1 order s piece data with
    ⟨hfilled, hs⟩ | ⟨-, ⟨j, hj⟩, hs⟩ | ⟨hvacant, hfull, hs⟩ <;> rw [hs]
  · exact iff_of_false not_sendsExtension_nil fun h => hfilled h.2.vacant
  · exact iff_of_false not_sendsExtension_nil fun h => h.2.full j hj
  · rw [sendsExtension_tryFinalize]
    constructor
    · rintro ⟨hhash, hpeer, -⟩
      exact ⟨hpeer, hvacant, hfull, hhash⟩
    · rintro ⟨hpeer, hspoils⟩
      refine ⟨hspoils.mismatch, hpeer, piece, ?_⟩
      rw [discard_pieces, length_store]
      exact Slots.vacant_blank.mpr (Slots.Vacant.lt hvacant)

theorem sendsExtension_onReject (order : IterOrder) (y : SocketAddr) (piece : Nat) :
    SendsExtension x k (s.onReject order y piece) ↔ s.peers.get x = some k ∧
      (order.arrange s.peers.keys).find? (fun a => a ≠ y) = some x := by
  unfold onReject
  cases hfind : (order.arrange s.peers.keys).find? fun a => a ≠ y with
  | none => simp [SendsExtension]
  | some a =>
    simp only [requestPieceFrom, Option.some.injEq]
    cases hpeer : s.peers.get a with
    | none =>
      refine iff_of_false not_sendsExtension_nil ?_
      rintro ⟨hx, rfl⟩
      rw [hpeer] at hx
      contradiction
    | some extId =>
      simp only [SendsExtension, makeRequest, List.mem_singleton, Output.sendToPeer.injEq,
        Message.extension.injEq]
      constructor
      · rintro ⟨_, rfl, rfl, -⟩
        exact ⟨hpeer, rfl⟩
      · rintro ⟨hx, rfl⟩
        rw [hpeer, Option.some.injEq] at hx
        exact ⟨_, rfl, hx.symm, rfl⟩

theorem sendsExtension_onHandshake (y : SocketAddr) (hs : ExtensionHandshake) :
    SendsExtension x k (s.onHandshake y hs).2 ↔ x = y ∧
      hs.extensions.get "ut_metadata" = some k ∧ ∃ size, hs.metadataSize = some size ∧
        ∃ j, Slots.Vacant (s.announceSize size).pieces j := by
  unfold onHandshake
  cases hid : hs.extensions.get "ut_metadata" with
  | none => simp [SendsExtension]
  | some extId =>
    cases hsize : hs.metadataSize with
    | none => simp [SendsExtension]
    | some size =>
      simp only [sendsExtension_requestMissingFrom, HashMap.get_insert_self, Option.some.injEq,
        exists_eq_left']

theorem sendsExtension_step (sha1 : Sha1) (s : Metadata) (i : Input × IterOrder) (x : SocketAddr)
    (k : UInt8) : SendsExtension x k (step sha1 s i).2 ↔ s.Addresses sha1 x k i := by
  obtain ⟨input, order⟩ := i
  cases input with
  | peersDiscovered addrs => simp [step, SendsExtension, Addresses]
  | peerDisconnected y => simp [step, SendsExtension, Addresses]
  | messageReceived y m =>
    cases m with
    | extensionHandshake hs => exact sendsExtension_onHandshake y hs
    | extension extId payload =>
      simp only [step, onMessage, Addresses]
      split_ifs with hpeer
      · exact iff_of_false not_sendsExtension_nil fun h => hpeer h.1
      · simp only [not_not.mp hpeer, true_and, onPayload]
        cases UtMetadataMessage.decode payload with
        | error e => simp [SendsExtension]
        | ok message =>
          cases message with
          | data piece totalSize data => simp [sendsExtension_onData]
          | reject piece => simp [sendsExtension_onReject]
          | _ => simp [SendsExtension]
    | _ => simp [step, onMessage, SendsExtension, Addresses]

end Metadata

namespace Swarm

variable {sha1 : Sha1} {s t : Swarm} {x : SocketAddr} {name : String} {k : UInt8}

def Names (x : SocketAddr) (name : String) (k : UInt8) : Input → Prop
  | .messageReceived y (.extensionHandshake hs) => x = y ∧ hs.extensions.get name = some k
  | _ => False

theorem peerExtensionId_eq_some {r : PeerRegistry} :
    r.peerExtensionId x name = some k ↔ ∃ p hs, r.peers.get x = some p ∧
      p.extensions = some hs ∧ hs.extensions.get name = some k := by
  simp [PeerRegistry.peerExtensionId, Option.bind_eq_some_iff]

theorem applied_id {r r' : PeerRegistry} {y : SocketAddr} {m : Message}
    (ha : r.apply y m = .ok r') (h : r'.peerExtensionId x name = some k) :
    Names x name k (.messageReceived y m) ∨ r.peerExtensionId x name = some k := by
  obtain ⟨p, hp, -, hpeers, -, -⟩ := PeerRegistry.apply_ok ha
  obtain ⟨q, hs, hq, hext, hid⟩ := peerExtensionId_eq_some.mp h
  rw [hpeers, HashMap.get_insert] at hq
  split_ifs at hq with hxy
  · subst hxy
    rw [Option.some.injEq] at hq
    subst hq
    cases m with
    | extensionHandshake hs' =>
      simp only [PeerState.apply, Option.some.injEq] at hext
      exact .inl ⟨rfl, hext ▸ hid⟩
    | _ => exact .inr (peerExtensionId_eq_some.mpr ⟨p, hs, hp, hext, hid⟩)
  · exact .inr (peerExtensionId_eq_some.mpr ⟨q, hs, hq, hext, hid⟩)

theorem disconnected_id {r : PeerRegistry} {y : SocketAddr}
    (h : (r.disconnected y).peerExtensionId x name = some k) :
    r.peerExtensionId x name = some k := by
  obtain ⟨q, hs, hq, hext, hid⟩ := peerExtensionId_eq_some.mp h
  rw [PeerRegistry.disconnected_peers, HashMap.get_remove] at hq
  split_ifs at hq
  exact peerExtensionId_eq_some.mpr ⟨q, hs, hq, hext, hid⟩

theorem connected_id {r : PeerRegistry} {y : SocketAddr} {id : PeerId} {d : ConnectionDirection}
    {e : PeerExtensions} (h : (r.connected y id d e).peerExtensionId x name = some k) :
    r.peerExtensionId x name = some k := by
  obtain ⟨q, hs, hq, hext, hid⟩ := peerExtensionId_eq_some.mp h
  simp only [PeerRegistry.connected, HashMap.get_insert] at hq
  split_ifs at hq
  · rw [Option.some.injEq] at hq
    subst hq
    contradiction
  · exact peerExtensionId_eq_some.mpr ⟨q, hs, hq, hext, hid⟩

theorem step_id {i : Input × Entropy}
    (h : (step sha1 s i).1.peerRegistry.peerExtensionId x name = some k) :
    Names x name k i.1 ∨ s.peerRegistry.peerExtensionId x name = some k := by
  rcases step_peerRegistry sha1 s i with hs | ⟨y, m, hi, ha⟩ | ⟨y, -, hs⟩ | ⟨id, d, y, e, -, hs⟩
  · exact .inr (hs ▸ h)
  · rw [hi]
    exact applied_id ha h
  · exact .inr (disconnected_id (hs ▸ h))
  · rw [hs] at h
    rcases onConnected_cases i.2 s y d id e with ⟨-, ho⟩ | ⟨_, -, -, ho⟩ | ⟨old, -, -, ho⟩ <;>
      rw [ho] at h
    · exact .inr (connected_id h)
    · exact .inr h
    · exact .inr (disconnected_id (connected_id h))

theorem stored_id_named {clientId : PeerId} {metainfo : Metainfo} {h : Trace}
    (hist : History (step sha1) (Started clientId metainfo) h s)
    (hid : s.peerRegistry.peerExtensionId x name = some k) : ∃ e ∈ h, Names x name k e.input.1 := by
  induction hist with
  | start hs =>
    rw [(started_fields hs).2.2.2.1] at hid
    obtain ⟨p, _, hp, -⟩ := peerExtensionId_eq_some.mp hid
    contradiction
  | @next h s i hist ih =>
    rcases step_id hid with hnow | hold
    · exact ⟨_, List.mem_cons_self .., hnow⟩
    · obtain ⟨e, he, hnames⟩ := ih hold
      exact ⟨e, List.mem_cons_of_mem _ he, hnames⟩

theorem zero_unused_iff {clientId : PeerId} {metainfo : Metainfo} {h : Trace}
    (hist : History (step sha1) (Started clientId metainfo) h s) :
    (∀ e ∈ h, ∀ x, ¬ SendsExtension x 0 e.outputs) ↔
      ∀ e ∈ h, ∀ x, ¬ e.before.Addresses x 0 e.input.1 := by
  refine forall₂_congr fun e he => forall_congr' fun x => not_congr ?_
  obtain ⟨newer, older, hh⟩ := List.mem_iff_append.mp he
  rw [(hist.event_before hh).2]
  exact sendsExtension_step sha1 e.before e.input x 0

theorem not_addresses_of_handshakes {clientId : PeerId} {metainfo : Metainfo} {h : Trace}
    (hist : History (step sha1) (Started clientId metainfo) h s)
    (hnamed : ∀ e ∈ h, ∀ x name, ¬ Names x name k e.input.1) :
    ∀ e ∈ h, ∀ x, ¬ e.before.Addresses x k e.input.1 := by
  intro e he x haddresses
  obtain ⟨newer, older, rfl⟩ := List.mem_iff_append.mp he
  obtain ⟨hbefore, -⟩ := hist.event_before rfl
  have hunnamed : ∀ name, e.before.peerRegistry.peerExtensionId x name ≠ some k := by
    intro name hid
    obtain ⟨f, hf, hnames⟩ := stored_id_named hbefore hid
    exact hnamed f (by simp [hf]) x name hnames
  rcases haddresses with ⟨-, -, hid⟩ | ⟨-, hid⟩
  · exact hunnamed _ hid
  · exact hunnamed _ hid

end Swarm

theorem extension_id_zero_unused_iff (sha1 : Sha1) :
    (∀ clientId metainfo h s,
      History (Swarm.step sha1) (Swarm.Started clientId metainfo) h s →
        ((∀ e ∈ h, ∀ x, ¬ Swarm.SendsExtension x 0 e.outputs) ↔
          ∀ e ∈ h, ∀ x, ¬ e.before.Addresses x 0 e.input.1)) ∧
    (∀ infoHash h s, History (Metadata.step sha1) (Metadata.Started infoHash) h s →
      ((∀ e ∈ h, ∀ x, ¬ Metadata.SendsExtension x 0 e.outputs) ↔
        ∀ e ∈ h, ∀ x, ¬ e.before.Addresses sha1 x 0 e.input)) := by
  refine ⟨fun _ _ _ _ hist => Swarm.zero_unused_iff hist, fun _ h _ hist => ?_⟩
  refine forall₂_congr fun e he => forall_congr' fun x => not_congr ?_
  obtain ⟨newer, older, hh⟩ := List.mem_iff_append.mp he
  rw [(hist.event_before hh).2]
  exact Metadata.sendsExtension_step sha1 e.before e.input x 0

namespace Sample

def naming (k : UInt8) : ExtensionHandshake := ⟨HashMap.empty.insert "ut_pex" k, none⟩

def exchanging (k : UInt8) : List (Input × Entropy) :=
  [connect 2 .outbound 80, message 80 (.extensionHandshake (naming k)), (.tick .pex, env)]

end Sample

theorem id_three_exchange_leaves_zero_unused :
    ∀ e ∈ History.events (Swarm.step Sample.sha1) Sample.swarm (Sample.exchanging 3), ∀ x,
      ¬ Swarm.SendsExtension x 0 e.outputs := by
  have hist := Sample.history (Sample.exchanging 3)
  refine ((extension_id_zero_unused_iff Sample.sha1).1 _ _ _ _ hist).mpr ?_
  refine Swarm.not_addresses_of_handshakes hist fun e he x name hnames => ?_
  simp only [Sample.exchanging, History.events, List.nil_append, List.cons_append,
    List.mem_cons, List.not_mem_nil, or_false] at he
  rcases he with rfl | rfl | rfl
  · exact hnames
  · have hget : (Sample.naming 3).extensions.get name = some 0 := hnames.2
    unfold Sample.naming at hget
    rw [HashMap.get_insert] at hget
    split_ifs at hget
    · simp at hget
    · contradiction
  · exact hnames

theorem disabled_extension_addressed :
    (¬ ∀ sha1 clientId metainfo h s,
      History (Swarm.step sha1) (Swarm.Started clientId metainfo) h s →
        ∀ e ∈ h, ∀ x, ¬ Swarm.SendsExtension x 0 e.outputs) ∧
    ¬ ∀ sha1 infoHash h s, History (Metadata.step sha1) (Metadata.Started infoHash) h s →
        ∀ e ∈ h, ∀ x, ¬ Metadata.SendsExtension x 0 e.outputs := by
  constructor
  · intro hall
    refine hall _ _ _ _ _ (Sample.history (Sample.exchanging 0)) _ (List.mem_cons_self ..)
      (Sample.addr 80) ((Swarm.sendsExtension_step ..).mpr (.inl ⟨rfl, .inl ?_, ?_⟩))
    · decide +kernel
    · decide +kernel
  · intro hall
    have hstart : History (Metadata.step Sample.sha1) (Metadata.Started (Sample.octets 0)) []
        (Metadata.new (Sample.octets 0)) := .start rfl
    have hist := hstart.next (.messageReceived (Sample.addr 80)
      (.extensionHandshake ⟨HashMap.empty.insert "ut_metadata" 0, some 1⟩), .insertion)
    refine hall _ _ _ _ hist _ (List.mem_cons_self ..) (Sample.addr 80)
      ((Metadata.sendsExtension_step ..).mpr ⟨rfl, ?_, 1, rfl, 0, ?_⟩)
    · decide +kernel
    · exact Slots.vacant_blank.mpr (by decide)

end Tortue
