import Tortue.Adapters.Exchange
import Tortue.Domain.MetadataFetch

namespace Tortue

open Collections

namespace Exchange

inductive Greeting : Message → Prop where
  | haveAll : Greeting .haveAll
  | haveNone : Greeting .haveNone
  | bitfield (bits : Bytes) : Greeting (.bitfield bits)
  | interested : Greeting .interested

def Hello (size : Option Nat) (frame : Bytes) : Prop :=
  ∃ hs, Message.decode frame = .ok (.extensionHandshake hs) ∧
    hs.extensions.get "ut_metadata" = some utMetadataExtId ∧ hs.metadataSize = size

def Asks (info : Bytes) (piece : Nat) (frame : Bytes) : Prop :=
  piece < Metadata.blockCount info ∧ Message.decode frame =
    .ok (.extension utMetadataExtId (UtMetadataMessage.request piece).encode)

def Answers (info : Bytes) (piece : Nat) (frame : Bytes) : Prop :=
  piece < Metadata.blockCount info ∧ Message.decode frame = .ok (.extension utMetadataExtId
    (UtMetadataMessage.data piece info.length (Metadata.block info piece)).encode)

theorem greeting_onConnected {env : Entropy} {s : Swarm} {x y : SocketAddr}
    {d : ConnectionDirection} {id : PeerId} {extensions : PeerExtensions} {message : Message}
    (h : .sendToPeer y message ∈ (s.onConnected env x d id extensions).2) : Greeting message := by
  have hregister : ∀ s : Swarm, .sendToPeer y message ∈ (s.register x d id extensions).2 →
      Greeting message := by
    intro s hs
    simp only [Swarm.register, List.mem_cons, Output.sendToPeer.injEq] at hs
    rcases hs with ⟨-, rfl⟩ | hs
    · rw [Swarm.availabilityMessage]
      split_ifs
      · exact .haveAll
      · exact .haveNone
      · exact .bitfield _
    · have hinterest := Swarm.declareInterest_outputs _ x _ hs
      obtain ⟨-, rfl⟩ := Output.sendToPeer.inj hinterest
      exact .interested
  rcases Swarm.onConnected_cases env s x d id extensions with
    ⟨-, hs⟩ | ⟨_, -, -, hs⟩ | ⟨old, -, -, hs⟩
  · rw [hs] at h
    exact hregister s h
  · rw [hs, List.mem_singleton] at h
    contradiction
  · rw [hs] at h
    rcases List.mem_append.mp h with h | h
    · obtain ⟨_, ho⟩ := Swarm.onDisconnected_outputs env s old.1 _ h
      contradiction
    · rcases List.mem_cons.mp h with h | h
      · contradiction
      · exact hregister _ h

theorem decode_greeting {message : Message} (h : Greeting message) (o : IterOrder) :
    Message.decode (message.encode o) = .ok message := by
  cases h <;> rfl

theorem infoBytesBlock_eq (m : Metainfo) {piece : Nat}
    (hpiece : piece * Metadata.pieceSize < 2 ^ 64) :
    m.infoBytesBlock piece = Metadata.block m.infoBytes piece := by
  simp only [Metainfo.infoBytesBlock, Metadata.block]
  have hstart : wrap (piece * Metainfo.metadataPieceSize) = piece * Metadata.pieceSize :=
    wrap_of_lt hpiece
  rw [hstart]
  split_ifs with hbeyond
  · rw [List.drop_eq_nil_of_le hbeyond, List.take_nil]
  · rfl

section Server

variable (sha1 : Sha1) (env : Entropy) {s : Swarm} {x : SocketAddr}

theorem apply_registered {r : PeerRegistry} {p : PeerState} (hp : r.peers.get x = some p)
    {message : Message} (hplain : message.needsFast = false) :
    ∃ r', r.apply x message = .ok r' ∧ r'.peers = r.peers.insert x (p.apply message) := by
  cases hr : r.apply x message with
  | error e =>
    simp only [PeerRegistry.apply, hp, hplain, Bool.false_and] at hr
    contradiction
  | ok r' =>
    obtain ⟨p', hp', -, hpeers, -, -⟩ := PeerRegistry.apply_ok hr
    rw [hp, Option.some.injEq] at hp'
    exact ⟨r', rfl, hp' ▸ hpeers⟩

theorem step_hello (hreg : s.peerRegistry.peers.contains x = true) (hs : ExtensionHandshake) :
    ∃ r, Swarm.step sha1 s (.messageReceived x (.extensionHandshake hs), env) =
        ({ s with peerRegistry := r }, []) ∧ r.peers.contains x = true ∧
      ∀ name, r.peerExtensionId x name = hs.extensions.get name := by
  obtain ⟨p, hp⟩ := HashMap.contains_iff.mp hreg
  obtain ⟨r, hr, hpeers⟩ := apply_registered hp
    (show (Message.extensionHandshake hs).needsFast = false from rfl)
  refine ⟨r, ?_, ?_, fun name => ?_⟩
  · simp only [Swarm.step, Swarm.onMessage, hr]
    rfl
  · rw [HashMap.contains_iff]
    exact ⟨_, by rw [hpeers]; exact HashMap.get_insert_self ..⟩
  · simp only [PeerRegistry.peerExtensionId, hpeers, HashMap.get_insert_self]
    rfl

theorem step_asked {extId : UInt8} {piece : Nat} {payload : Bytes}
    (hext : s.peerRegistry.peerExtensionId x "ut_metadata" = some extId)
    (hasked : UtMetadataMessage.decode payload = .ok (.request piece)) :
    ∃ r, Swarm.step sha1 s (.messageReceived x (.extension utMetadataExtId payload), env) =
          ({ s with peerRegistry := r }, [.sendToPeer x (.extension extId
            (UtMetadataMessage.data piece s.metainfo.infoBytes.length
              (s.metainfo.infoBytesBlock piece)).encode)]) ∧
      r.peers.contains x = true ∧ r.peerExtensionId x "ut_metadata" = some extId := by
  obtain ⟨p, hp, hs, hhs, hid⟩ : ∃ p, s.peerRegistry.peers.get x = some p ∧
      ∃ hs, p.extensions = some hs ∧ hs.extensions.get "ut_metadata" = some extId := by
    simpa only [PeerRegistry.peerExtensionId, Option.bind_eq_bind, Option.bind_eq_some_iff]
      using hext
  obtain ⟨r, hr, hpeers⟩ := apply_registered hp
    (show (Message.extension utMetadataExtId payload).needsFast = false from rfl)
  have hget : r.peers.get x = some p := by
    rw [hpeers]
    exact HashMap.get_insert_self ..
  have hkept : r.peerExtensionId x "ut_metadata" = some extId := by
    simp only [PeerRegistry.peerExtensionId, hget, Option.bind_eq_bind, Option.bind_some, hhs, hid]
  refine ⟨r, ?_, HashMap.contains_iff.mpr ⟨p, hget⟩, hkept⟩
  simp only [Swarm.step, Swarm.onMessage, hr, Swarm.handleMessage, Swarm.onExtensionMessage,
    if_true, hasked, hkept]
  rfl

theorem step_request {extId : UInt8} {piece : Nat}
    (hext : s.peerRegistry.peerExtensionId x "ut_metadata" = some extId)
    (hpiece : piece < 2 ^ 64) :
    ∃ r, Swarm.step sha1 s (.messageReceived x
        (.extension utMetadataExtId (UtMetadataMessage.request piece).encode), env) =
          ({ s with peerRegistry := r }, [.sendToPeer x (.extension extId
            (UtMetadataMessage.data piece s.metainfo.infoBytes.length
              (s.metainfo.infoBytesBlock piece)).encode)]) ∧
      r.peers.contains x = true ∧ r.peerExtensionId x "ut_metadata" = some extId :=
  step_asked sha1 env hext (UtMetadataMessage.decode_request hpiece)

end Server

section Fetcher

variable {sha1 : Sha1} {info : Bytes} {order : IterOrder} {s : Metadata} {x : SocketAddr}

theorem step_greeting {message : Message} (h : Greeting message) :
    Metadata.step sha1 s (.messageReceived x message, order) = (s, []) := by
  cases h <;> rfl

theorem onData_honest (h : Metadata.Right info s) (hhash : s.infoHash = sha1 info) (piece : Nat) :
    (¬ Slots.Vacant s.pieces piece ∧
      s.onData sha1 order piece (Metadata.block info piece) = (s, [])) ∨
    (Slots.Vacant s.pieces piece ∧
      (∃ j, Slots.Vacant (s.store piece (Metadata.block info piece)).pieces j) ∧
      s.onData sha1 order piece (Metadata.block info piece) =
        (s.store piece (Metadata.block info piece), [])) ∨
    (Slots.Vacant s.pieces piece ∧
      Slots.Full (s.store piece (Metadata.block info piece)).pieces ∧
      s.onData sha1 order piece (Metadata.block info piece) =
        (s.store piece (Metadata.block info piece), [.done info])) := by
  rcases Metadata.onData_cases sha1 order s piece (Metadata.block info piece) with
    hdropped | hkept | ⟨hempty, hfull, hdata⟩
  · exact .inl hdropped
  · exact .inr (.inl hkept)
  · have hcontents : (s.store piece (Metadata.block info piece)).contents = info := by
      rw [Metadata.contents_eq_completed info hfull, (h.store hempty).completed]
    refine .inr (.inr ⟨hempty, hfull, ?_⟩)
    rw [hdata, Metadata.tryFinalize, hcontents]
    exact if_pos hhash.symm

theorem frames_missing (o : IterOrder) (y : SocketAddr) {n : UInt8}
    (hpeer : s.peers.get x = some n) :
    (s.requestMissingFrom x).filterMap (frameOfFetcher o y) = if x = y then
      s.missing.map fun p => (Message.extension n (UtMetadataMessage.request p).encode).encode o
    else [] := by
  rw [Metadata.requestMissingFrom, hpeer]
  simp only [List.filterMap_map, Function.comp_def, Metadata.makeRequest, frameOfFetcher]
  split_ifs
  · exact congrFun List.filterMap_eq_map s.missing
  · exact List.filterMap_none _

theorem raw_missing (x : SocketAddr) :
    (s.requestMissingFrom x).filterMap MetadataIo.raw = [] := by
  refine List.filterMap_eq_nil_iff.mpr fun o ho => ?_
  obtain ⟨_, _, _, _, rfl⟩ := Metadata.mem_requestMissingFrom.mp ho
  rfl

end Fetcher

end Exchange

end Tortue
