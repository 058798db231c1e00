import Tortue.Adapters.MetadataIo
import Tortue.Domain.Swarm.Outputs
import Tortue.Domain.UtMetadata
import Mathlib.Data.List.Permutation
import Mathlib.Logic.Relation

namespace Tortue

open Collections

namespace Exchange

def handshakeExtensions : List (Bytes × Bencode) :=
  [(ByteStr "ut_metadata", .int 1), (ByteStr "ut_pex", .int 2)]

def handshakeFields (size : Option Nat) : List (Bytes × Bencode) :=
  (ByteStr "m", .dict handshakeExtensions) ::
    (size.map fun n => (ByteStr "metadata_size", Bencode.int (UtMetadataMessage.asI64 n))).toList

theorem utf8_names : utf8Bytes "ut_metadata" = ByteStr "ut_metadata" ∧
    utf8Bytes "ut_pex" = ByteStr "ut_pex" := by
  decide +kernel

theorem extensionEntries_session (o : IterOrder) (size : Option Nat) :
    ExtensionHandshake.extensionEntries o (sessionHandshake size).extensions =
      handshakeExtensions := by
  have hentries : (sessionHandshake size).extensions.entries =
    [("ut_pex", 2), ("ut_metadata", 1)] := rfl
  rw [ExtensionHandshake.extensionEntries, hentries]
  rcases List.perm_pair.mp (o.perm [("ut_pex", (2 : UInt8)), ("ut_metadata", 1)]) with h | h
  · rw [h]
    simp only [List.foldl_cons, List.foldl_nil, utf8_names.1, utf8_names.2]
    rfl
  · rw [h]
    simp only [List.foldl_cons, List.foldl_nil, utf8_names.1, utf8_names.2]
    rfl

theorem encode_session (o : IterOrder) (size : Option Nat) :
    (sessionHandshake size).encode o = (Bencode.dict (handshakeFields size)).encode := by
  rw [ExtensionHandshake.encode, extensionEntries_session]
  cases size with
  | none => rfl
  | some n => rfl

theorem handshakeFields_wellFormed (size : Option Nat) :
    (Bencode.dict (handshakeFields size)).WellFormed := by
  cases size with
  | none =>
    simp only [handshakeFields, handshakeExtensions, Option.map_none, Option.toList_none,
      Bencode.WellFormed, Bencode.WellFormedEntries, List.forall_mem_cons, List.not_mem_nil,
      false_imp_iff, implies_true]
    decide
  | some n =>
    simp only [handshakeFields, handshakeExtensions, Option.map_some, Option.toList_some,
      Bencode.WellFormed, Bencode.WellFormedEntries, List.forall_mem_cons, List.not_mem_nil,
      false_imp_iff, implies_true]
    decide

theorem readExtensions_session {payload : Bencode}
    (h : payload.get "m" = .ok (.dict handshakeExtensions)) :
    (ExtensionHandshake.readExtensions payload).get "ut_metadata" = some utMetadataExtId := by
  simp only [ExtensionHandshake.readExtensions, h]
  decide +kernel

theorem decode_session (o : IterOrder) {size : Option Nat}
    (hsize : ∀ n, size = some n → n < 2 ^ 63) :
    ∃ hs, Message.decode ((Message.extensionHandshake (sessionHandshake size)).encode o) =
        .ok (.extensionHandshake hs) ∧
      hs.extensions.get "ut_metadata" = some utMetadataExtId ∧ hs.metadataSize = size := by
  have hdecode : Message.decode (20 :: 0 :: (sessionHandshake size).encode o) =
    Message.decodeExtended (0 :: (sessionHandshake size).encode o) := rfl
  refine ⟨ExtensionHandshake.fromBencode (.dict (handshakeFields size)), ?_,
    readExtensions_session (Bencode.get_eq_ok.mpr ⟨handshakeFields size, rfl, rfl⟩), ?_⟩
  · rw [Message.encode, hdecode, Message.decodeExtended, if_pos rfl]
    simp only [Except.bind_eq_ok, Message.liftBencode_eq_ok]
    refine ⟨_, ?_, rfl⟩
    rw [encode_session]
    exact Bencode.decode_encode (handshakeFields_wellFormed size)
  · cases size with
    | none => rfl
    | some n =>
      have hget : (Bencode.dict (handshakeFields (some n))).getInt "metadata_size" =
        .ok (UtMetadataMessage.asI64 n) := rfl
      have hn : (UtMetadataMessage.asI64 n).toInt = n := by
        have hof : UtMetadataMessage.asI64 n = Int64.ofNat n := rfl
        rw [hof, Int64.toInt_ofNat_of_lt (hsize n rfl)]
      simp only [ExtensionHandshake.fromBencode, ExtensionHandshake.readMetadataSize, hget, hn]
      rw [if_pos (Int.natCast_nonneg n), Int.toNat_natCast]

end Exchange

structure Topology (ι : Type) where
  addr : ι → SocketAddr
  distinct : Function.Injective addr
  own : ι → SocketAddr

structure Exchange (ι : Type) where
  fetcher : Metadata
  servers : ι → Swarm
  toFetcher : ι → List Bytes
  toServer : ι → List Bytes
  done : List Bytes

namespace Exchange

inductive Delivery (ι : Type) where
  | atFetcher (i : ι) (order : IterOrder)
  | atServer (i : ι) (env : Entropy)

def frameOfFetcher (o : IterOrder) (x : SocketAddr) : Metadata.Output → Option Bytes
  | .sendToPeer a message => if a = x then some (message.encode o) else none
  | _ => none

def frameOfServer (o : IterOrder) (x : SocketAddr) : Output → Option Bytes
  | .sendToPeer a message => if a = x then some (message.encode o) else none
  | _ => none

variable {ι : Type}

structure Opened (sha1 : Sha1) (info : Bytes) (t : Topology ι) (e : Exchange ι) : Prop where
  fetcher : e.fetcher = Metadata.new (sha1 info)
  server : ∀ i, ∃ (s : Swarm) (env : Entropy) (d : ConnectionDirection) (id : PeerId)
    (extensions : PeerExtensions) (o : IterOrder), s.metainfo.infoBytes = info ∧
      e.servers i = (s.onConnected env (t.own i) d id extensions).1 ∧
      (e.servers i).peerRegistry.containsAddr (t.own i) = true ∧
      e.toFetcher i = (Message.extensionHandshake (sessionHandshake (some info.length))).encode o ::
        (s.onConnected env (t.own i) d id extensions).2.filterMap (frameOfServer o (t.own i))
  greeting : ∀ i, ∃ o,
    e.toServer i = [(Message.extensionHandshake (sessionHandshake none)).encode o]
  done : e.done = []

def Settled (e : Exchange ι) : Prop := ∀ i, e.toFetcher i = [] ∧ e.toServer i = []

variable [DecidableEq ι]

def fetcherTook (t : Topology ι) (e : Exchange ι) (i : ι) (rest : List Bytes) (o : IterOrder)
    (r : Metadata × List Metadata.Output) : Exchange ι :=
  { e with
    fetcher := r.1
    toFetcher := Function.update e.toFetcher i rest
    toServer := fun j => e.toServer j ++ r.2.filterMap (frameOfFetcher o (t.addr j))
    done := e.done ++ r.2.filterMap MetadataIo.raw }

def serverTook (t : Topology ι) (e : Exchange ι) (i : ι) (rest : List Bytes) (o : IterOrder)
    (r : Swarm × List Output) : Exchange ι :=
  { e with
    servers := Function.update e.servers i r.1
    toServer := Function.update e.toServer i rest
    toFetcher := Function.update e.toFetcher i
      (e.toFetcher i ++ r.2.filterMap (frameOfServer o (t.own i))) }

def atFetcher (sha1 : Sha1) (t : Topology ι) (e : Exchange ι) (i : ι) (order : IterOrder) :
    Option (Exchange ι) :=
  match e.toFetcher i with
  | [] => none
  | frame :: rest =>
    match Message.decode frame with
    | .error _ => none
    | .ok message => some (e.fetcherTook t i rest order
        (Metadata.step sha1 e.fetcher (.messageReceived (t.addr i) message, order)))

def atServer (sha1 : Sha1) (t : Topology ι) (e : Exchange ι) (i : ι) (env : Entropy) :
    Option (Exchange ι) :=
  match e.toServer i with
  | [] => none
  | frame :: rest =>
    match Message.decode frame with
    | .error _ => none
    | .ok message => some (e.serverTook t i rest env.order
        (Swarm.step sha1 (e.servers i) (.messageReceived (t.own i) message, env)))

def deliver (sha1 : Sha1) (t : Topology ι) (e : Exchange ι) : Delivery ι → Option (Exchange ι)
  | .atFetcher i order => e.atFetcher sha1 t i order
  | .atServer i env => e.atServer sha1 t i env

theorem atFetcher_eq_some {sha1 : Sha1} {t : Topology ι} {e e' : Exchange ι} {i : ι}
    {order : IterOrder} : e.atFetcher sha1 t i order = some e' ↔ ∃ frame rest message,
      e.toFetcher i = frame :: rest ∧ Message.decode frame = .ok message ∧
      e' = e.fetcherTook t i rest order
        (Metadata.step sha1 e.fetcher (.messageReceived (t.addr i) message, order)) := by
  rw [atFetcher]
  cases e.toFetcher i with
  | nil => simp
  | cons frame rest =>
    cases hdecode : Message.decode frame with
    | error _ => simp [hdecode]
    | ok message => simp [hdecode, eq_comm]

theorem atServer_eq_some {sha1 : Sha1} {t : Topology ι} {e e' : Exchange ι} {i : ι}
    {env : Entropy} : e.atServer sha1 t i env = some e' ↔ ∃ frame rest message,
      e.toServer i = frame :: rest ∧ Message.decode frame = .ok message ∧
      e' = e.serverTook t i rest env.order
        (Swarm.step sha1 (e.servers i) (.messageReceived (t.own i) message, env)) := by
  rw [atServer]
  cases e.toServer i with
  | nil => simp
  | cons frame rest =>
    cases hdecode : Message.decode frame with
    | error _ => simp [hdecode]
    | ok message => simp [hdecode, eq_comm]

def Next (sha1 : Sha1) (t : Topology ι) (e e' : Exchange ι) : Prop :=
  ∃ d, e.deliver sha1 t d = some e'

end Exchange

end Tortue
