import Tortue.Domain.Bitfield
import Tortue.Domain.Message

namespace Tortue

open Collections

structure PeerState where
  id : PeerId
  peerChoking : Bool
  peerInterested : Bool
  allowedFast : HashSet Nat
  suggested : HashSet Nat
  fast : Bool
  extensions : Option ExtensionHandshake
  bytesUploaded : Nat
  bytesDownloaded : Nat
  deriving DecidableEq

namespace PeerState

def new (id : PeerId) (extensions : PeerExtensions) : PeerState where
  id := id
  peerChoking := true
  peerInterested := false
  allowedFast := .empty
  suggested := .empty
  fast := extensions.fast
  extensions := none
  bytesUploaded := 0
  bytesDownloaded := 0

def apply (p : PeerState) : Message → PeerState
  | .choke => { p with peerChoking := true }
  | .unchoke => { p with peerChoking := false }
  | .interested => { p with peerInterested := true }
  | .notInterested => { p with peerInterested := false }
  | .extensionHandshake hs => { p with extensions := some hs }
  | .allowedFast piece => { p with allowedFast := p.allowedFast.add piece }
  | .suggestPiece piece => { p with suggested := p.suggested.add piece }
  | .piece _ data => { p with bytesDownloaded := p.bytesDownloaded + data.length }
  | .request range => { p with bytesUploaded := p.bytesUploaded + range.len }
  | _ => p

def canServe (p : PeerState) (pieceIndex : Nat) : Bool :=
  !p.peerChoking || p.allowedFast.contains pieceIndex

@[simp] theorem apply_id (p : PeerState) (msg : Message) : (p.apply msg).id = p.id := by
  cases msg <;> rfl

end PeerState

structure PieceAvailability where
  byPiece : HashMap Nat (HashSet SocketAddr)
  totalPieces : Nat
  deriving DecidableEq

namespace PieceAvailability

def new (totalPieces : Nat) : PieceAvailability := ⟨.empty, totalPieces⟩

def record (a : PieceAvailability) (pieceIndex : Nat) (addr : SocketAddr) : PieceAvailability :=
  { a with byPiece := a.byPiece.insert pieceIndex ((a.byPiece.getD pieceIndex .empty).add addr) }

def recordAll (a : PieceAvailability) (addr : SocketAddr) : PieceAvailability :=
  (List.range a.totalPieces).foldl (fun a piece => a.record piece addr) a

def dropPeer (addr : SocketAddr) (peers : HashSet SocketAddr) : Option (HashSet SocketAddr) :=
  let peers := peers.remove addr
  if peers.len = 0 then none else some peers

def removePeer (a : PieceAvailability) (addr : SocketAddr) : PieceAvailability :=
  { a with byPiece := a.byPiece.retain (dropPeer addr) }

def has (a : PieceAvailability) (piece : Nat) (addr : SocketAddr) : Bool :=
  match a.byPiece.get piece with
  | some peers => peers.contains addr
  | none => false

def isSeeder (a : PieceAvailability) (addr : SocketAddr) : Bool :=
  (List.range a.totalPieces).all fun piece => a.has piece addr

def peersFor (a : PieceAvailability) (pieceIndex : Nat) : List SocketAddr :=
  (a.byPiece.getD pieceIndex .empty).keys

-- Unknown pieces rank as `usize::MAX`.
def rarity (a : PieceAvailability) (pieceIndex : Nat) : Nat :=
  match a.byPiece.get pieceIndex with
  | some peers => peers.len
  | none => 2 ^ 64 - 1

theorem has_record (a : PieceAvailability) (q p : Nat) (x y : SocketAddr) :
    (a.record q x).has p y = true ↔ (p = q ∧ y = x) ∨ a.has p y = true := by
  unfold has record
  by_cases h : p = q
  · subst h
    cases hg : a.byPiece.get p <;> simp [HashMap.getD, hg]
  · simp [HashMap.get_insert, h]

theorem has_removePeer (a : PieceAvailability) (p : Nat) (x y : SocketAddr) :
    (a.removePeer x).has p y = true ↔ a.has p y = true ∧ y ≠ x := by
  unfold has removePeer
  rw [HashMap.get_retain]
  cases hg : a.byPiece.get p with
  | none => simp
  | some peers =>
    have hremove := HashSet.contains_remove peers x y
    by_cases hlen : (HashMap.remove peers x).len = 0
    · rw [HashMap.contains_eq_false_of_len_eq_zero hlen] at hremove
      have hnot : ¬ (y ≠ x ∧ HashMap.contains peers y = true) := by
        simpa using hremove.symm
      simpa [dropPeer, hlen, and_comm] using hnot
    · simp [dropPeer, hlen, hremove, and_comm]

theorem mem_peersFor (a : PieceAvailability) (p : Nat) (x : SocketAddr) :
    x ∈ a.peersFor p ↔ a.has p x = true := by
  unfold peersFor has
  rw [HashMap.mem_keys_iff]
  cases hg : a.byPiece.get p <;> simp [HashMap.getD, hg]

end PieceAvailability

inductive RejectReason where
  | unknownPeer
  | protocolViolation
  deriving DecidableEq, Repr

structure PeerRegistry where
  peers : HashMap SocketAddr PeerState
  byId : HashMap PeerId (SocketAddr × ConnectionDirection)
  availability : PieceAvailability
  seeders : HashSet SocketAddr
  leechers : HashSet SocketAddr
  deriving DecidableEq

namespace PeerRegistry

def new (totalPieces : Nat) : PeerRegistry where
  peers := .empty
  byId := .empty
  availability := .new totalPieces
  seeders := .empty
  leechers := .empty

def connected (r : PeerRegistry) (addr : SocketAddr) (id : PeerId)
    (direction : ConnectionDirection) (extensions : PeerExtensions) : PeerRegistry :=
  { r with
    peers := r.peers.insert addr (PeerState.new id extensions)
    byId := r.byId.insert id (addr, direction) }

def disconnected (r : PeerRegistry) (addr : SocketAddr) : PeerRegistry :=
  let r' := { r with
    seeders := r.seeders.remove addr
    leechers := r.leechers.remove addr
    availability := r.availability.removePeer addr
    peers := r.peers.remove addr }
  match r.peers.get addr with
  | none => r'
  | some peer =>
    match r.byId.get peer.id with
    | some (activeAddr, _) =>
      if activeAddr = addr then { r' with byId := r.byId.remove peer.id } else r'
    | none => r'

def containsAddr (r : PeerRegistry) (addr : SocketAddr) : Bool := r.peers.contains addr

def connectionFor (r : PeerRegistry) (id : PeerId) : Option (SocketAddr × ConnectionDirection) :=
  r.byId.get id

def declareInterest (r : PeerRegistry) (addr : SocketAddr) : Option Message :=
  if r.peers.contains addr then some .interested else none

def peerExtensionId (r : PeerRegistry) (addr : SocketAddr) (name : String) : Option UInt8 := do
  let peer ← r.peers.get addr
  let hs ← peer.extensions
  hs.extensions.get name

def recordMessage (a : PieceAvailability) (addr : SocketAddr) : Message → PieceAvailability
  | .bitfield bits =>
    let a := a.removePeer addr
    match Bitfield.tryFrom bits with
    | .ok bf => bf.iter.foldl (fun a piece => a.record piece addr) a
    | .error _ => a
  | .havePiece piece => a.record piece addr
  | .haveAll => a.recordAll addr
  | .haveNone => a.removePeer addr
  | _ => a

def classify (r : PeerRegistry) (addr : SocketAddr) : PeerRegistry :=
  if r.availability.isSeeder addr then
    { r with seeders := r.seeders.add addr, leechers := r.leechers.remove addr }
  else
    { r with leechers := r.leechers.add addr, seeders := r.seeders.remove addr }

def apply (r : PeerRegistry) (addr : SocketAddr) (msg : Message) :
    Except RejectReason PeerRegistry :=
  match r.peers.get addr with
  | none => .error .unknownPeer
  | some peer =>
    if msg.needsFast && !peer.fast then .error .protocolViolation
    else
      .ok <| classify { r with
        peers := r.peers.insert addr (peer.apply msg)
        availability := recordMessage r.availability addr msg } addr

def peersWith (r : PeerRegistry) (piece : Nat) : List SocketAddr := r.availability.peersFor piece

def rarity (r : PeerRegistry) (piece : Nat) : Nat := r.availability.rarity piece

def canServe (r : PeerRegistry) (addr : SocketAddr) (piece : Nat) : Bool :=
  match r.peers.get addr with
  | some peer => peer.canServe piece
  | none => false

def isSuggested (r : PeerRegistry) (piece : Nat) : Bool :=
  r.peers.values.any fun p => p.suggested.contains piece

def unchoked (r : PeerRegistry) : List SocketAddr :=
  (r.peers.entries.filter fun e => !e.2.peerChoking).map Prod.fst

def peerStats (r : PeerRegistry) : List (SocketAddr × Nat × Nat) :=
  r.peers.entries.map fun e => (e.1, e.2.bytesUploaded, e.2.bytesDownloaded)

@[simp] theorem classify_peers (r : PeerRegistry) (addr : SocketAddr) :
    (r.classify addr).peers = r.peers := by
  unfold classify; split <;> rfl

@[simp] theorem classify_byId (r : PeerRegistry) (addr : SocketAddr) :
    (r.classify addr).byId = r.byId := by
  unfold classify; split <;> rfl

@[simp] theorem classify_availability (r : PeerRegistry) (addr : SocketAddr) :
    (r.classify addr).availability = r.availability := by
  unfold classify; split <;> rfl

theorem disconnected_peers (r : PeerRegistry) (addr : SocketAddr) :
    (r.disconnected addr).peers = r.peers.remove addr := by
  unfold disconnected
  split
  · rfl
  · split
    · split <;> rfl
    · rfl

theorem disconnected_byId (r : PeerRegistry) (addr : SocketAddr) (id : PeerId)
    (c : SocketAddr × ConnectionDirection) :
    (r.disconnected addr).byId.get id = some c ↔ r.byId.get id = some c ∧
      ¬ (c.1 = addr ∧ ∃ p, r.peers.get addr = some p ∧ p.id = id) := by
  unfold disconnected
  cases hp : r.peers.get addr with
  | none => simp
  | some peer =>
    simp only [Option.some.injEq, exists_eq_left']
    cases hb : r.byId.get peer.id with
    | none =>
      by_cases hid : peer.id = id
      · subst hid; simp [hb]
      · simp [hid]
    | some active =>
      by_cases ha : active.1 = addr
      · simp only [ha, if_true, HashMap.get_remove]
        by_cases hid : peer.id = id
        · subst hid
          simp only [if_true, hb, Option.some.injEq, and_true]
          constructor
          · intro h; contradiction
          · rintro ⟨rfl, hne⟩; exact absurd ha hne
        · simp [hid, Ne.symm hid]
      · simp only [ha, if_false]
        by_cases hid : peer.id = id
        · subst hid
          simp only [hb, Option.some.injEq, and_true]
          exact ⟨fun h => ⟨h, h ▸ ha⟩, fun h => h.1⟩
        · simp [hid]

theorem disconnected_rest (r : PeerRegistry) (addr : SocketAddr) :
    (r.disconnected addr).seeders = r.seeders.remove addr ∧
    (r.disconnected addr).leechers = r.leechers.remove addr ∧
    (r.disconnected addr).availability = r.availability.removePeer addr := by
  unfold disconnected
  split
  · exact ⟨rfl, rfl, rfl⟩
  · split
    · split <;> exact ⟨rfl, rfl, rfl⟩
    · exact ⟨rfl, rfl, rfl⟩

theorem apply_ok {r r' : PeerRegistry} {addr : SocketAddr} {msg : Message}
    (h : r.apply addr msg = .ok r') :
    ∃ p, r.peers.get addr = some p ∧ (msg.needsFast = true → p.fast = true) ∧
      r'.peers = r.peers.insert addr (p.apply msg) ∧ r'.byId = r.byId ∧
      r'.availability = recordMessage r.availability addr msg := by
  unfold apply at h
  cases hp : r.peers.get addr with
  | none => rw [hp] at h; contradiction
  | some p =>
    rw [hp] at h
    simp only at h
    split_ifs at h with hf
    simp only [Except.ok.injEq] at h
    subst h
    refine ⟨p, rfl, ?_, by simp, by simp, by simp⟩
    intro hn
    simpa [hn] using hf

theorem apply_contains {r r' : PeerRegistry} {addr : SocketAddr} {msg : Message}
    (h : r.apply addr msg = .ok r') (x : SocketAddr) :
    r'.peers.contains x = r.peers.contains x := by
  obtain ⟨p, hp, -, hpeers, -, -⟩ := apply_ok h
  unfold HashMap.contains
  rw [hpeers, HashMap.get_insert]
  by_cases hx : x = addr
  · subst hx; simp [hp]
  · simp [hx]

end PeerRegistry

end Tortue
