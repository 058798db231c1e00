import Tortue.Domain.Swarm.Swarm

namespace Tortue

inductive AnnounceEvent where
  | started
  | completed
  | stopped
  deriving DecidableEq, Repr

structure SessionStats where
  swarmStatus : SwarmStatus
  uploaded : Nat
  downloaded : Nat
  left : Nat
  deriving DecidableEq, Repr

structure AnnounceRequest where
  infoHash : InfoHash
  peerId : PeerId
  port : UInt16
  stats : SessionStats
  event : AnnounceEvent
  compact : Bool

structure TrackerResponse where
  interval : UInt32
  peers : List SocketAddr

structure Node where
  id : PeerId
  port : UInt16

end Tortue
