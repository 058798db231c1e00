import Tortue.Adapters.Datagrams
import Tortue.Collections.Walk
import Tortue.Domain.UtPex

namespace Tortue

open Collections

namespace UdpTransport

open TrackerIo (Error)

structure Reply where
  interval : UInt32
  leechers : UInt32
  seeders : UInt32
  peers : List SocketAddr

def compactAddr : SocketAddr → Bytes
  | .v4 ip port => ip.val ++ u16ToBe port
  | .v6 ip port _ _ => ip.val ++ u16ToBe port

def Reply.peerBytes (r : Reply) : Bytes := r.peers.flatMap compactAddr

inductive Choice where
  | connect (connectionId : UInt64)
  | announce (reply : Reply)
  | refuse (text : Bytes)

def actionError : Nat := 3

namespace Choice

def Suits (request : Bytes) : Choice → Prop
  | connect _ => window request 8 4 = u32Bytes actionConnect
  | announce _ => window request 8 4 = u32Bytes actionAnnounce
  | refuse _ => True

instance (request : Bytes) (c : Choice) : Decidable (c.Suits request) := by
  cases c <;> unfold Suits <;> infer_instance

def response (request : Bytes) : Choice → Bytes
  | connect connectionId =>
    [u32Bytes actionConnect, window request 12 4, u64Bytes connectionId.toNat].flatten
  | announce r =>
    [u32Bytes actionAnnounce, window request 12 4, u32Bytes r.interval.toNat,
      u32Bytes r.leechers.toNat, u32Bytes r.seeders.toNat].flatten ++ r.peerBytes
  | refuse text => [u32Bytes actionError, window request 12 4].flatten ++ text

end Choice

structure Answer where
  request : Bytes
  choice : Choice
  suits : choice.Suits request

def Answer.response (a : Answer) : Bytes := a.choice.response a.request

structure System where
  exchange : Exchange
  answers : List Answer

inductive Happens where
  | answered (request : Bytes) (choice : Choice)
  | received (response : Bytes) (announceTx key : UInt32)
  | failed (reason : String)

namespace System

def start (connectTx : UInt32) : System := ⟨UdpTransport.start connectTx, []⟩

def step (req : AnnounceRequest) (s : System) : Happens → Option System
  | .answered request choice =>
    if h : request ∈ s.exchange.sent ∧ choice.Suits request then
      some { s with answers := s.answers ++ [⟨request, choice, h.2⟩] }
    else none
  | .received response announceTx key =>
    if response ∈ s.answers.map Answer.response then
      some { s with exchange := receive req s.exchange response announceTx key }
    else none
  | .failed reason => some { s with exchange := fail s.exchange reason }

variable {req : AnnounceRequest} {s t : System}

inductive Makes (req : AnnounceRequest) (s : System) : System → Prop
  | answered (a : Answer) (h : a.request ∈ s.exchange.sent) :
      Makes req s { s with answers := s.answers ++ [a] }
  | received (a : Answer) (h : a ∈ s.answers) (announceTx key : UInt32) :
      Makes req s { s with exchange := receive req s.exchange a.response announceTx key }
  | failed (reason : String) : Makes req s { s with exchange := fail s.exchange reason }

theorem step_makes {e : Happens} (h : step req s e = some t) : Makes req s t := by
  cases e with
  | answered request choice =>
    rw [step] at h
    split_ifs at h with hsuits
    obtain rfl := Option.some.inj h
    exact .answered ⟨request, choice, hsuits.2⟩ hsuits.1
  | received response announceTx key =>
    rw [step] at h
    split_ifs at h with hin
    obtain rfl := Option.some.inj h
    obtain ⟨a, ha, rfl⟩ := List.mem_map.mp hin
    exact .received a ha announceTx key
  | failed reason =>
    obtain rfl := Option.some.inj h
    exact .failed reason

end System

end UdpTransport

end Tortue
