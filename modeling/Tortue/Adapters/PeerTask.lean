import Tortue.Adapters.PeerListener

namespace Tortue

open Collections

inductive SessionExit where
  | stop
  | reconnect
  deriving DecidableEq, Repr

inductive PeerTaskError where
  | cancelled
  | maxAttemptsExceeded
  deriving DecidableEq, Repr

structure PeerConfig where
  clientId : PeerId
  infoHash : InfoHash
  metadataSize : Option Nat

namespace TcpPeerIo

-- Durations are in nanoseconds.
def seconds (n : Nat) : Nat := n * 1000000000

def reconnectDelay : Nat := seconds 4

def maxReconnectDelay : Nat := seconds 90

def maxAttempts : Nat := 5

def nextDelay (delay : Nat) : Nat := min (max (delay * 2) reconnectDelay) maxReconnectDelay

-- `delay.mul_f64(jitter)` for a jitter drawn from `0.8..=1.2`.
def sleepFor (delay draw : Nat) : Nat :=
  let shortest := (delay * 8 + 9) / 10
  let longest := delay * 12 / 10
  shortest + draw % (longest + 1 - shortest)

def Jittered (delay slept : Nat) : Prop := 8 * delay ≤ 10 * slept ∧ 10 * slept ≤ 12 * delay

theorem exists_sleepFor_eq_iff {delay slept : Nat} :
    (∃ draw, sleepFor delay draw = slept) ↔ Jittered delay slept := by
  have hlow : (delay * 8 + 9) / 10 ≤ delay := by omega
  have hhigh : delay ≤ delay * 12 / 10 := by omega
  simp only [sleepFor, Jittered]
  constructor
  · rintro ⟨draw, rfl⟩
    have hlt := Nat.mod_lt draw
      (show 0 < delay * 12 / 10 + 1 - (delay * 8 + 9) / 10 by omega)
    omega
  · rintro ⟨hshort, hlong⟩
    refine ⟨slept - (delay * 8 + 9) / 10, ?_⟩
    rw [Nat.mod_eq_of_lt (by omega)]
    omega

end TcpPeerIo

-- Where the task is suspended. The reader stands for the bytes still to come on the stream, and
-- `writing` for what is left of the message that is being written.
inductive PeerStage where
  | accepted (inbound : InboundPeer)
  | retrying (delay attempts : Nat)
  | sleeping (sleepFor delay attempts : Nat)
  | connecting (slept delay attempts : Nat)
  | opening (handshake : Handshake) (reader : Bytes)
  | greeting (handshake : Handshake) (reader writing : Bytes)
  | talking (reader writing : Bytes)
  | ended (result : Except PeerTaskError Unit)

-- The task that `connect` or `accept` spawns, and the messages in its channel.
structure PeerTask where
  addr : SocketAddr
  config : PeerConfig
  direction : ConnectionDirection
  commands : List Message
  stage : PeerStage

structure PeerSignals where
  cancelled : Bool
  closed : Bool

inductive PeerMove where
  | check (draw : Nat)
  | notice
  | wake
  | dial (reader : Option Bytes)
  | enter (o : IterOrder)
  | flow (n : Nat)
  | breaks
  | announce
  | read (timely : Bool)
  | receive (o : IterOrder)
  | keepAlive (o : IterOrder)

inductive PeerAct where
  | dial (slept : Nat) (connected : Bool)
  | start (handshake : Handshake) (reader : Bytes)
  | take (message : Message)
  | send (x : Message.Sending)
  | wrote (bytes : Bytes)
  | event (e : PeerEvent)

namespace PeerTask

def connect (config : PeerConfig) (addr : SocketAddr) : PeerTask :=
  ⟨addr, config, .outbound, [], .retrying 0 0⟩

def accept (config : PeerConfig) (addr : SocketAddr) (inbound : InboundPeer) : PeerTask :=
  ⟨addr, config, .inbound, [], .accepted inbound⟩

def finish (t : PeerTask) (result : Except PeerTaskError Unit) : PeerTask × List PeerAct :=
  ({ t with stage := .ended result }, [.event .disconnected])

def leave (t : PeerTask) : SessionExit → PeerTask × List PeerAct
  | .stop => t.finish (.ok ())
  | .reconnect =>
    match t.direction with
    | .outbound => ({ t with stage := .retrying TcpPeerIo.reconnectDelay 0 }, [])
    | .inbound => t.finish (.ok ())

-- The head of the loop in `connect_with_retry`.
def retry (t : PeerTask) (s : PeerSignals) (delay attempts draw : Nat) :
    PeerTask × List PeerAct :=
  if s.cancelled then t.finish (.error .cancelled)
  else if attempts ≥ TcpPeerIo.maxAttempts then t.finish (.error .maxAttemptsExceeded)
  else ({ t with stage := .sleeping (TcpPeerIo.sleepFor delay draw) delay (attempts + 1) }, [])

def screen (t : PeerTask) (inbound : InboundPeer) : PeerTask × List PeerAct :=
  if TcpPeerConnector.admits t.config.infoHash inbound then
    ({ t with stage := .opening inbound.handshake inbound.stream }, [])
  else t.finish (.ok ())

def dial (t : PeerTask) (slept delay attempts : Nat) (reader : Option Bytes) :
    PeerTask × List PeerAct :=
  match reader.map (TcpPeerIo.connect t.config.infoHash t.config.clientId) with
  | some (.ok (handshake, rest)) =>
    ({ t with stage := .opening handshake rest }, [.dial slept true])
  | _ => ({ t with stage := .retrying (TcpPeerIo.nextDelay delay) attempts }, [.dial slept false])

-- `run_session` up to the first byte that it writes.
def enter (t : PeerTask) (s : PeerSignals) (handshake : Handshake) (reader : Bytes)
    (o : IterOrder) : PeerTask × List PeerAct :=
  if s.cancelled then t.leave .stop
  else if handshake.extensionProtocol then
    let message := Message.extensionHandshake (sessionHandshake t.config.metadataSize)
    ({ t with stage := .greeting handshake reader (message.frame o) },
      [.start handshake reader, .send (o, message)])
  else ({ t with stage := .greeting handshake reader [] }, [.start handshake reader])

-- One turn of the loop in `read_peer_messages`; it is not timely when the peer has been idle.
def read (t : PeerTask) (reader writing : Bytes) (timely : Bool) : PeerTask × List PeerAct :=
  match timely, Message.readFrom reader with
  | true, .ok (message, rest) =>
    ({ t with stage := .talking rest writing }, [.event (.messageReceived message)])
  | _, _ => t.leave .reconnect

def write (t : PeerTask) (reader : Bytes) (x : Message.Sending) : PeerTask × List PeerAct :=
  ({ t with stage := .talking reader (x.2.frame x.1) }, [.send x])

-- The branches of the loop in `write_peer_messages`.
def receive (t : PeerTask) (s : PeerSignals) (reader : Bytes) (o : IterOrder) :
    PeerTask × List PeerAct :=
  match t.commands with
  | message :: commands =>
    let (t, acts) := { t with commands }.write reader (o, message)
    (t, .take message :: acts)
  | [] => if s.closed then t.leave .stop else (t, [])

def notice (t : PeerTask) : PeerTask × List PeerAct :=
  match t.stage with
  | .retrying _ _ | .sleeping _ _ _ | .connecting _ _ _ => t.finish (.error .cancelled)
  | .greeting _ _ _ | .talking _ _ => t.leave .stop
  | _ => (t, [])

def step (t : PeerTask) (s : PeerSignals) : PeerMove → PeerTask × List PeerAct
  | .check draw =>
    match t.stage with
    | .accepted inbound => t.screen inbound
    | .retrying delay attempts => t.retry s delay attempts draw
    | _ => (t, [])
  | .notice => if s.cancelled then t.notice else (t, [])
  | .wake =>
    match t.stage with
    | .sleeping sleepFor delay attempts =>
      ({ t with stage := .connecting sleepFor delay attempts }, [])
    | _ => (t, [])
  | .dial reader =>
    match t.stage with
    | .connecting slept delay attempts => t.dial slept delay attempts reader
    | _ => (t, [])
  | .enter o =>
    match t.stage with
    | .opening handshake reader => t.enter s handshake reader o
    | _ => (t, [])
  | .flow n =>
    match t.stage with
    | .greeting handshake reader writing =>
      ({ t with stage := .greeting handshake reader (writing.drop n) }, [.wrote (writing.take n)])
    | .talking reader writing =>
      ({ t with stage := .talking reader (writing.drop n) }, [.wrote (writing.take n)])
    | _ => (t, [])
  | .breaks =>
    match t.stage with
    | .greeting _ _ (_ :: _) | .talking _ (_ :: _) => t.leave .reconnect
    | _ => (t, [])
  | .announce =>
    match t.stage with
    | .greeting handshake reader [] =>
      ({ t with stage := .talking reader [] }, [.event (connectedEvent handshake t.direction)])
    | _ => (t, [])
  | .read timely =>
    match t.stage with
    | .talking reader writing => t.read reader writing timely
    | _ => (t, [])
  | .receive o =>
    match t.stage with
    | .talking reader [] => t.receive s reader o
    | _ => (t, [])
  | .keepAlive o =>
    match t.stage with
    | .talking reader [] => t.write reader (o, .keepAlive)
    | _ => (t, [])

end PeerTask

end Tortue
