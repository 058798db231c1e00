import Tortue.Adapters.TrackerIo
import Tortue.Collections.BigEndian
import Tortue.Collections.Layout
import Tortue.Domain.Wire

namespace Tortue

open Collections

namespace TrackerIo

inductive Error where
  | bencode (e : Bencode.Error)
  | message (e : Message.Error)
  | trackerFailure (reason : String)
  | invalidResponse (reason : String)
  | io (reason : String)

end TrackerIo

def AnnounceEvent.asUdpCode : AnnounceEvent → Nat
  | .completed => 1
  | .started => 2
  | .stopped => 3

namespace UdpTransport

open TrackerIo (Error)

def protocolId : Nat := 0x41727101980

def actionConnect : Nat := 0

def actionAnnounce : Nat := 1

-- `(n as u64).to_be_bytes()`
def u64Bytes (n : Nat) : Bytes := BigEndian.encode 8 n

def readU64 (bytes : Bytes) (offset : Nat) : UInt64 :=
  (BigEndian.decode (window bytes offset 8)).toUInt64

def buildConnectRequest (txId : UInt32) : Bytes :=
  u64Bytes protocolId ++ u32Bytes actionConnect ++ u32Bytes txId.toNat

-- The checks that both responses begin with.
def parseHeader (exchange : String) (size action : Nat) (bytes : Bytes) (expectedTxId : UInt32) :
    Except Error Unit :=
  if bytes.length < size then
    .error (.invalidResponse ("udp " ++ exchange ++ " response too short"))
  else if readU32 bytes 0 ≠ action then
    .error (.invalidResponse
      ("unexpected udp " ++ exchange ++ " action: " ++ toString (readU32 bytes 0)))
  else if readU32 bytes 4 ≠ expectedTxId.toNat then
    .error (.invalidResponse ("udp " ++ exchange ++ " transaction id mismatch"))
  else .ok ()

def parseConnectResponse (bytes : Bytes) (expectedTxId : UInt32) : Except Error UInt64 := do
  parseHeader "connect" 16 actionConnect bytes expectedTxId
  return readU64 bytes 8

-- The fields of an announce request, in the order of their offsets.
def announceFields (connectionId : UInt64) (txId key : UInt32) (req : AnnounceRequest) :
    List Bytes :=
  [u64Bytes connectionId.toNat, u32Bytes actionAnnounce, u32Bytes txId.toNat, req.infoHash.val,
    req.peerId.bytes.val, u64Bytes req.stats.downloaded, u64Bytes req.stats.left,
    u64Bytes req.stats.uploaded, u32Bytes req.event.asUdpCode, u32Bytes 0, u32Bytes key.toNat,
    u32Bytes (2 ^ 32 - 1), u16ToBe req.port]

def buildAnnounceRequest (connectionId : UInt64) (txId key : UInt32) (req : AnnounceRequest) :
    Bytes :=
  (announceFields connectionId txId key req).flatten

def parseAnnounceResponse (bytes : Bytes) (expectedTxId : UInt32) :
    Except Error TrackerResponse := do
  parseHeader "announce" 20 actionAnnounce bytes expectedTxId
  let interval := (readU32 bytes 8).toUInt32
  match parseSocketAddrs (bytes.drop 20) with
  | .ok peers => return ⟨interval, peers⟩
  | .error e => throw (.message e)

inductive Phase where
  | connecting (txId : UInt32)
  | announcing (txId : UInt32)
  | finished (result : Except Error TrackerResponse)

structure Exchange where
  phase : Phase
  sent : List Bytes

-- `[0u8; 4096]`
def bufSize : Nat := 4096

def start (connectTx : UInt32) : Exchange :=
  ⟨.connecting connectTx, [buildConnectRequest connectTx]⟩

-- `recv` cuts a datagram off where the buffer ends. Both random numbers are drawn for the announce.
def receive (req : AnnounceRequest) (x : Exchange) (datagram : Bytes) (announceTx key : UInt32) :
    Exchange :=
  match x.phase with
  | .connecting txId =>
    match parseConnectResponse (datagram.take bufSize) txId with
    | .ok connectionId =>
      ⟨.announcing announceTx, x.sent ++ [buildAnnounceRequest connectionId announceTx key req]⟩
    | .error e => { x with phase := .finished (.error e) }
  | .announcing txId =>
    { x with phase := .finished (parseAnnounceResponse (datagram.take bufSize) txId) }
  | .finished _ => x

-- `send` or `recv` fails.
def fail (x : Exchange) (reason : String) : Exchange :=
  match x.phase with
  | .finished _ => x
  | _ => { x with phase := .finished (.error (.io reason)) }

end UdpTransport

end Tortue
