import Tortue.Adapters.PeerIo
import Tortue.Collections.History
import Tortue.Domain.Magnet
import Tortue.Domain.Metadata

namespace Tortue

open Collections

namespace MetadataIo

inductive Error where
  | trackerDisconnected
  deriving DecidableEq, Repr

-- What either channel hands to the loop: `none` is a closed channel.
inductive Received where
  | peers (addrs : Option (List SocketAddr))
  | event (event : Option (SocketAddr × PeerEvent))

def raw : Metadata.Output → Option Bytes
  | .done bytes => some bytes
  | _ => none

def eventInput (addr : SocketAddr) : PeerEvent → Option Metadata.Input
  | .connected _ _ _ => none
  | .disconnected => some (.peerDisconnected addr)
  | .messageReceived message => some (.messageReceived addr message)

def runLoop (sha1 : Sha1) (s : Metadata) :
    List (Received × IterOrder) → Option (Except Error Bytes)
  | [] => none
  | (.peers none, _) :: _ => some (.error .trackerDisconnected)
  | (.event none, _) :: _ => some (.ok [])
  | (.peers (some addrs), order) :: rest =>
    let (t, outputs) := Metadata.step sha1 s (.peersDiscovered addrs, order)
    match outputs.findSome? raw with
    | some bytes => some (.ok bytes)
    | none => runLoop sha1 t rest
  | (.event (some (addr, event)), order) :: rest =>
    match eventInput addr event with
    | none => runLoop sha1 s rest
    | some input =>
      let (t, outputs) := Metadata.step sha1 s (input, order)
      match outputs.findSome? raw with
      | some bytes => some (.ok bytes)
      | none => runLoop sha1 t rest

-- `parse` is the standard library's parser of socket addresses.
def run (sha1 : Sha1) (parse : String → Option SocketAddr) (magnet : MagnetLink)
    (received : List (Received × IterOrder)) : Option (Except Error Bytes) :=
  let s := Metadata.new magnet.infoHash
  let initialPeers := magnet.peers.filterMap parse
  if initialPeers = [] then runLoop sha1 s received
  else runLoop sha1 s ((.peers (some initialPeers), .insertion) :: received)

def delivered (i : Metadata.Input × IterOrder) : Received × IterOrder :=
  match i.1 with
  | .peersDiscovered addrs => (.peers (some addrs), i.2)
  | .peerDisconnected addr => (.event (some (addr, .disconnected)), i.2)
  | .messageReceived addr message => (.event (some (addr, .messageReceived message)), i.2)

theorem discovery_silent (addrs : List SocketAddr) :
    (addrs.map Metadata.Output.connectPeer).findSome? raw = none := by
  rw [List.findSome?_eq_none_iff]
  intro o ho
  obtain ⟨_, -, rfl⟩ := List.mem_map.mp ho
  rfl

theorem run_eq_runLoop (sha1 : Sha1) (parse : String → Option SocketAddr) (magnet : MagnetLink)
    (received : List (Received × IterOrder)) :
    run sha1 parse magnet received = runLoop sha1 (Metadata.new magnet.infoHash) received := by
  rw [run]
  split_ifs
  · rfl
  · simp only [runLoop, Metadata.step, discovery_silent]

theorem runLoop_delivered (sha1 : Sha1) (s : Metadata) (is : List (Metadata.Input × IterOrder)) :
    runLoop sha1 s (is.map delivered) =
      ((History.run (Metadata.step sha1) s is).2.findSome? raw).map .ok := by
  induction is generalizing s with
  | nil => rfl
  | cons i is ih =>
    obtain ⟨input, order⟩ := i
    rw [List.map_cons, History.run, List.findSome?_append]
    cases hraw : (Metadata.step sha1 s (input, order)).2.findSome? raw with
    | none =>
      have hnext : runLoop sha1 s (delivered (input, order) :: is.map delivered) =
          runLoop sha1 (Metadata.step sha1 s (input, order)).1 (is.map delivered) := by
        cases input <;> simp only [delivered, runLoop, eventInput, hraw]
      rw [hnext, ih]
      rfl
    | some bytes =>
      have hnext : runLoop sha1 s (delivered (input, order) :: is.map delivered) =
          some (.ok bytes) := by
        cases input <;> simp only [delivered, runLoop, eventInput, hraw]
      rw [hnext]
      rfl

theorem findSome_raw {outputs : List Metadata.Output} {bytes : Bytes}
    (hdone : .done bytes ∈ outputs) (honly : ∀ b, .done b ∈ outputs → b = bytes) :
    outputs.findSome? raw = some bytes := by
  cases hfound : outputs.findSome? raw with
  | none => exact absurd (List.findSome?_eq_none_iff.mp hfound _ hdone) (by simp [raw])
  | some b =>
    obtain ⟨o, ho, hraw⟩ := List.exists_of_findSome?_eq_some hfound
    cases o with
    | done b' =>
      obtain rfl : b' = b := Option.some.inj hraw
      rw [honly b' ho]
    | _ => contradiction

end MetadataIo

end Tortue
