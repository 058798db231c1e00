import Tortue.Adapters.SwarmIo
import Tortue.Adapters.TrackerIo

namespace Tortue

open Collections

def Swarm.SwarmSnapshot.default : Swarm.SwarmSnapshot where
  status := .active
  blocksTotal := 0
  blocksDone := 0
  blocksInFlight := 0
  bytesTotal := 0
  bytesAvailable := 0
  bytesDownloaded := 0
  bytesUploaded := 0
  seeders := []
  leechers := []
  peers := []

-- The receiver of a watch channel sees the last value only.
structure Watch (α : Type) where
  value : α
  seen : Bool

inductive Task where
  | restoring (fresh : SwarmIo)
  | looping (io : SwarmIo)
  | failed (e : SwarmIo.Error)

namespace Task

def result : Task → Option (Except SwarmIo.Error Unit)
  | .restoring _ => none
  | .looping io =>
    match io.phase with
    | .finished result => some result
    | _ => none
  | .failed e => some (.error e)

end Task

inductive Outcome where
  | completed
  | failed (e : SwarmIo.Error)
  | bailed (message : String)

-- The task of a tracker copies the stats when it wakes, and sends its announce later.
inductive Client.Turn where
  | sleeping (l : TrackerIo.Loop)
  | announcing (l : TrackerIo.Loop) (stats : SessionStats) (sent : Bool)
  | ended

structure Client where
  task : Task
  stats : SessionStats
  progress : Watch Swarm.SwarmSnapshot
  trackers : List (TrackerIo × Client.Turn)
  outcome : Option Outcome

namespace Client

inductive Move where
  | restore
  | loop (move : SwarmIo.Move)
  | wake (tracker : Nat)
  | send (tracker : Nat)
  | answer (tracker : Nat) (response : Option TrackerResponse) (delivered : Bool)
  | task
  | changed

structure Effect where
  tracker : Nat
  request : AnnounceRequest

-- `supported` tells for which addresses a tracker client can be made.
def start (supported : String → Bool) (node : Node) (m : Metainfo) (files : List OutputFile) :
    Option Client := do
  let fresh ← SwarmIo.new node.id m files
  return {
    task := .restoring fresh
    stats := ⟨.active, 0, 0, m.totalSize⟩
    progress := ⟨.default, true⟩
    trackers := (m.announce.filter supported).map fun _ =>
      (⟨m.infoHash, node⟩, .sleeping TrackerIo.start)
    outcome := none }

def publish (c : Client) : List SwarmIo.Effect → Client
  | [] => c
  | .published snapshot stats :: effects =>
    { c with stats, progress := ⟨snapshot, false⟩ }.publish effects
  | _ :: effects => c.publish effects

def restore (sha1 : Sha1) (env : Entropy) (c : Client) : Client :=
  match c.task with
  | .restoring fresh =>
    match fresh.restore sha1 env with
    | .ok io => { c with task := .looping io }.publish [io.publish]
    | .error e => { c with task := .failed e }
  | _ => c

def loop (sha1 : Sha1) (env : Entropy) (c : Client) (move : SwarmIo.Move) : Client :=
  match c.task with
  | .looping io =>
    { c with task := .looping (io.step sha1 (move, env)).1 }.publish (io.step sha1 (move, env)).2
  | _ => c

def turn (c : Client) (tracker : Nat) (t : TrackerIo) (next : Turn) : Client :=
  { c with trackers := c.trackers.set tracker (t, next) }

def wake (c : Client) (tracker : Nat) : Client :=
  match c.trackers[tracker]? with
  | some (t, .sleeping l) => c.turn tracker t (.announcing l c.stats false)
  | _ => c

def send (c : Client) (tracker : Nat) : Client × List Effect :=
  match c.trackers[tracker]? with
  | some (t, .announcing l stats false) =>
    (c.turn tracker t (.announcing l stats true),
      [⟨tracker, t.announceRequest (TrackerIo.nextEvent l.event stats) stats⟩])
  | _ => (c, [])

def answer (c : Client) (tracker : Nat) (response : Option TrackerResponse) (delivered : Bool) :
    Client :=
  match c.trackers[tracker]? with
  | some (t, .announcing l stats sent) =>
    if response.isSome && !sent then c
    else
      match TrackerIo.advance l ⟨stats, response, delivered⟩ with
      | some l => c.turn tracker t (.sleeping l)
      | none => c.turn tracker t .ended
  | _ => c

def finish (c : Client) (result : Except SwarmIo.Error Unit) (message : String) : Client :=
  match result with
  | .error e => { c with outcome := some (.failed e) }
  | .ok () => { c with outcome := some (.bailed message) }

def joinTask (c : Client) : Client :=
  match c.task.result with
  | none => c
  | some result => c.finish result "download stopped before completion"

-- The loop lets go of the channel when its task ends.
def observe (c : Client) : Client :=
  if c.progress.seen then
    match c.task.result with
    | none => c
    | some result => c.finish result "download progress closed before completion"
  else
    let c := { c with progress := { c.progress with seen := true } }
    if c.progress.value.bytesTotal > 0 ∧
        c.progress.value.bytesAvailable = c.progress.value.bytesTotal then
      { c with outcome := some .completed }
    else c

def step (sha1 : Sha1) (c : Client) (i : Move × Entropy) : Client × List Effect :=
  match i.1 with
  | .restore => (c.restore sha1 i.2, [])
  | .loop move => (c.loop sha1 i.2 move, [])
  | .wake tracker => (c.wake tracker, [])
  | .send tracker => c.send tracker
  | .answer tracker response delivered => (c.answer tracker response delivered, [])
  | .task => (if c.outcome.isNone then c.joinTask else c, [])
  | .changed => (if c.outcome.isNone then c.observe else c, [])

def Started (node : Node) (m : Metainfo) (c : Client) : Prop :=
  ∃ supported files, DiskStorage.Laid m files ∧ start supported node m files = some c

end Client

end Tortue
