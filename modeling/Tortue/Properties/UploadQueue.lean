import Tortue.Domain.Swarm.UploadQueue
import Tortue.Properties.Advertised

namespace Tortue

open Collections PieceManager

namespace Swarm

variable {sha1 : Sha1} {s : Swarm}

section

variable {clientId : PeerId} {metainfo : Metainfo}

theorem upload_queue_invariant (hr : Reachable sha1 clientId metainfo s) :
    (∀ range read, s.pendingReads.get range = some read →
      0 < read.peers.len ∧ s.pieces.validUploadRange range = true ∧
      read.id.value < s.nextUploadReadId ∧
      (∀ range' read', s.pendingReads.get range' = some read' → range' ≠ range →
        read'.id ≠ read.id) ∧
      ∀ x, read.peers.contains x = true → s.peerRegistry.containsAddr x = true) ∧
    (s.pendingReads.values.map fun read => read.peers.len).sum ≤ 32 ∧
    (s.status.upload = false → s.pendingReads = .empty) := by
  have hq := reachable_uploadQueue hr
  have ha := reachable_accounted hr
  obtain ⟨h, hist⟩ := hr
  refine ⟨fun range read hread => ?_, hq.bounded, hq.quiet⟩
  refine ⟨hq.nonempty range read hread, pending_valid hist hread, hq.fresh range read hread, ?_, ?_⟩
  · intro range' read' hread' hne hid
    exact hne (hq.distinct range' range read' read hread' hread hid)
  · intro x hx
    exact ha.registered x (ha.reading range x ⟨read, hread, hx⟩)

end

end Swarm

namespace Sample

def asking : List (Input × Entropy) := lateJoin ++ [message 81 (.request ⟨0, 0, 2⟩)]

def asked : Swarm := (History.run (Swarm.step sha1) swarm asking).1

theorem asked_reachable : Swarm.Reachable sha1 (peerId 1) metainfo asked := ⟨_, history asking⟩

end Sample

namespace Swarm

theorem asked_read_queued :
    Sample.asked.pendingReads.get ⟨0, 0, 2⟩ = some ⟨⟨0⟩, HashSet.add .empty (Sample.addr 81)⟩ ∧
      Sample.asked.pieces.validUploadRange ⟨0, 0, 2⟩ = true := by
  have hread : Sample.asked.pendingReads.get ⟨0, 0, 2⟩ =
      some ⟨⟨0⟩, HashSet.add .empty (Sample.addr 81)⟩ := by decide +kernel
  exact ⟨hread, ((upload_queue_invariant Sample.asked_reachable).1 _ _ hread).2.1⟩

end Swarm

end Tortue
