import Tortue.Adapters.Courses
import Tortue.Domain.Swarm.Counters
import Tortue.Properties.Integrity
import Mathlib.Data.List.TFAE

namespace Tortue

open Collections PieceManager

namespace Swarm

variable {sha1 : Sha1} {clientId : PeerId} {m : Metainfo} {h : Trace} {s : Swarm}

theorem done_iff_complete (hreach : m.Reached)
    (hist : History (step sha1) (Started clientId m) h s) :
    s.snapshot.blocksDone ≤ s.snapshot.blocksTotal ∧
      (s.snapshot.blocksDone = s.snapshot.blocksTotal ↔ s.pieces.isComplete = true) := by
  have hunderway := history_underway hreach hist
  exact ⟨blocksReceived_le hunderway, blocksReceived_eq_iff hunderway⟩

end Swarm

namespace SwarmIo

variable {sha1 : Sha1} {clientId : PeerId} {m : Metainfo} {io : SwarmIo}

theorem left_eq_zero_iff {snapshot : Swarm.SwarmSnapshot}
    (h : snapshot.bytesAvailable ≤ snapshot.bytesTotal) :
    (sessionStats snapshot).left = 0 ↔ snapshot.bytesAvailable = snapshot.bytesTotal := by
  simp only [sessionStats]
  omega

theorem completion_signals_agree {torrent : Bytes}
    {trace : List (Event SwarmIo (Move × Entropy) Effect)}
    (hm : Metainfo.tryFrom sha1 torrent = .ok m)
    (hist : History (step sha1) (Started sha1 clientId m) trace io) :
    io.swarm.snapshot.bytesAvailable ≤ io.swarm.snapshot.bytesTotal ∧
    io.swarm.snapshot.blocksDone ≤ io.swarm.snapshot.blocksTotal ∧
    List.TFAE [
      ∀ i < m.pieces.length, io.swarm.pieces.CompleteAt i,
      io.swarm.pieces.isComplete = true,
      io.swarm.snapshot.bytesAvailable = io.swarm.snapshot.bytesTotal,
      io.swarm.snapshot.blocksDone = io.swarm.snapshot.blocksTotal,
      (sessionStats io.swarm.snapshot).left = 0,
      ∀ i < m.pieces.length, Bitfield.bitSet io.swarm.pieces.bitfieldBytes i = true,
      io.swarm.pieces.neededPieces = []] := by
  have hreach := history_reached hist
  have hn := Metainfo.pieces_pos (Metainfo.tryFrom_validates hm)
  obtain ⟨restored, -, hswarm⟩ := history_projects hist
  have hmarked := Swarm.history_marked hswarm
  obtain ⟨hbytes, havailable⟩ := Swarm.available_iff_complete hreach hn hswarm
  obtain ⟨hblocks, hdone⟩ := Swarm.done_iff_complete hreach hswarm
  have hall := isComplete_iff io.swarm.pieces
  rw [hmarked.count] at hall
  refine ⟨hbytes, hblocks, ?_⟩
  tfae_have 1 ↔ 2 := hall.symm
  tfae_have 3 ↔ 2 := havailable
  tfae_have 4 ↔ 2 := hdone
  tfae_have 5 ↔ 3 := left_eq_zero_iff hbytes
  tfae_have 6 ↔ 1 := forall₂_congr fun i _ => hmarked.marks i
  tfae_have 7 ↔ 2 := neededPieces_nil_iff io.swarm.pieces
  tfae_finish

theorem signals_after_last_piece : ∃ io trace,
    History (step Sample.contentSha1) (Started Sample.contentSha1 (Sample.peerId 1) Sample.torrent)
      trace io ∧
    io.swarm.snapshot.bytesAvailable = io.swarm.snapshot.bytesTotal ∧
    io.swarm.snapshot.blocksDone = io.swarm.snapshot.blocksTotal ∧
    (sessionStats io.swarm.snapshot).left = 0 := by
  have hrun : (Sample.opened.any fun io => (History.run (step Sample.contentSha1) io
      (Sample.drawn Sample.sharing)).1.swarm.pieces.isComplete) = true := by decide +kernel
  obtain ⟨io, hcomplete, hist⟩ := Sample.opened_history hrun
  obtain ⟨-, -, hall⟩ := completion_signals_agree Sample.torrent_accepted (hist Sample.sharing)
  exact ⟨_, _, hist Sample.sharing, (hall.out 1 2).mp hcomplete, (hall.out 1 3).mp hcomplete,
    (hall.out 1 4).mp hcomplete⟩

end SwarmIo

end Tortue
