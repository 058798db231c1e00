import Tortue.Domain.Swarm.Progress
import Tortue.Domain.Tracker
import Tortue.Domain.Swarm.UploadQueue
import Mathlib.Algebra.Order.BigOperators.Group.List

namespace Tortue

open Collections

namespace PieceManager

variable {sha1 : Sha1} {m : Metainfo} {pm pm' : PieceManager}

theorem availableBytes_mono (hm : Described m pm) (hm' : Described m pm')
    (hmono : ∀ i, pm.CompleteAt i → pm'.CompleteAt i) : pm.availableBytes ≤ pm'.availableBytes := by
  have hlength : pm.pieces.length = pm'.pieces.length := hm.length.trans hm'.length.symm
  rw [availableBytes_eq, availableBytes_eq]
  refine List.Forall₂.sum_le_sum ?_
  rw [List.forall₂_map_left_iff, List.forall₂_map_right_iff, List.forall₂_iff_get]
  refine ⟨hlength, fun i hi hi' => ?_⟩
  have hp := List.getElem?_eq_getElem hi
  have hp' := List.getElem?_eq_getElem hi'
  have hlen : pm.pieces[i].length = pm'.pieces[i].length := by
    have heq := (hm.piece i _ hp).1.symm.trans (hm'.piece i _ hp').1
    rwa [Option.some.injEq] at heq
  simp only [List.get_eq_getElem]
  split
  · next hcomplete =>
    obtain ⟨q, hq, hdone⟩ := hmono i ⟨_, hp, hcomplete⟩
    rw [hp', Option.some.injEq] at hq
    rw [hq] at hlen ⊢
    rw [if_pos hdone, hlen]
  · exact Nat.zero_le _

end PieceManager

namespace Swarm

open PieceManager

variable {sha1 : Sha1} {clientId : PeerId} {m : Metainfo} {h : Trace} {s : Swarm}

@[simp] theorem plan_downloadedBytes (env : Entropy) (s : Swarm) :
    (s.plan env).1.downloadedBytes = s.downloadedBytes := by
  obtain ⟨a, ha⟩ := plan_fst env s
  rw [ha]

theorem onMessagePiece_downloadedBytes (sha1 : Sha1) (env : Entropy) (s : Swarm) (x : SocketAddr)
    (range : BlockRange) (data : Bytes) :
    s.downloadedBytes ≤ (s.onMessagePiece sha1 env x range data).1.downloadedBytes := by
  unfold onMessagePiece
  split
  · exact Nat.le_refl _
  · dsimp only
    split
    · exact Nat.le_refl _
    · split
      · exact Nat.le_add_right ..
      · exact Nat.le_add_right ..

theorem handleMessage_downloadedBytes (sha1 : Sha1) (env : Entropy) (s : Swarm) (x : SocketAddr)
    (m : Message) : s.downloadedBytes ≤ (s.handleMessage sha1 env x m).1.downloadedBytes := by
  cases m with
  | piece range data => exact onMessagePiece_downloadedBytes sha1 env s x range data
  | request range =>
    obtain ⟨_, _, hs⟩ := onMessageRequest_fst s x range
    simp only [handleMessage, hs, Nat.le_refl]
  | cancel range =>
    obtain ⟨_, hs⟩ := cancelUpload_fst s x range
    simp only [handleMessage, hs, Nat.le_refl]
  | _ => exact Nat.le_refl _

theorem downloadedBytes_step (sha1 : Sha1) (s : Swarm) (i : Input × Entropy) :
    s.downloadedBytes ≤ (step sha1 s i).1.downloadedBytes := by
  obtain ⟨input, env⟩ := i
  cases input with
  | messageReceived x m =>
    rcases onMessage_cases sha1 env s x m with ⟨_, -, hs, -⟩ | ⟨r, -, -, hs⟩ | ⟨r, -, -, hs⟩
    · simp only [step, hs, Nat.le_refl]
    · simp only [step, hs]
      exact handleMessage_downloadedBytes sha1 env { s with peerRegistry := r } x m
    · simp only [step, hs, plan_downloadedBytes]
      exact handleMessage_downloadedBytes sha1 env { s with peerRegistry := r } x m
  | peerConnected id d x e =>
    rcases onConnected_cases env s x d id e with ⟨-, hs⟩ | ⟨_, -, -, hs⟩ | ⟨_, -, -, hs⟩
    · simp [step, hs, register]
    · simp [step, hs]
    · simp [step, hs, register, onDisconnected, cancelPeerUploads]
  | uploadReadCompleted id range data =>
    rcases onUploadReadCompleted_cases env s id range data with hs | ⟨_, _, hs⟩
    · simp only [step, hs, Nat.le_refl]
    · simp only [step, hs, Nat.le_refl]
  | swarmCommand cmd =>
    obtain ⟨_, _, _, -, hs⟩ := onSwarmCommand_cases env s cmd
    simp only [step, hs, Nat.le_refl]
  | tick t => cases t <;> simp [step, onTick]
  | _ => exact Nat.le_refl _

theorem uploadedBytes_le (sha1 : Sha1) (hist : History (step sha1) (Started clientId m) h s)
    (i : Input × Entropy) : s.uploadedBytes ≤ (step sha1 s i).1.uploadedBytes := by
  rw [uploadedBytes_step sha1 (reachable_accounted ⟨h, hist⟩) i]
  exact Nat.le_add_left ..

theorem availableBytes_step (hist : History (step sha1) (Started clientId m) h s)
    (i : Input × Entropy) :
    s.pieces.availableBytes ≤ (step sha1 s i).1.pieces.availableBytes := by
  have hbefore := delivered_described (deliveries_delivered hist)
  have hafter := delivered_described (deliveries_delivered (hist.next i))
  exact availableBytes_mono hbefore hafter fun j hj =>
    (complete_step sha1 j s i ⟨history_sound hist, hj⟩).2

theorem history_underway (hreach : m.Reached)
    (hist : History (step sha1) (Started clientId m) h s) : s.pieces.Underway :=
  delivered_underway hreach (deliveries_delivered hist)

theorem piece_length_pos (hreach : m.Reached) (hm : Described m s.pieces) :
    ∀ p ∈ s.pieces.pieces, 0 < p.length := by
  intro p hp
  obtain ⟨i, hi⟩ := List.mem_iff_getElem?.mp hp
  have hlt := (List.getElem?_eq_some_iff.mp hi).1
  exact hreach.length_pos (hm.length ▸ hlt) (hm.piece i p hi).1

theorem available_iff_complete (hreach : m.Reached) (hn : 0 < m.pieces.length)
    (hist : History (step sha1) (Started clientId m) h s) :
    s.snapshot.bytesAvailable ≤ s.snapshot.bytesTotal ∧
      (s.snapshot.bytesAvailable = s.snapshot.bytesTotal ↔ s.pieces.isComplete = true) := by
  have hm := delivered_described (deliveries_delivered hist)
  have hle := availableBytes_le s.pieces
  have heq := availableBytes_eq_iff (piece_length_pos hreach hm)
  rw [hreach.sum_lengths hm hn] at hle heq
  simp only [snapshot, reachable_metainfo sha1 ⟨h, hist⟩]
  exact ⟨hle, heq⟩

end Swarm

structure SessionStats.Advances (a b : SessionStats) : Prop where
  uploaded : a.uploaded ≤ b.uploaded
  downloaded : a.downloaded ≤ b.downloaded
  left : b.left ≤ a.left

theorem SessionStats.Advances.refl (a : SessionStats) : a.Advances a :=
  ⟨Nat.le_refl _, Nat.le_refl _, Nat.le_refl _⟩

theorem SessionStats.Advances.trans {a b c : SessionStats} (h : a.Advances b) (h' : b.Advances c) :
    a.Advances c :=
  ⟨h.uploaded.trans h'.uploaded, h.downloaded.trans h'.downloaded, h'.left.trans h.left⟩

end Tortue
