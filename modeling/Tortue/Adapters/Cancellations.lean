import Tortue.Adapters.Redials

namespace Tortue

open Collections

namespace PeerStage

def chances : PeerStage → Nat
  | .sleeping _ _ _ | .connecting _ _ _ => 1
  | _ => 0

end PeerStage

structure Winding (before after : PeerStage) (newer : List PeerAct) : Prop where
  dials : newer.countP PeerAct.dials + after.chances ≤ before.chances
  starts : newer.countP PeerAct.starts = 0

theorem Winding.append {first middle last : PeerStage} {newer newest : List PeerAct}
    (h : Winding first middle newer) (h' : Winding middle last newest) :
    Winding first last (newer ++ newest) where
  dials := by
    have hdials := h.dials
    have hdials' := h'.dials
    rw [List.countP_append]
    omega
  starts := by rw [List.countP_append, h.starts, h'.starts]

theorem PeerTask.Took.winding {t : PeerTask} {s : PeerSignals} {r : PeerTask × List PeerAct}
    (hr : t.Took s r) (h : s.cancelled = true) : Winding t.stage r.1.stage r.2 := by
  cases hr with
  | rest => exact ⟨Nat.le_of_eq (Nat.zero_add _), rfl⟩
  | sleep slept delay attempts hstage hlive => rw [h] at hlive; contradiction
  | enter handshake reader o hstage hlive => rw [h] at hlive; contradiction
  | giveUp delay attempts hstage hlive => rw [h] at hlive; contradiction
  | wake slept delay attempts hstage => exact ⟨by rw [hstage]; exact Nat.le_refl 1, rfl⟩
  | connected slept delay attempts reader handshake rest hstage =>
    exact ⟨by rw [hstage]; exact Nat.le_refl 1, rfl⟩
  | failed slept delay attempts hstage => exact ⟨by rw [hstage]; exact Nat.le_refl 1, rfl⟩
  | _ => exact ⟨Nat.zero_le _, rfl⟩

namespace Peering

variable {sha1 : Sha1} {clientId : PeerId} {metainfo : Metainfo} {p : Peering} {number : Nat}
  {i : Move × Entropy} {t : PeerTask} {log : Log}

def Cancelled (p : Peering) (number : Nat) (t : PeerTask) : Prop :=
  p.tasks[number]? = some t ∧ p.io.peerConnector.peerCancels.get t.addr ≠ some number

theorem stays_cancelled {l : Links} {x : SocketAddr} (action : Links.Action)
    (h : l.peerConnector.peerCancels.get x ≠ some number)
    (hlt : number < l.peerConnector.sessions.length) :
    (l.apply action).peerConnector.peerCancels.get x ≠ some number := by
  cases action with
  | keep => exact h
  | spawn y direction =>
    show (l.peerConnector.peerCancels.insert y l.peerConnector.sessions.length).get x ≠ _
    rw [HashMap.get_insert]
    split_ifs
    · intro heq
      rw [Option.some.injEq] at heq
      omega
    · exact h
  | disconnect y =>
    show (l.peerConnector.disconnect y).peerCancels.get x ≠ _
    unfold TcpPeerConnector.disconnect
    split
    · exact h
    · rw [HashMap.get_remove]
      split_ifs
      · simp
      · exact h
  | run k m =>
    show (l.run k m).peerConnector.peerCancels.get x ≠ _
    rw [Links.peerCancels_run]
    exact h
  | receive =>
    have hconnector : l.receive.peerConnector = l.peerConnector := by
      unfold Links.receive
      split <;> rfl
    show l.receive.peerConnector.peerCancels.get x ≠ _
    rw [hconnector]
    exact h

theorem cancelled_step (sha1 : Sha1) (htracks : p.Tracks) (h : p.Cancelled number t)
    (i : Move × Entropy) :
    ∃ t', (p.step sha1 i).1.Cancelled number t' ∧
      Winding t.stage t'.stage ((p.step sha1 i).2.filterMap (Output.act? number)) := by
  have hlt : number < p.tasks.length := (List.getElem?_eq_some_iff.mp h.1).1
  have hstep := stepped sha1 p i
  generalize p.step sha1 i = r at hstep
  cases hstep with
  | rest => exact ⟨t, h, Nat.le_of_eq (Nat.zero_add _), rfl⟩
  | loop loop hmove =>
    have hconnector : (p.io.step sha1 (loop, i.2)).1.peerConnector =
        (p.io.links.apply (p.io.action loop)).peerConnector :=
      congrArg Links.peerConnector (SwarmIo.step_links sha1 p.io (loop, i.2))
    let sent := (p.io.step sha1 (loop, i.2)).2.filterMap (SwarmIo.Effect.messageOn number)
    refine ⟨{ t with commands := t.commands ++ sent }, ⟨?_, ?_⟩, ?_⟩
    · simp only [runLoop, get_deliver, List.getElem?_append_left hlt, h.1, Option.map_some, sent]
    · rw [htracks.length] at hlt
      simp only [runLoop, hconnector]
      exact stays_cancelled _ h.2 hlt
    · rw [runLoop, (effects_loop number _).2]
      exact ⟨Nat.le_of_eq (Nat.zero_add _), rfl⟩
  | task k u r hu hr =>
    by_cases hk : k = number
    · subst hk
      rw [h.1, Option.some.injEq] at hu
      subst hu
      refine ⟨r.1, ⟨List.getElem?_set_self hlt, ?_⟩, ?_⟩
      · rw [hr.frame.1]
        exact h.2
      · rw [(effects_task k k r.2).2, if_pos rfl]
        exact hr.winding (decide_eq_true h.2)
    · refine ⟨t, ⟨(List.getElem?_set_ne hk).trans h.1, h.2⟩, ?_⟩
      rw [(effects_task number k r.2).2, if_neg hk]
      exact ⟨Nat.le_of_eq (Nat.zero_add _), rfl⟩

theorem cancelled_run (sha1 : Sha1) (htracks : p.Tracks) (h : p.Cancelled number t)
    (is : List (Move × Entropy)) :
    ∃ t', (History.run (step sha1) p is).1.Cancelled number t' ∧
      Winding t.stage t'.stage
        ((History.run (step sha1) p is).2.filterMap (Output.act? number)) := by
  induction is generalizing p t with
  | nil => exact ⟨t, h, Nat.le_of_eq (Nat.zero_add _), rfl⟩
  | cons i is ih =>
    obtain ⟨t', hcancelled, hfirst⟩ := cancelled_step sha1 htracks h i
    obtain ⟨t'', hlast, hlater⟩ := ih (htracks.step sha1 i) hcancelled
    refine ⟨t'', hlast, ?_⟩
    rw [History.run, List.filterMap_append]
    exact hfirst.append hlater

end Peering

end Tortue
