import Tortue.Adapters.Greetings
import Tortue.Properties.Integrity

namespace Tortue

open Collections

namespace SwarmIo

variable {sha1 : Sha1} {clientId : PeerId} {metainfo : Metainfo} {io : SwarmIo}
  {trace : List (Event SwarmIo (Move × Entropy) Effect)}

-- The input is fully handled when its outputs are passed on, and always when the loop selects.
theorem registered_peers_reachable
    (hist : History (step sha1) (Started sha1 clientId metainfo) trace io)
    (hdone : io.phase = .selecting ∨ io.outputs = []) {x : SocketAddr}
    (hx : io.swarm.peerRegistry.containsAddr x = true) : io.peerCmds.contains x = true := by
  have horderly := history_orderly hist
  have houtputs : io.outputs = [] := hdone.elim horderly.idle fun hnil => hnil
  obtain ⟨k, hget, -⟩ := met_when_done horderly houtputs hx
  exact HashMap.contains_iff.mpr ⟨k, hget⟩

def after (sha1 : Sha1) (e : Event SwarmIo (Move × Entropy) Effect) : SwarmIo :=
  (e.before.step sha1 e.input).1

def announcer (x : SocketAddr) : List (Event SwarmIo (Move × Entropy) Effect) → Option Nat
  | [] => none
  | e :: older =>
    match e.before.received e.input.1 with
    | some (k, y, .connected ..) => if y = x then some k else announcer x older
    | _ => announcer x older

def RegisteredBy (trace : List (Event SwarmIo (Move × Entropy) Effect)) (io : SwarmIo)
    (x : SocketAddr) (k : Nat) : Prop :=
  io.swarm.peerRegistry.containsAddr x = true ∧ announcer x trace = some k

def SparesNewer (sha1 : Sha1) (trace : List (Event SwarmIo (Move × Entropy) Effect)) : Prop :=
  ∀ newer e older, trace = newer ++ e :: older → ∀ k x,
    e.before.received e.input.1 = some (k, x, .disconnected) → e.before.links.Cancelled k →
    ∀ j, k < j →
      (e.before.peerCmds.get x = some j → (after sha1 e).peerCmds.get x = some j) ∧
      (RegisteredBy older e.before x j → RegisteredBy (e :: older) (after sha1 e) x j)

theorem received_eq {io : SwarmIo} {move : Move} {e : Nat × SocketAddr × PeerEvent}
    (h : io.received move = some e) :
    io.action move = .receive ∧ io.links.peerEvents.head? = some e := by
  unfold received at h
  split at h
  · next haction => exact ⟨haction, h⟩
  · contradiction

theorem received_ne {io : SwarmIo} {move : Move} {e : Nat × SocketAddr × PeerEvent}
    (haction : io.action move = .receive) (hhead : io.links.peerEvents.head? = some e) :
    io.received move ≠ none := by
  intro hquiet
  simp only [received, haction] at hquiet
  rw [show io.peerEvents.head? = some e from hhead] at hquiet
  contradiction

theorem registered_pending
    (hist : History (step sha1) (Started sha1 clientId metainfo) trace io) {x : SocketAddr}
    {j : Nat} (h : RegisteredBy trace io x j) : io.links.Pending x j := by
  induction hist with
  | start hio =>
    obtain ⟨-, hnone⟩ := h
    contradiction
  | @next trace before i hist ih =>
    have htracked := history_tracked hist
    obtain ⟨hcontains, hannounced⟩ := h
    rw [step_links]
    simp only [announcer] at hannounced
    rcases step_swarm sha1 before i with ⟨hquiet, hswarm⟩ | ⟨k, y, event, hreceived, hswarm⟩ |
      ⟨hquiet, input, hinput, hswarm⟩
    · rw [hquiet] at hannounced
      rw [hswarm] at hcontains
      refine htracked.pending_apply (ih ⟨hcontains, hannounced⟩) fun haction hhead => ?_
      exact received_ne haction hhead hquiet
    · obtain ⟨haction, hhead⟩ := received_eq hreceived
      have hsender : before.links.Pending y k := htracked.events _ (List.mem_of_mem_head? hhead)
      rw [hreceived] at hannounced
      rw [hswarm] at hcontains
      have hcase : before.links.Pending x j ∧ (event = .disconnected → x ≠ y) := by
        rcases Swarm.step_contains hcontains with ⟨e, id, d, hinput, -⟩ | ⟨hold, hother⟩
        · cases event with
          | connected peerId direction peerExtensions =>
            rw [PeerEvent.input, Input.peerConnected.injEq] at hinput
            obtain ⟨-, -, rfl, -⟩ := hinput
            simp only [if_true, Option.some.injEq] at hannounced
            exact ⟨hannounced ▸ hsender, by simp⟩
          | disconnected => contradiction
          | messageReceived message => contradiction
        · cases event with
          | connected peerId direction peerExtensions =>
            simp only at hannounced
            split_ifs at hannounced with hyx
            · rw [Option.some.injEq] at hannounced
              exact ⟨hannounced ▸ hyx ▸ hsender, by simp⟩
            · exact ⟨ih ⟨hold, hannounced⟩, by simp⟩
          | disconnected =>
            refine ⟨ih ⟨hold, hannounced⟩, fun _ hxy => hother ?_⟩
            rw [hxy]
            rfl
          | messageReceived message => exact ⟨ih ⟨hold, hannounced⟩, by simp⟩
      refine htracked.pending_apply hcase.1 fun _ hhead' => ?_
      rw [hhead, Option.some.injEq, Prod.mk.injEq, Prod.mk.injEq] at hhead'
      exact hcase.2 hhead'.2.2 hhead'.2.1.symm
    · rw [hquiet] at hannounced
      rw [hswarm] at hcontains
      have hold : before.swarm.peerRegistry.containsAddr x = true := by
        rcases Swarm.step_contains hcontains with ⟨e, id, d, hconnected, -⟩ | ⟨hold, -⟩
        · exact absurd hconnected (hinput id d x e)
        · exact hold
      refine htracked.pending_apply (ih ⟨hold, hannounced⟩) fun haction hhead => ?_
      exact received_ne haction hhead hquiet

theorem channel_after {io : SwarmIo} {i : Move × Entropy} {k : Nat} {x : SocketAddr}
    (h : io.received i.1 = some (k, x, .disconnected)) :
    (io.step sha1 i).1.peerCmds.get x = none := by
  obtain ⟨haction, hhead⟩ := received_eq h
  obtain ⟨rest, hevents⟩ := List.head?_eq_some_iff.mp hhead
  have hlinks := step_links sha1 io i
  rw [haction, Links.apply, Links.receive_eq hevents, if_pos rfl] at hlinks
  have hcmds : (io.step sha1 i).1.peerCmds = io.peerCmds.remove x := congrArg Links.peerCmds hlinks
  rw [hcmds, HashMap.get_remove_self]

theorem registration_after {io : SwarmIo} {i : Move × Entropy} {k : Nat} {x : SocketAddr}
    (h : io.received i.1 = some (k, x, .disconnected)) :
    (io.step sha1 i).1.swarm.peerRegistry.containsAddr x = false := by
  rcases step_swarm sha1 io i with ⟨hquiet, -⟩ | ⟨k', y, event, hreceived, hswarm⟩ | ⟨hquiet, -⟩
  · rw [h] at hquiet
    contradiction
  · rw [h, Option.some.injEq, Prod.mk.injEq, Prod.mk.injEq] at hreceived
    obtain ⟨-, rfl, rfl⟩ := hreceived
    rw [hswarm, Bool.eq_false_iff]
    exact fun hcontains => (PeerRegistry.contains_disconnected hcontains).1 rfl
  · rw [h] at hquiet
    contradiction

theorem sparesNewer_iff : SparesNewer sha1 trace ↔
    ∀ newer e older, trace = newer ++ e :: older → ∀ k x,
      e.before.received e.input.1 = some (k, x, .disconnected) → e.before.links.Cancelled k →
      ∀ j, k < j → e.before.peerCmds.get x ≠ some j ∧ ¬ RegisteredBy older e.before x j := by
  constructor
  · intro h newer e older htrace k x hreceived hcancelled j hj
    obtain ⟨hchannel, hregistered⟩ := h newer e older htrace k x hreceived hcancelled j hj
    refine ⟨fun hget => ?_, fun hreg => ?_⟩
    · have hkept := hchannel hget
      rw [after, channel_after hreceived] at hkept
      contradiction
    · have hkept := (hregistered hreg).1
      rw [after, registration_after hreceived] at hkept
      contradiction
  · intro h newer e older htrace k x hreceived hcancelled j hj
    obtain ⟨hchannel, hregistered⟩ := h newer e older htrace k x hreceived hcancelled j hj
    exact ⟨fun hget => absurd hget hchannel, fun hreg => absurd hreg hregistered⟩

theorem not_sparesNewer {i : Move × Entropy} {k j : Nat} {x : SocketAddr}
    (hreceived : io.received i.1 = some (k, x, .disconnected)) (hcancelled : io.links.Cancelled k)
    (hj : k < j) (hchannel : io.peerCmds.get x = some j) :
    ¬ SparesNewer sha1 (⟨io, i, (step sha1 io i).2⟩ :: trace) := by
  intro hspares
  have hlost := sparesNewer_iff.mp hspares [] _ trace rfl k x hreceived hcancelled j hj
  exact hlost.1 hchannel

def StartsClear (io : SwarmIo) (move : Move) : Prop := io.links.Clear (io.action move)

instance (io : SwarmIo) (move : Move) : Decidable (io.StartsClear move) :=
  inferInstanceAs (Decidable (io.links.Clear _))

theorem history_alone (hist : History (step sha1) (Started sha1 clientId metainfo) trace io)
    (hclear : ∀ e ∈ trace, e.before.StartsClear e.input.1) : io.links.Alone := by
  refine hist.guarded_invariant (P := fun io => io.links.Alone)
    (G := fun io i => io.StartsClear i.1) (fun io hio => ?_) (fun io i hclear h => ?_) hclear
  · rw [(started_frame hio).1]
    exact .new
  · rw [step_links]
    exact h.apply (fun addr direction haction => action_spawn haction) hclear

theorem late_disconnect_spares_newer_session
    (hist : History (step sha1) (Started sha1 clientId metainfo) trace io)
    (hclear : ∀ e ∈ trace, e.before.StartsClear e.input.1) : SparesNewer sha1 trace := by
  refine sparesNewer_iff.mpr fun newer e older htrace k x hreceived _ j hj => ?_
  obtain ⟨hbefore, -⟩ := hist.event_before htrace
  have halone := history_alone hbefore fun f hf => hclear f (by
    rw [htrace]
    exact List.mem_append_right _ (List.mem_cons_of_mem _ hf))
  have hsender : e.before.links.Pending x k :=
    halone.tracked.events _ (List.mem_of_mem_head? (received_eq hreceived).2)
  have hnewer : ¬ e.before.links.Pending x j := fun hpending =>
    Nat.ne_of_lt hj (halone.single x k j hsender hpending)
  refine ⟨fun hget => hnewer ?_, fun hreg => hnewer ?_⟩
  · exact (halone.tracked.channel x j hget).1
  · exact registered_pending hbefore hreg

end SwarmIo

namespace Sample

def dropped : List SwarmIo.Move :=
  [.peers (some [addr 80])] ++ handled ++
    sessionEvent 0 (.connect (peerId 2) ⟨false, false⟩) ++ sessionEvent 0 (.receive .haveAll)

def replaced : List SwarmIo.Move :=
  dropped ++ [.peers (some [addr 80])] ++ handled ++
    sessionEvent 1 (.connect (peerId 2) ⟨false, false⟩) ++ sessionEvent 0 (.receive .unchoke)

def heardOut : List SwarmIo.Move :=
  dropped ++ sessionEvent 0 .stop ++ [.peers (some [addr 80])] ++ handled

def overtaken : List SwarmIo.Move :=
  dropped ++ [.peers (some [addr 80])] ++ handled ++
    sessionEvent 1 (.connect (peerId 2) ⟨false, false⟩) ++ [.session 0 .stop]

end Sample

namespace SwarmIo

theorem dialed_peers_reachable : ∃ io log,
    History (step Sample.contentSha1) (Started Sample.contentSha1 (Sample.peerId 1) Sample.torrent)
      log io ∧ io.swarm.peerRegistry.containsAddr (Sample.addr 80) = true ∧
      io.peerCmds.contains (Sample.addr 80) = true := by
  have hrun : (Sample.opened.any fun io =>
      let io := (History.run (step Sample.contentSha1) io (Sample.drawn Sample.replaced)).1
      decide (io.outputs = [] ∧ io.swarm.peerRegistry.containsAddr (Sample.addr 80) = true)) =
        true := by decide +kernel
  obtain ⟨io, hcheck, hist⟩ := Sample.opened_history hrun
  obtain ⟨houtputs, hregistered⟩ := of_decide_eq_true hcheck
  refine ⟨_, _, hist Sample.replaced, hregistered, ?_⟩
  exact registered_peers_reachable (hist Sample.replaced) (.inr houtputs) hregistered

theorem session_after_heard_out_keeps_channel : ∃ io trace,
    History (step Sample.contentSha1) (Started Sample.contentSha1 (Sample.peerId 1) Sample.torrent)
      trace io ∧
    io.peerCmds.get (Sample.addr 80) = some 1 ∧ SparesNewer Sample.contentSha1 trace := by
  have hrun : (Sample.opened.any fun io =>
      decide ((History.run (step Sample.contentSha1) io
        (Sample.drawn Sample.heardOut)).1.peerCmds.get (Sample.addr 80) = some 1) &&
      (History.events (step Sample.contentSha1) io (Sample.drawn Sample.heardOut)).all fun e =>
        decide (e.before.StartsClear e.input.1)) = true := by decide +kernel
  obtain ⟨io, hcheck, hist⟩ := Sample.opened_history hrun
  rw [Bool.and_eq_true] at hcheck
  obtain ⟨hchannel, hclear⟩ := hcheck
  refine ⟨_, _, hist Sample.heardOut, of_decide_eq_true hchannel, ?_⟩
  exact late_disconnect_spares_newer_session (hist Sample.heardOut) fun e he =>
    of_decide_eq_true (List.all_eq_true.mp hclear e he)

theorem late_disconnect_closes_newer_session :
    ¬ ∀ sha1 clientId metainfo trace io,
      History (step sha1) (Started sha1 clientId metainfo) trace io → SparesNewer sha1 trace := by
  intro hall
  have hrun : (Sample.opened.any fun io =>
      let io := (History.run (step Sample.contentSha1) io (Sample.drawn Sample.overtaken)).1
      decide (io.received .peerEvent = some (0, Sample.addr 80, .disconnected) ∧
        io.links.Cancelled 0 ∧ io.peerCmds.get (Sample.addr 80) = some 1)) = true := by
    decide +kernel
  obtain ⟨io, hcheck, hist⟩ := Sample.opened_history hrun
  obtain ⟨hreceived, hcancelled, hchannel⟩ := of_decide_eq_true hcheck
  have hspares := hall _ _ _ _ _ ((hist Sample.overtaken).next (.peerEvent, Sample.env))
  exact not_sparesNewer hreceived hcancelled (by decide) hchannel hspares

end SwarmIo

end Tortue
