import Tortue.Adapters.PeerViews

namespace Tortue

open Collections

namespace Peering

variable {sha1 : Sha1} {p : Peering} {i : Move × Entropy} {tasks : List PeerTask}

inductive Stepped (sha1 : Sha1) (p : Peering) (i : Move × Entropy) :
    Peering × List Output → Prop
  | rest : Stepped sha1 p i (p, [])
  | loop (move : SwarmIo.Move) : loopMove i.1 = some move →
      Stepped sha1 p i (p.runLoop i.1 (p.io.step sha1 (move, i.2)))
  | task (number : Nat) (t : PeerTask) (r : PeerTask × List PeerAct) :
      p.tasks[number]? = some t → t.Took (signals p.io number t) r →
      Stepped sha1 p i
        ({ p with io := p.io.hear number r.1 r.2, tasks := p.tasks.set number r.1 },
          r.2.map (.act number))

theorem stepped_task (number : Nat) (move : PeerMove) :
    Stepped sha1 p i (p.runTask number move) := by
  unfold runTask
  split
  · exact .rest
  · next t hget => exact .task number t _ hget (t.took _ move)

theorem stepped (sha1 : Sha1) (p : Peering) (i : Move × Entropy) :
    Stepped sha1 p i (p.step sha1 i) := by
  unfold step
  split
  · exact stepped_task _ _
  · split
    · next loop hloop => exact .loop loop hloop
    · exact .rest

theorem map_modify_eq {α β : Type} {f : α → α} {g : α → β} (h : ∀ a, g (f a) = g a) (l : List α)
    (k : Nat) : (l.modify k f).map g = l.map g := by
  induction l generalizing k with
  | nil => rw [List.modify_nil]
  | cons a l ih =>
    cases k with
    | zero => rw [List.modify_zero_cons, List.map_cons, List.map_cons, h]
    | succ k => rw [List.modify_succ_cons, List.map_cons, List.map_cons, ih]

theorem face_deliver (tasks : List PeerTask) (effects : List SwarmIo.Effect) :
    (effects.foldl deliver tasks).map PeerTask.face = tasks.map PeerTask.face := by
  induction effects generalizing tasks with
  | nil => rfl
  | cons e effects ih =>
    rw [List.foldl_cons, ih]
    cases e with
    | sent number addr message =>
      have hkeeps (t : PeerTask) :
          { t with commands := t.commands ++ [message] }.face = t.face := rfl
      exact map_modify_eq hkeeps tasks number
    | _ => rfl

def Tracks (p : Peering) : Prop :=
  p.tasks.map PeerTask.face = p.io.peerConnector.sessions.map Session.face

theorem Tracks.length (h : p.Tracks) : p.tasks.length = p.io.peerConnector.sessions.length := by
  simpa only [List.length_map] using congrArg List.length h

theorem Tracks.session (h : p.Tracks) {number : Nat} {t : PeerTask}
    (ht : p.tasks[number]? = some t) :
    ∃ s, p.io.peerConnector.sessions[number]? = some s ∧ s.face = t.face := by
  have hface : (p.tasks.map PeerTask.face)[number]? = some t.face := by
    rw [List.getElem?_map, ht, Option.map_some]
  rw [h, List.getElem?_map] at hface
  obtain ⟨s, hs, heq⟩ := Option.map_eq_some_iff.mp hface
  exact ⟨s, hs, heq⟩

theorem spawned_direction {io : SwarmIo} {loop : SwarmIo.Move} {addr : SocketAddr}
    {direction : ConnectionDirection} (h : io.action loop = .spawn addr direction) :
    (∃ x, loop = .inbound (some x) ∧ direction = .inbound) ∨
      ∃ accepts, loop = .handle accepts ∧ direction = .outbound := by
  unfold SwarmIo.action at h
  split at h
  · contradiction
  · next accepts =>
    split at h
    · split_ifs at h
      rw [Links.Action.spawn.injEq] at h
      exact .inr ⟨accepts, rfl, h.2.symm⟩
    · contradiction
    · contradiction
  · next x =>
    split at h
    · split_ifs at h
      rw [Links.Action.spawn.injEq] at h
      exact .inl ⟨x, rfl, h.2.symm⟩
    · contradiction
  · split at h <;> contradiction
  · contradiction

theorem loopMove_cases {move : Move} {loop : SwarmIo.Move} (h : loopMove move = some loop) :
    (∃ addr peer, move = .inbound addr peer ∧ loop = .inbound (some addr)) ∨
      (move = .loop loop ∧ (∀ number m, loop ≠ .session number m) ∧
        ∀ addr, loop ≠ .inbound (some addr)) := by
  unfold loopMove at h
  split at h
  · contradiction
  · contradiction
  · next move hsession hinbound =>
    obtain rfl := Option.some.inj h
    exact .inr ⟨rfl, fun number m heq => hsession number m (heq ▸ rfl),
      fun addr heq => hinbound addr (heq ▸ rfl)⟩
  · next addr peer => exact .inl ⟨addr, peer, rfl, (Option.some.inj h).symm⟩
  · contradiction

theorem face_spawn {move : Move} {loop : SwarmIo.Move} (h : loopMove move = some loop)
    {io : SwarmIo} {addr : SocketAddr} {direction : ConnectionDirection}
    (haction : io.action loop = .spawn addr direction) (config : PeerConfig) :
    (spawn config move ⟨addr, direction, .connecting, false⟩).face =
      (addr, direction, .connecting) := by
  rcases loopMove_cases h with ⟨x, peer, rfl, rfl⟩ | ⟨rfl, -, hinbound⟩
  · rcases spawned_direction haction with ⟨y, -, rfl⟩ | ⟨accepts, hmove, -⟩
    · rfl
    · contradiction
  · rcases spawned_direction haction with ⟨y, hmove, -⟩ | ⟨accepts, -, rfl⟩
    · exact absurd hmove (hinbound y)
    · rfl

theorem action_not_run {move : Move} {loop : SwarmIo.Move} (h : loopMove move = some loop)
    (io : SwarmIo) (number : Nat) (m : SessionMove) : io.action loop ≠ .run number m := by
  intro haction
  unfold SwarmIo.action at haction
  split at haction
  · next number m =>
    rcases loopMove_cases h with ⟨x, peer, -, hmove⟩ | ⟨-, hsession, -⟩
    · contradiction
    · exact hsession number m rfl
  · split at haction
    · split_ifs at haction
    · contradiction
    · contradiction
  · split at haction
    · split_ifs at haction
    · contradiction
  · split at haction <;> contradiction
  · contradiction

theorem face_apply {move : Move} {loop : SwarmIo.Move} (h : loopMove move = some loop)
    (io : SwarmIo) (config : PeerConfig) :
    (io.links.apply (io.action loop)).peerConnector.sessions.map Session.face =
      io.peerConnector.sessions.map Session.face ++
        (((io.links.apply (io.action loop)).peerConnector.sessions.drop
          io.peerConnector.sessions.length).map (spawn config move)).map PeerTask.face := by
  have hsame {sessions : List Session}
      (hlength : sessions.length = io.peerConnector.sessions.length) :
      sessions.drop io.peerConnector.sessions.length = [] :=
    List.drop_of_length_le (Nat.le_of_eq hlength)
  cases haction : io.action loop with
  | keep =>
    have hlength : (io.links.apply .keep).peerConnector.sessions.length =
        io.peerConnector.sessions.length := rfl
    rw [hsame hlength, List.map_nil, List.map_nil, List.append_nil]
    rfl
  | spawn addr direction =>
    have hsessions : (io.links.apply (.spawn addr direction)).peerConnector.sessions =
        io.peerConnector.sessions ++ [⟨addr, direction, .connecting, false⟩] := rfl
    rw [hsessions, List.drop_left, List.map_append, List.map_singleton, List.map_singleton,
      List.map_singleton, face_spawn h haction]
    rfl
  | disconnect addr =>
    have hface : (io.links.apply (.disconnect addr)).peerConnector.sessions.map Session.face =
        io.peerConnector.sessions.map Session.face := by
      show (io.peerConnector.disconnect addr).sessions.map Session.face = _
      unfold TcpPeerConnector.disconnect
      split
      · rfl
      · next number _ =>
        have hkeeps (s : Session) : { s with cancelled := true }.face = s.face := rfl
        exact map_modify_eq hkeeps io.peerConnector.sessions number
    have hlength := congrArg List.length hface
    rw [List.length_map, List.length_map] at hlength
    rw [hsame hlength, List.map_nil, List.map_nil, List.append_nil, hface]
  | run number m => exact absurd haction (action_not_run h io number m)
  | receive =>
    have hconnector : (io.links.apply .receive).peerConnector = io.peerConnector := by
      show io.links.receive.peerConnector = io.links.peerConnector
      unfold Links.receive
      split <;> rfl
    rw [hconnector, hsame rfl, List.map_nil, List.map_nil, List.append_nil]

theorem Tracks.loop (h : p.Tracks) {loop : SwarmIo.Move} (hmove : loopMove i.1 = some loop) :
    (p.runLoop i.1 (p.io.step sha1 (loop, i.2))).1.Tracks := by
  have hsessions : (p.io.step sha1 (loop, i.2)).1.peerConnector.sessions =
      (p.io.links.apply (p.io.action loop)).peerConnector.sessions :=
    congrArg (fun l => l.peerConnector.sessions) (SwarmIo.step_links sha1 p.io (loop, i.2))
  have htable := face_apply hmove p.io p.config
  unfold Tracks at h ⊢
  rw [runLoop, face_deliver, List.map_append, Tracks.length h, h]
  simp only [hsessions, htable]

theorem Tracks.task (h : p.Tracks) {number : Nat} {t : PeerTask} {r : PeerTask × List PeerAct}
    (ht : p.tasks[number]? = some t) (hr : t.Took (signals p.io number t) r) :
    Tracks { p with io := p.io.hear number r.1 r.2, tasks := p.tasks.set number r.1 } := by
  obtain ⟨s, hs, hface⟩ := h.session ht
  obtain ⟨haddr, -, hdirection⟩ := hr.frame
  have hnew : ({ s with state := r.1.stage.session } : Session).face = r.1.face := by
    simp only [Session.face, PeerTask.face, Prod.mk.injEq] at hface ⊢
    exact ⟨hface.1.trans haddr.symm, hface.2.1.trans hdirection.symm, trivial⟩
  unfold Tracks at h ⊢
  simp only [SwarmIo.hear, SwarmIo.modify_of_get hs, List.map_set, hnew, h]

theorem Tracks.step (h : p.Tracks) (sha1 : Sha1) (i : Move × Entropy) :
    (p.step sha1 i).1.Tracks := by
  have hstep := stepped sha1 p i
  generalize p.step sha1 i = r at hstep
  cases hstep with
  | rest => exact h
  | loop loop hmove => exact h.loop hmove
  | task number t r ht hr => exact h.task ht hr

theorem Started.tracks {clientId : PeerId} {metainfo : Metainfo}
    (h : Started sha1 clientId metainfo p) : p.Tracks := by
  have hlinks := (SwarmIo.started_frame h.io).1
  have hsessions : p.io.peerConnector.sessions = [] :=
    congrArg (fun l => l.peerConnector.sessions) hlinks
  rw [Tracks, h.tasks, hsessions]
  rfl

def Output.effect? : Output → Option SwarmIo.Effect
  | .effect e => some e
  | .act _ _ => none

theorem refines (sha1 : Sha1) (clientId : PeerId) (metainfo : Metainfo) :
    Refines (step sha1) (Started sha1 clientId metainfo) (SwarmIo.step sha1)
      (SwarmIo.Started sha1 clientId metainfo) Output.effect?
      (fun p io => p.io = io ∧ p.Tracks) where
  start p hp := ⟨p.io, hp.io, rfl, hp.tracks⟩
  answer p io i hR := by
    obtain ⟨rfl, htracks⟩ := hR
    have hnext := htracks.step sha1 i
    have hstep := stepped sha1 p i
    generalize p.step sha1 i = r at hstep hnext
    cases hstep with
    | rest => exact ⟨[], ⟨rfl, hnext⟩, rfl⟩
    | loop loop hmove =>
      refine ⟨[(loop, i.2)], ⟨rfl, hnext⟩, ?_⟩
      simp only [History.run, List.append_nil, runLoop, List.filterMap_map]
      exact (List.filterMap_some).symm
    | task number t r ht hr =>
      obtain ⟨s, hs, hface⟩ := htracks.session ht
      obtain ⟨moves, hmoves⟩ := hr.seen hface
      have haddr : s.addr = r.1.addr := (congrArg Prod.fst hface).trans hr.frame.1.symm
      have hrun := SwarmIo.run_session sha1 i.2 moves hs
      rw [hmoves] at hrun
      refine ⟨moves.map fun move => (.session number move, i.2), ?_, ?_⟩
      · rw [hrun]
        refine ⟨?_, hnext⟩
        simp only [SwarmIo.hear, SwarmIo.modify_of_get hs, ← haddr]
      · rw [hrun, List.filterMap_map]
        exact (List.filterMap_eq_nil_iff.mpr fun a _ => rfl).symm

end Peering

end Tortue
