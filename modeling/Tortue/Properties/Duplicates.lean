import Tortue.Domain.Swarm.Identity
import Tortue.Domain.Swarm.Outputs

namespace Tortue

open Collections

namespace Swarm

open PeerRegistry

variable (env : Entropy) (s : Swarm)

@[simp] theorem disconnects_onDisconnected (x : SocketAddr) :
    disconnects (s.onDisconnected env x).2 = [] :=
  disconnects_eq_nil fun o ho y hy => by
    obtain ⟨id, hid⟩ := onDisconnected_outputs env s x o ho
    rw [hid] at hy
    contradiction

@[simp] theorem disconnects_register (x : SocketAddr) (d : ConnectionDirection) (id : PeerId)
    (e : PeerExtensions) : disconnects (s.register x d id e).2 = [] :=
  disconnects_eq_nil fun o ho y hy => by
    rcases register_outputs s x d id e o ho with hm | hm <;> rw [hm] at hy <;> contradiction

theorem disconnects_replace (old x : SocketAddr) (d : ConnectionDirection) (id : PeerId)
    (e : PeerExtensions) :
    disconnects ((s.onDisconnected env old).2 ++ .disconnectPeer old ::
      ((s.onDisconnected env old).1.register x d id e).2) = [old] := by
  rw [disconnects_append, disconnects_onDisconnected, ← List.singleton_append, disconnects_append,
    disconnects_register]
  rfl

-- The adapter answers each `DisconnectPeer` by feeding the disconnection back.
def executed (sha1 : Sha1) (outputs : List Output) : Swarm :=
  (disconnects outputs).foldl (fun s x => (step sha1 s (.peerDisconnected x, env)).1) s

structure KeepsOne (sha1 : Sha1) (id : PeerId) (t : Swarm) (outputs : List Output) : Prop where
  spared : ∀ x, .disconnectPeer x ∈ outputs →
    ¬ t.RegisteredFor id x ∧ ∀ c, t.peerRegistry.connectionFor id = some c → c.1 ≠ x
  remaining : ∀ x, .disconnectPeer x ∈ outputs →
    ∃! y, (executed env t sha1 outputs).RegisteredFor id y

def SoundEntry (x : SocketAddr) (d : ConnectionDirection) (id : PeerId) : Prop :=
  ∀ old, s.peerRegistry.connectionFor id = some old →
    old.1 ≠ x ∧ (s.Refused d id → s.RegisteredFor id old.1)

variable {env s}

theorem keepsOne_of_no_disconnect {sha1 : Sha1} {id : PeerId} {t : Swarm} {outputs : List Output}
    (h : disconnects outputs = []) : KeepsOne env sha1 id t outputs where
  spared x hx := by
    rw [← mem_disconnects, h] at hx
    contradiction
  remaining x hx := by
    rw [← mem_disconnects, h] at hx
    contradiction

theorem keepsOne_single {sha1 : Sha1} {id : PeerId} {t : Swarm} {outputs : List Output}
    {x : SocketAddr} (h : disconnects outputs = [x]) :
    KeepsOne env sha1 id t outputs ↔
      (¬ t.RegisteredFor id x ∧ ∀ c, t.peerRegistry.connectionFor id = some c → c.1 ≠ x) ∧
        ∃! y, t.RegisteredFor id y ∧ y ≠ x := by
  have hmem : ∀ y, .disconnectPeer y ∈ outputs ↔ y = x := by
    intro y
    rw [← mem_disconnects, h, List.mem_singleton]
  have hafter : ∀ y, (executed env t sha1 outputs).RegisteredFor id y ↔
      t.RegisteredFor id y ∧ y ≠ x := by
    intro y
    rw [executed, h]
    exact registeredFor_disconnected
  constructor
  · rintro ⟨hspared, hremaining⟩
    refine ⟨hspared x ((hmem x).mpr rfl), ?_⟩
    simpa only [hafter] using hremaining x ((hmem x).mpr rfl)
  · rintro ⟨hspared, hremaining⟩
    refine ⟨fun y hy => ?_, fun y hy => ?_⟩
    · rw [(hmem y).mp hy]
      exact hspared
    · simpa only [hafter] using hremaining

theorem duplicate_keeps_one_iff (sha1 : Sha1) (env env' : Entropy) {clientId : PeerId}
    {metainfo : Metainfo} {s : Swarm} (hr : Reachable sha1 clientId metainfo s) (id : PeerId)
    (d : ConnectionDirection) (x : SocketAddr) (e : PeerExtensions) :
    KeepsOne env' sha1 id (step sha1 s (.peerConnected id d x e, env)).1
      (step sha1 s (.peerConnected id d x e, env)).2 ↔ s.SoundEntry x d id := by
  have hi : Indexed s.peerRegistry := reachable_indexed hr
  simp only [step]
  rcases onConnected_cases env s x d id e with ⟨hb, hs⟩ | ⟨old, hb, hd, hs⟩ | ⟨old, hb, hd, hs⟩
  · rw [hs]
    refine iff_of_true (keepsOne_of_no_disconnect (disconnects_register ..)) ?_
    intro old hold
    rw [connectionFor, hb] at hold
    contradiction
  · rw [hs, keepsOne_single rfl]
    constructor
    · rintro ⟨⟨-, hentry⟩, y, ⟨hy, hyx⟩, -⟩ old' hold'
      refine ⟨hentry old' hold', fun _ => ?_⟩
      rw [← registeredFor_entry hi hold' hy]
      exact hy
    · intro hsound
      have hrefused : s.Refused d id := ⟨old, hb, hd⟩
      obtain ⟨hne, hreg⟩ := hsound old hb
      have hkept : s.RegisteredFor id old.1 := hreg hrefused
      refine ⟨⟨fun hx => hne (registeredFor_unique hi hkept hx), fun c hc => ?_⟩, ?_⟩
      · rw [connectionFor, hb, Option.some.injEq] at hc
        exact hc ▸ hne
      · exact ⟨old.1, ⟨hkept, hne⟩, fun y hy => registeredFor_unique hi hy.1 hkept⟩
  · rw [hs, keepsOne_single (disconnects_replace env s old.1 x d id e)]
    have hgone : ∀ y, ¬ (s.onDisconnected env old.1).1.RegisteredFor id y := by
      rintro y ⟨p, hp, hid⟩
      exact hi.gone hb hp hid
    have hafter : ∀ y, ((s.onDisconnected env old.1).1.register x d id e).1.RegisteredFor id y ↔
        y = x := by
      intro y
      rw [registeredFor_register]
      exact ⟨fun h => h.resolve_right (hgone y), .inl⟩
    have haccepted : ¬ s.Refused d id := not_refused s hb hd
    constructor
    · rintro ⟨⟨hspared, -⟩, -⟩ old' hold'
      rw [connectionFor, hb, Option.some.injEq] at hold'
      refine ⟨fun heq => hspared ((hafter old.1).mpr (hold' ▸ heq)), fun h => absurd h haccepted⟩
    · intro hsound
      have hne : old.1 ≠ x := (hsound old hb).1
      refine ⟨⟨fun h => hne ((hafter old.1).mp h), fun c hc => ?_⟩, ?_⟩
      · rw [connectionFor, register_peerRegistry, byId_connected, if_pos rfl,
          Option.some.injEq] at hc
        exact hc ▸ hne.symm
      · refine ⟨x, ⟨(hafter x).mpr rfl, hne.symm⟩, ?_⟩
        rintro y ⟨hy, -⟩
        exact (hafter y).mp hy

theorem keeps_one_after_replacement :
    KeepsOne Sample.env Sample.sha1 (Sample.peerId 2)
      (step Sample.sha1 (step Sample.sha1 Sample.swarm (Sample.connect 2 .outbound 80)).1
        (Sample.connect 2 .inbound 81)).1
      (step Sample.sha1 (step Sample.sha1 Sample.swarm (Sample.connect 2 .outbound 80)).1
        (Sample.connect 2 .inbound 81)).2 := by
  refine (duplicate_keeps_one_iff Sample.sha1 Sample.env Sample.env
    (Sample.swarm_reachable.next (Sample.connect 2 .outbound 80)) (Sample.peerId 2) .inbound
      (Sample.addr 81)
    Sample.extensions).mpr ?_
  have hentry : (step Sample.sha1 Sample.swarm
      (Sample.connect 2 .outbound 80)).1.peerRegistry.connectionFor (Sample.peerId 2) =
      some (Sample.addr 80, .outbound) := by decide +kernel
  intro old hold
  rw [hentry, Option.some.injEq] at hold
  subst hold
  refine ⟨by decide, fun _ => ⟨PeerState.new (Sample.peerId 2) Sample.extensions, ?_, rfl⟩⟩
  decide +kernel

theorem reannounced_session_disconnected :
    ¬ ∀ sha1 clientId metainfo s, Reachable sha1 clientId metainfo s →
      ∀ env env' id d x e, KeepsOne env' sha1 id (step sha1 s (.peerConnected id d x e, env)).1
        (step sha1 s (.peerConnected id d x e, env)).2 := by
  intro hall
  have hr := Sample.swarm_reachable.next (Sample.connect 2 .outbound 80)
  have hkeeps := hall _ _ _ _ hr Sample.env Sample.env (Sample.peerId 2) .outbound (Sample.addr 80)
    Sample.extensions
  have hout : Output.disconnectPeer (Sample.addr 80) ∈
      (step Sample.sha1 (step Sample.sha1 Sample.swarm (Sample.connect 2 .outbound 80)).1
        (Sample.connect 2 .outbound 80)).2 := by decide +kernel
  have hentry : (step Sample.sha1 (step Sample.sha1 Sample.swarm (Sample.connect 2 .outbound 80)).1
      (Sample.connect 2 .outbound 80)).1.peerRegistry.connectionFor (Sample.peerId 2) =
      some (Sample.addr 80, .outbound) := by decide +kernel
  exact (hkeeps.spared _ hout).2 _ hentry rfl

end Swarm

end Tortue
