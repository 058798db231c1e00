import Tortue.Domain.Swarm.Frame

namespace Tortue

open Collections

namespace PeerRegistry

def Indexed (r : PeerRegistry) : Prop :=
  ∀ x p, r.peers.get x = some p → ∃ d, r.byId.get p.id = some (x, d)

def NoDangling (r : PeerRegistry) : Prop :=
  ∀ id x d, r.byId.get id = some (x, d) → ∃ p, r.peers.get x = some p ∧ p.id = id

theorem indexed_new (n : Nat) : Indexed (.new n) := by
  intro x p h
  simp [PeerRegistry.new] at h

theorem noDangling_new (n : Nat) : NoDangling (.new n) := by
  intro id x d h
  simp [PeerRegistry.new] at h

theorem Indexed.unique {r : PeerRegistry} (h : Indexed r) {x y : SocketAddr} {p q : PeerState}
    (hx : r.peers.get x = some p) (hy : r.peers.get y = some q) (hid : p.id = q.id) : x = y := by
  obtain ⟨d, hd⟩ := h x p hx
  obtain ⟨e, he⟩ := h y q hy
  rw [hid, he] at hd
  simp only [Option.some.injEq, Prod.mk.injEq] at hd
  exact hd.1.symm

theorem get_connected {r : PeerRegistry} {x y : SocketAddr} {id : PeerId}
    {d : ConnectionDirection} {e : PeerExtensions} :
    (r.connected x id d e).peers.get y =
      if y = x then some (PeerState.new id e) else r.peers.get y :=
  HashMap.get_insert ..

theorem byId_connected {r : PeerRegistry} {x : SocketAddr} {id id' : PeerId}
    {d : ConnectionDirection} {e : PeerExtensions} :
    (r.connected x id d e).byId.get id' = if id' = id then some (x, d) else r.byId.get id' :=
  HashMap.get_insert ..

theorem get_disconnected {r : PeerRegistry} {x y : SocketAddr} :
    (r.disconnected x).peers.get y = if y = x then none else r.peers.get y := by
  rw [disconnected_peers, HashMap.get_remove]

theorem indexed_connected {r : PeerRegistry} (h : Indexed r) {x : SocketAddr} {id : PeerId}
    (hid : ∀ y p, r.peers.get y = some p → p.id = id → y = x) (d : ConnectionDirection)
    (e : PeerExtensions) : Indexed (r.connected x id d e) := by
  intro y p hy
  rw [get_connected] at hy
  rw [byId_connected]
  by_cases hyx : y = x
  · subst hyx
    rw [if_pos rfl, Option.some.injEq] at hy
    subst hy
    exact ⟨d, by simp [PeerState.new]⟩
  · rw [if_neg hyx] at hy
    have hne : p.id ≠ id := fun heq => hyx (hid y p hy heq)
    rw [if_neg hne]
    exact h y p hy

theorem indexed_disconnected {r : PeerRegistry} (h : Indexed r) (x : SocketAddr) :
    Indexed (r.disconnected x) := by
  intro y p hy
  rw [get_disconnected] at hy
  split_ifs at hy with hyx
  obtain ⟨d, hd⟩ := h y p hy
  exact ⟨d, (disconnected_byId r x p.id (y, d)).mpr ⟨hd, fun hc => hyx hc.1⟩⟩

theorem Indexed.gone {r : PeerRegistry} (h : Indexed r) {id : PeerId} {old : SocketAddr}
    {d : ConnectionDirection} (hb : r.byId.get id = some (old, d)) {y : SocketAddr}
    {p : PeerState} (hy : (r.disconnected old).peers.get y = some p) : p.id ≠ id := by
  intro hid
  rw [get_disconnected] at hy
  split_ifs at hy with hyo
  obtain ⟨e, he⟩ := h y p hy
  rw [hid, hb] at he
  simp only [Option.some.injEq, Prod.mk.injEq] at he
  exact hyo he.1.symm

theorem same_identities {r r' : PeerRegistry} {x : SocketAddr} {m : Message}
    (h : r.apply x m = .ok r') (y : SocketAddr) :
    (r'.peers.get y).map PeerState.id = (r.peers.get y).map PeerState.id := by
  obtain ⟨p, hp, -, hpeers, -, -⟩ := apply_ok h
  rw [hpeers, HashMap.get_insert]
  by_cases hy : y = x
  · subst hy; simp [hp]
  · simp [hy]

theorem indexed_apply {r r' : PeerRegistry} {x : SocketAddr} {m : Message}
    (h : Indexed r) (ha : r.apply x m = .ok r') : Indexed r' := by
  intro y p hy
  have hsame := same_identities ha y
  rw [hy] at hsame
  obtain ⟨q, hq, hid⟩ := Option.map_eq_some_iff.mp hsame.symm
  obtain ⟨-, -, -, -, hbyId, -⟩ := apply_ok ha
  rw [hbyId, ← hid]
  exact h y q hq

theorem noDangling_apply {r r' : PeerRegistry} {x : SocketAddr} {m : Message}
    (h : NoDangling r) (ha : r.apply x m = .ok r') : NoDangling r' := by
  intro id y d hd
  obtain ⟨-, -, -, -, hbyId, -⟩ := apply_ok ha
  rw [hbyId] at hd
  obtain ⟨q, hq, hid⟩ := h id y d hd
  have hsame := same_identities ha y
  rw [hq] at hsame
  obtain ⟨p, hp, hpid⟩ := Option.map_eq_some_iff.mp hsame
  exact ⟨p, hp, hpid.trans hid⟩

theorem noDangling_connected_iff {r : PeerRegistry} (h : NoDangling r) (x : SocketAddr)
    (id : PeerId) (d : ConnectionDirection) (e : PeerExtensions) :
    NoDangling (r.connected x id d e) ↔
      ∀ id' d', r.byId.get id' = some (x, d') → id' = id := by
  constructor
  · intro hc id' d' hb
    by_contra hne
    have hkept : (r.connected x id d e).byId.get id' = some (x, d') := by
      rw [byId_connected, if_neg hne]; exact hb
    obtain ⟨p, hp, hid⟩ := hc id' x d' hkept
    rw [get_connected, if_pos rfl, Option.some.injEq] at hp
    exact hne (by rw [← hid, ← hp]; rfl)
  · intro hother id' y d' hb
    rw [byId_connected] at hb
    by_cases hid : id' = id
    · rw [if_pos hid] at hb
      simp only [Option.some.injEq, Prod.mk.injEq] at hb
      refine ⟨PeerState.new id e, ?_, hid.symm⟩
      rw [get_connected, if_pos hb.1.symm]
    · rw [if_neg hid] at hb
      obtain ⟨p, hp, hpid⟩ := h id' y d' hb
      have hyx : y ≠ x := by
        rintro rfl
        exact hid (hother id' d' hb)
      exact ⟨p, by rw [get_connected, if_neg hyx]; exact hp, hpid⟩

end PeerRegistry

namespace Swarm

open PeerRegistry

theorem indexed_onConnected (env : Entropy) {s : Swarm} (h : Indexed s.peerRegistry)
    (x : SocketAddr) (d : ConnectionDirection) (id : PeerId) (e : PeerExtensions) :
    Indexed (s.onConnected env x d id e).1.peerRegistry := by
  rcases onConnected_cases env s x d id e with
    ⟨hb, hs⟩ | ⟨_, -, -, hs⟩ | ⟨old, hb, -, hs⟩ <;> rw [hs]
  · refine indexed_connected h (fun y p hy hid => ?_) d e
    obtain ⟨d', hd'⟩ := h y p hy
    rw [hid, hb] at hd'
    contradiction
  · exact h
  · refine indexed_connected (indexed_disconnected h old.1) (fun y p hy hid => ?_) d e
    exact absurd hid (h.gone hb hy)

theorem indexed_step (sha1 : Sha1) (s : Swarm) (i : Input × Entropy)
    (h : Indexed s.peerRegistry) : Indexed (step sha1 s i).1.peerRegistry := by
  rcases step_peerRegistry sha1 s i with hs | ⟨x, m, -, ha⟩ | ⟨x, -, hs⟩ | ⟨id, d, x, e, -, hs⟩
  · rw [hs]; exact h
  · exact indexed_apply h ha
  · rw [hs]; exact indexed_disconnected h x
  · rw [hs]; exact indexed_onConnected i.2 h x d id e

theorem reachable_indexed {sha1 : Sha1} {clientId : PeerId} {metainfo : Metainfo} {s : Swarm}
    (hr : Reachable sha1 clientId metainfo s) : Indexed s.peerRegistry := by
  refine History.reachable_invariant (fun s hs => ?_) (indexed_step sha1) hr
  rw [(started_fields hs).2.2.2.1]
  exact indexed_new _

def RegisteredFor (s : Swarm) (id : PeerId) (x : SocketAddr) : Prop :=
  ∃ p, s.peerRegistry.peers.get x = some p ∧ p.id = id

section

variable {env : Entropy} {s : Swarm}

theorem registeredFor_unique (hi : Indexed s.peerRegistry) {id : PeerId} {x y : SocketAddr}
    (hx : s.RegisteredFor id x) (hy : s.RegisteredFor id y) : x = y := by
  obtain ⟨p, hp, hpid⟩ := hx
  obtain ⟨q, hq, hqid⟩ := hy
  exact hi.unique hp hq (hpid.trans hqid.symm)

theorem registeredFor_entry (hi : Indexed s.peerRegistry) {id : PeerId} {y : SocketAddr}
    {c : SocketAddr × ConnectionDirection} (hc : s.peerRegistry.byId.get id = some c)
    (hy : s.RegisteredFor id y) : y = c.1 := by
  obtain ⟨p, hp, hpid⟩ := hy
  obtain ⟨d, hd⟩ := hi y p hp
  rw [hpid, hc, Option.some.injEq] at hd
  rw [hd]

theorem registeredFor_disconnected {sha1 : Sha1} {id : PeerId} {x y : SocketAddr} :
    (step sha1 s (.peerDisconnected x, env)).1.RegisteredFor id y ↔
      s.RegisteredFor id y ∧ y ≠ x := by
  unfold RegisteredFor
  simp only [step, onDisconnected_peerRegistry, get_disconnected]
  by_cases h : y = x <;> simp [h]

theorem registeredFor_register {x y : SocketAddr} {d : ConnectionDirection} {id : PeerId}
    {e : PeerExtensions} :
    (s.register x d id e).1.RegisteredFor id y ↔ y = x ∨ s.RegisteredFor id y := by
  unfold RegisteredFor
  rw [register_peerRegistry]
  simp only [get_connected]
  by_cases h : y = x
  · simp [h, PeerState.new]
  · simp [h]

end

end Swarm

end Tortue
