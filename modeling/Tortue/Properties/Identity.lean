import Tortue.Domain.Swarm.Identity

namespace Tortue

open Collections

namespace PeerRegistry

theorem noDangling_disconnected {r : PeerRegistry} (h : NoDangling r) (x : SocketAddr) :
    NoDangling (r.disconnected x) := by
  intro id y d hd
  obtain ⟨hold, hnot⟩ := (disconnected_byId r x id (y, d)).mp hd
  obtain ⟨p, hp, hid⟩ := h id y d hold
  have hyx : y ≠ x := by
    rintro rfl
    exact hnot ⟨rfl, p, hp, hid⟩
  exact ⟨p, by rw [get_disconnected, if_neg hyx]; exact hp, hid⟩

end PeerRegistry

namespace Swarm

open PeerRegistry

def KeepsIdentity (s : Swarm) (input : Input) : Prop :=
  ∀ id d x e, input = .peerConnected id d x e → ¬ s.Refused d id →
    ∀ p, s.peerRegistry.peers.get x = some p → p.id = id

theorem entry_of_owner {r : PeerRegistry} (hn : NoDangling r) {x : SocketAddr}
    {id : PeerId} (hk : ∀ p, r.peers.get x = some p → p.id = id) {id' : PeerId}
    {d : ConnectionDirection} (hb : r.byId.get id' = some (x, d)) : id' = id := by
  obtain ⟨p, hp, hid⟩ := hn id' x d hb
  exact hid.symm.trans (hk p hp)

theorem noDangling_onConnected (env : Entropy) {s : Swarm} (hn : NoDangling s.peerRegistry)
    {x : SocketAddr} {d : ConnectionDirection} {id : PeerId}
    {e : PeerExtensions} (hk : KeepsIdentity s (.peerConnected id d x e)) :
    NoDangling (s.onConnected env x d id e).1.peerRegistry := by
  rcases onConnected_cases env s x d id e with
    ⟨hb, hs⟩ | ⟨_, -, -, hs⟩ | ⟨old, hb, hd, hs⟩ <;> rw [hs]
  · have howner : ¬ s.Refused d id := by
      rintro ⟨old, hold, -⟩
      rw [connectionFor, hb] at hold
      contradiction
    exact (noDangling_connected_iff hn x id d e).mpr fun id' d' hb' =>
      entry_of_owner hn (hk id d x e rfl howner) hb'
  · exact hn
  · have howner : ¬ s.Refused d id := not_refused s hb hd
    refine (noDangling_connected_iff (noDangling_disconnected hn old.1) x id d e).mpr ?_
    intro id' d' hb'
    have hbefore := ((disconnected_byId _ _ _ _).mp hb').1
    exact entry_of_owner hn (hk id d x e rfl howner) hbefore

theorem identity_step (sha1 : Sha1) (s : Swarm) (i : Input × Entropy) (hk : KeepsIdentity s i.1)
    (h : Indexed s.peerRegistry ∧ NoDangling s.peerRegistry) :
    Indexed (step sha1 s i).1.peerRegistry ∧ NoDangling (step sha1 s i).1.peerRegistry := by
  refine ⟨indexed_step sha1 s i h.1, ?_⟩
  rcases step_peerRegistry sha1 s i with hs | ⟨x, m, -, ha⟩ | ⟨x, -, hs⟩ | ⟨id, d, x, e, hi, hs⟩
  · rw [hs]; exact h.2
  · exact noDangling_apply h.2 ha
  · rw [hs]; exact noDangling_disconnected h.2 x
  · rw [hs]; exact noDangling_onConnected i.2 h.2 (hi ▸ hk)

theorem no_dangling_while_identities_kept (sha1 : Sha1) (clientId : PeerId) (metainfo : Metainfo)
    {h : List (Event Swarm (Input × Entropy) Output)} {s : Swarm}
    (hist : History (step sha1) (Started clientId metainfo) h s)
    (hk : ∀ e ∈ h, KeepsIdentity e.before e.input.1) : NoDangling s.peerRegistry := by
  have hinv : Indexed s.peerRegistry ∧ NoDangling s.peerRegistry := by
    refine History.guarded_invariant (fun s hs => ?_) (identity_step sha1) hist hk
    rw [(started_fields hs).2.2.2.1]
    exact ⟨indexed_new _, noDangling_new _⟩
  exact hinv.2

end Swarm

namespace Sample

def replacing : List (Input × Entropy) :=
  [connect 2 .outbound 80, message 80 (.havePiece 0), connect 2 .inbound 81,
    (.peerDisconnected (addr 80), env)]

def afterReplacing : Swarm := (History.run (Swarm.step sha1) swarm replacing).1

def keepsIdentity (s : Swarm) : Input → Bool
  | .peerConnected id _ x _ => (s.peerRegistry.peers.get x).all fun p => decide (p.id = id)
  | _ => true

theorem keepsIdentity_sound {s : Swarm} {input : Input} (h : keepsIdentity s input = true) :
    s.KeepsIdentity input := by
  rintro id d x e rfl - p hp
  rw [keepsIdentity, hp, Option.all_some] at h
  exact of_decide_eq_true h

end Sample

namespace Swarm

open PeerRegistry

theorem no_dangling_after_replacement :
    Sample.afterReplacing.peerRegistry.byId.get (Sample.peerId 2) =
        some (Sample.addr 81, .inbound) ∧
      NoDangling Sample.afterReplacing.peerRegistry := by
  have hkeeps : (History.events (step Sample.sha1) Sample.swarm Sample.replacing).all
      (fun e => Sample.keepsIdentity e.before e.input.1) = true := by decide +kernel
  refine ⟨by decide +kernel, ?_⟩
  exact no_dangling_while_identities_kept Sample.sha1 (Sample.peerId 1) Sample.metainfo
    (Sample.history Sample.replacing)
    fun e he => Sample.keepsIdentity_sound (List.all_eq_true.mp hkeeps e he)

theorem dangling_after_reannounced_address :
    ¬ ∀ sha1 clientId metainfo s, Reachable sha1 clientId metainfo s →
      NoDangling s.peerRegistry := by
  intro hall
  have hr := (Sample.swarm_reachable.next (Sample.connect 2 .outbound 80)).next
    (Sample.connect 3 .outbound 80)
  obtain ⟨p, hp, hid⟩ := hall _ _ _ _ hr (Sample.peerId 2) (Sample.addr 80) .outbound
    (by decide +kernel)
  revert hp hid
  have hp' : (step Sample.sha1 (step Sample.sha1 Sample.swarm (Sample.connect 2 .outbound 80)).1
      (Sample.connect 3 .outbound 80)).1.peerRegistry.peers.get (Sample.addr 80) =
      some (PeerState.new (Sample.peerId 3) Sample.extensions) := by decide +kernel
  rw [hp']
  intro hp hid
  rw [Option.some.injEq] at hp
  subst hp
  revert hid
  decide +kernel

theorem one_connection_per_id {sha1 : Sha1} {clientId : PeerId} {metainfo : Metainfo} {s : Swarm}
    (hr : Reachable sha1 clientId metainfo s) {x y : SocketAddr} {p q : PeerState}
    (hx : s.peerRegistry.peers.get x = some p) (hy : s.peerRegistry.peers.get y = some q)
    (hne : x ≠ y) : p.id ≠ q.id :=
  fun hid => hne ((reachable_indexed hr).unique hx hy hid)

theorem two_connections_two_ids : ∃ p q,
    Sample.pairRequested.peerRegistry.peers.get (Sample.addr 80) = some p ∧
      Sample.pairRequested.peerRegistry.peers.get (Sample.addr 81) = some q ∧ p.id ≠ q.id := by
  have hreachable : Reachable Sample.sha1 (Sample.peerId 1) Sample.pairMetainfo
      Sample.pairRequested := ⟨_, Sample.run_history Sample.pair_started Sample.pairRequesting⟩
  have hboth : (Sample.pairRequested.peerRegistry.peers.get (Sample.addr 80)).isSome = true ∧
      (Sample.pairRequested.peerRegistry.peers.get (Sample.addr 81)).isSome = true := by
    decide +kernel
  obtain ⟨p, hp⟩ := Option.isSome_iff_exists.mp hboth.1
  obtain ⟨q, hq⟩ := Option.isSome_iff_exists.mp hboth.2
  exact ⟨p, q, hp, hq, one_connection_per_id hreachable hp hq (by decide)⟩

end Swarm

end Tortue
