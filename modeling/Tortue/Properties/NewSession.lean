import Tortue.Domain.Swarm.Accounts

namespace Tortue

open Collections

namespace PeerRegistry

theorem heard_connected {r : PeerRegistry} {x y : SocketAddr} {id : PeerId}
    {d : ConnectionDirection} {e : PeerExtensions} :
    (r.connected x id d e).Heard y ↔ r.Heard y := Iff.rfl

end PeerRegistry

namespace Swarm

open PeerRegistry

variable {sha1 : Sha1} {env : Entropy} {s : Swarm}

structure Clean (s : Swarm) (x : SocketAddr) (id : PeerId) : Prop where
  available : ∀ p, s.peerRegistry.availability.has p x = false
  seeding : s.peerRegistry.seeders.contains x = false
  leeching : s.peerRegistry.leechers.contains x = false
  unassigned : ∀ b, s.blockAssignments.isHolder b x = false
  unread : ∀ range read, s.pendingReads.get range = some read → read.peers.contains x = false
  owner : ∀ id', (∃ d, s.peerRegistry.connectionFor id' = some (x, d)) ↔ id' = id

def ReplacesAt (s : Swarm) (x : SocketAddr) (d : ConnectionDirection) (id : PeerId) : Prop :=
  (∃ d', s.peerRegistry.connectionFor id = some (x, d')) ∧ ¬ s.Refused d id

structure FreshAt (s : Swarm) (x : SocketAddr) (d : ConnectionDirection) (id : PeerId) :
    Prop where
  owners : ∀ id' d', s.peerRegistry.connectionFor id' = some (x, d') →
    id' = id ∨ (s.ReplacesAt x d id ∧ s.RegisteredFor id' x)
  silent : s.Refused d id → ¬ s.peerRegistry.Heard x

theorem clean_iff (ha : Accounted s) (hi : Indexed s.peerRegistry) {id : PeerId} {x : SocketAddr}
    (hreg : s.RegisteredFor id x) :
    Clean s x id ↔ ¬ s.peerRegistry.Heard x ∧
      ∀ id' d, s.peerRegistry.connectionFor id' = some (x, d) → id' = id := by
  constructor
  · intro h
    refine ⟨?_, fun id' d hd => (h.owner id').mp ⟨d, hd⟩⟩
    rintro (hs | hl)
    · rw [h.seeding] at hs
      contradiction
    · rw [h.leeching] at hl
      contradiction
  · rintro ⟨hsilent, howner⟩
    refine ⟨fun p => ?_, ?_, ?_, fun b => ?_, fun range read hget => ?_, fun id' => ⟨?_, ?_⟩⟩
    · exact Bool.eq_false_iff.mpr fun h => hsilent (ha.available p x h)
    · exact Bool.eq_false_iff.mpr fun h => hsilent (.inl h)
    · exact Bool.eq_false_iff.mpr fun h => hsilent (.inr h)
    · exact Bool.eq_false_iff.mpr fun h => hsilent (ha.assigned b x h)
    · exact Bool.eq_false_iff.mpr fun h => hsilent (ha.reading range x ⟨read, hget, h⟩)
    · rintro ⟨d, hd⟩
      exact howner id' d hd
    · rintro rfl
      obtain ⟨p, hp, hid⟩ := hreg
      exact hid ▸ hi x p hp

theorem unheard_of_unowned (ha : Accounted s) (hi : Indexed s.peerRegistry) {x : SocketAddr}
    (h : ∀ id d, s.peerRegistry.connectionFor id ≠ some (x, d)) : ¬ s.peerRegistry.Heard x := by
  intro hheard
  obtain ⟨p, hp⟩ := HashMap.contains_iff.mp (ha.registered x hheard)
  obtain ⟨d, hd⟩ := hi x p hp
  exact h p.id d hd

section

variable {s : Swarm} {id : PeerId} {d : ConnectionDirection} {x : SocketAddr} {e : PeerExtensions}

theorem clean_registered_iff (ha : Accounted s) (hi : Indexed s.peerRegistry)
    (hb : s.peerRegistry.byId.get id = none) :
    (¬ (s.register x d id e).1.peerRegistry.Heard x ∧
      ∀ id' d', (s.register x d id e).1.peerRegistry.connectionFor id' = some (x, d') → id' = id) ↔
        s.FreshAt x d id := by
  simp only [register_peerRegistry, heard_connected, connectionFor, byId_connected]
  constructor
  · rintro ⟨hsilent, howner⟩
    refine ⟨fun id' d' hd' => ?_, fun _ => hsilent⟩
    by_cases hid : id' = id
    · exact .inl hid
    · exact .inl (howner id' d' (by rw [if_neg hid]; exact hd'))
  · rintro ⟨howners, -⟩
    have hnone : ∀ id' d', s.peerRegistry.connectionFor id' ≠ some (x, d') := by
      intro id' d' hd'
      rcases howners id' d' hd' with rfl | ⟨⟨⟨d'', hd''⟩, -⟩, -⟩
      · rw [connectionFor, hb] at hd'
        contradiction
      · rw [connectionFor, hb] at hd''
        contradiction
    refine ⟨unheard_of_unowned ha hi hnone, fun id' d' hd' => ?_⟩
    by_contra hid
    rw [if_neg hid] at hd'
    exact hnone id' d' hd'

theorem clean_refused_iff (hrefused : s.Refused d id) :
    (¬ s.peerRegistry.Heard x ∧
      ∀ id' d', s.peerRegistry.connectionFor id' = some (x, d') → id' = id) ↔
        s.FreshAt x d id := by
  constructor
  · rintro ⟨hsilent, howner⟩
    exact ⟨fun id' d' hd' => .inl (howner id' d' hd'), fun _ => hsilent⟩
  · rintro ⟨howners, hsilent⟩
    refine ⟨hsilent hrefused, fun id' d' hd' => ?_⟩
    exact (howners id' d' hd').resolve_right fun h => h.1.2 hrefused

theorem clean_replaced_iff (env : Entropy) (ha : Accounted s) (hi : Indexed s.peerRegistry)
    {old : SocketAddr × ConnectionDirection} (hb : s.peerRegistry.byId.get id = some old)
    (haccepted : ¬ s.Refused d id) :
    (¬ ((s.onDisconnected env old.1).1.register x d id e).1.peerRegistry.Heard x ∧
      ∀ id' d', ((s.onDisconnected env old.1).1.register x d id e).1.peerRegistry.connectionFor
        id' = some (x, d') → id' = id) ↔ s.FreshAt x d id := by
  simp only [register_peerRegistry, heard_connected, connectionFor, byId_connected,
    onDisconnected_peerRegistry, heard_disconnected]
  constructor
  · rintro ⟨-, howner⟩
    refine ⟨fun id' d' hd' => ?_, fun h => absurd h haccepted⟩
    by_contra hnot
    rw [not_or] at hnot
    refine hnot.1 (howner id' d' ?_)
    rw [if_neg hnot.1]
    refine (disconnected_byId _ _ _ _).mpr ⟨hd', ?_⟩
    rintro ⟨hx, hp⟩
    have hx' : x = old.1 := hx
    subst hx'
    exact hnot.2 ⟨⟨⟨old.2, hb⟩, haccepted⟩, hp⟩
  · rintro ⟨howners, -⟩
    constructor
    · rintro ⟨hheard, hne⟩
      refine unheard_of_unowned ha hi (fun id' d' hd' => ?_) hheard
      rcases howners id' d' hd' with rfl | ⟨⟨⟨d'', hd''⟩, -⟩, -⟩
      · rw [connectionFor, hb, Option.some.injEq] at hd'
        exact hne (by rw [hd'])
      · rw [connectionFor, hb, Option.some.injEq] at hd''
        exact hne (by rw [hd''])
    · intro id' d' hd'
      by_contra hid
      rw [if_neg hid] at hd'
      obtain ⟨hbefore, hkept⟩ := (disconnected_byId _ _ _ _).mp hd'
      rcases howners id' d' hbefore with heq | ⟨⟨⟨d'', hd''⟩, -⟩, hp⟩
      · exact hid heq
      · rw [connectionFor, hb, Option.some.injEq] at hd''
        have hold : old.1 = x := by rw [hd'']
        exact hkept ⟨hold.symm, hold ▸ hp⟩

end

theorem new_session_clean_iff (sha1 : Sha1) (env : Entropy) {clientId : PeerId}
    {metainfo : Metainfo} {s : Swarm} (hr : Reachable sha1 clientId metainfo s) (id : PeerId)
    (d : ConnectionDirection) (x : SocketAddr) (e : PeerExtensions)
    (hreg : (step sha1 s (.peerConnected id d x e, env)).1.RegisteredFor id x) :
    Clean (step sha1 s (.peerConnected id d x e, env)).1 x id ↔ s.FreshAt x d id := by
  have ha : Accounted s := reachable_accounted hr
  have hi : Indexed s.peerRegistry := reachable_indexed hr
  have hr' := hr.next (.peerConnected id d x e, env)
  rw [clean_iff (reachable_accounted hr') (reachable_indexed hr') hreg]
  simp only [step]
  rcases onConnected_cases env s x d id e with ⟨hb, hs⟩ | ⟨old, hb, hd, hs⟩ | ⟨old, hb, hd, hs⟩ <;>
    rw [hs]
  · exact clean_registered_iff ha hi hb
  · exact clean_refused_iff ⟨old, hb, hd⟩
  · exact clean_replaced_iff env ha hi hb (not_refused s hb hd)

end Swarm

namespace Sample

def ending : List (Input × Entropy) := requesting ++ [(.peerDisconnected (addr 80), env)]

def ended : Swarm := (History.run (Swarm.step sha1) swarm ending).1

theorem ended_byId (id : PeerId) : ended.peerRegistry.byId.get id = none := by
  have hlen : ended.peerRegistry.byId.len = 0 := by decide +kernel
  have hnone := HashMap.contains_eq_false_of_len_eq_zero hlen id
  rwa [HashMap.contains, Option.isSome_eq_false_iff, Option.isNone_iff_eq_none] at hnone

end Sample

namespace Swarm

open PeerRegistry

theorem session_after_ended_clean :
    Sample.requested.RegisteredFor (Sample.peerId 2) (Sample.addr 80) ∧
      Sample.requested.blockAssignments.isHolder ⟨0, 0, 2⟩ (Sample.addr 80) = true ∧
      Clean (step Sample.sha1 Sample.ended (Sample.connect 3 .outbound 80)).1 (Sample.addr 80)
        (Sample.peerId 3) := by
  have hreachable : Reachable Sample.sha1 (Sample.peerId 1) Sample.metainfo Sample.ended :=
    ⟨_, Sample.history Sample.ending⟩
  have hreg : (step Sample.sha1 Sample.ended (Sample.connect 3 .outbound 80)).1.RegisteredFor
      (Sample.peerId 3) (Sample.addr 80) :=
    ⟨PeerState.new (Sample.peerId 3) Sample.extensions, by decide +kernel, rfl⟩
  refine ⟨?_, by decide +kernel, (new_session_clean_iff Sample.sha1 Sample.env hreachable
    (Sample.peerId 3) .outbound (Sample.addr 80) Sample.extensions hreg).mpr
      ⟨fun id' d' hd' => ?_, ?_⟩⟩
  · have hpeer : (Sample.requested.peerRegistry.peers.get (Sample.addr 80)).any (fun p =>
        decide (p.id = Sample.peerId 2)) = true := by decide +kernel
    obtain ⟨p, hp, hid⟩ := (Option.any_eq_true _ _).mp hpeer
    exact ⟨p, hp, of_decide_eq_true hid⟩
  · rw [connectionFor, Sample.ended_byId] at hd'
    contradiction
  · rintro ⟨old, hold, -⟩
    rw [connectionFor, Sample.ended_byId] at hold
    contradiction

theorem stale_availability_after_reconnect :
    ¬ ∀ sha1 clientId metainfo s, Reachable sha1 clientId metainfo s → ∀ env id d x e,
      (step sha1 s (.peerConnected id d x e, env)).1.RegisteredFor id x →
        Clean (step sha1 s (.peerConnected id d x e, env)).1 x id := by
  intro hall
  have hr := (Sample.swarm_reachable.next (Sample.connect 2 .outbound 80)).next
    (.messageReceived (Sample.addr 80) (.havePiece 0), Sample.env)
  have hclean := hall _ _ _ _ hr Sample.env (Sample.peerId 3) .outbound (Sample.addr 80)
    Sample.extensions
    ⟨PeerState.new (Sample.peerId 3) Sample.extensions, by decide +kernel, rfl⟩
  have havailable := hclean.available 0
  revert havailable
  decide +kernel

end Swarm

end Tortue
