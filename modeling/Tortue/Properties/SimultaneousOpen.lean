import Tortue.Properties.Duplicates

namespace Tortue

open Collections

inductive Link where
  | c1
  | c2
  deriving DecidableEq

namespace Link

def other : Link → Link
  | c1 => c2
  | c2 => c1

def directionAtFirst : Link → ConnectionDirection
  | c1 => .outbound
  | c2 => .inbound

def directionAtSecond : Link → ConnectionDirection
  | c1 => .inbound
  | c2 => .outbound

end Link

namespace Swarm

open PeerRegistry

structure View where
  remote : PeerId
  direction : Link → ConnectionDirection
  addr : Link → SocketAddr
  extensions : Link → PeerExtensions

namespace View

def announce (v : View) (env : Entropy) (l : Link) : Input × Entropy :=
  (.peerConnected v.remote (v.direction l) (v.addr l) (v.extensions l), env)

def drop (v : View) (kept : Link) (env : Entropy) : Input × Entropy :=
  (.peerDisconnected (v.addr kept.other), env)

structure Holds (v : View) (kept : Link) (s : Swarm) : Prop where
  entry : s.peerRegistry.connectionFor v.remote = some (v.addr kept, v.direction kept)
  peer : s.RegisteredFor v.remote (v.addr kept)
  only : ∀ y, s.RegisteredFor v.remote y → y = v.addr kept

structure Undisturbed (v : View) (kept : Link) (s t : Swarm) : Prop where
  peer : t.peerRegistry.peers.get (v.addr kept) = s.peerRegistry.peers.get (v.addr kept)
  entry : t.peerRegistry.connectionFor v.remote = s.peerRegistry.connectionFor v.remote
  assignments :
    t.blockAssignments.blocksOf (v.addr kept) = s.blockAssignments.blocksOf (v.addr kept)

structure Settles (v : View) (sha1 : Sha1) (s : Swarm) (kept : Link) : Prop where
  holds : ∀ first env env', v.Holds kept
    (History.run (step sha1) s [v.announce env first, v.announce env' first.other]).1
  closes : ∀ first env env', disconnects
    (History.run (step sha1) s [v.announce env first, v.announce env' first.other]).2 =
      [v.addr kept.other]
  late : ∀ first env env' later env'',
    let t := (History.run (step sha1) s
      (v.announce env first :: v.announce env' first.other :: later)).1
    t.peerRegistry.connectionFor v.remote = some (v.addr kept, v.direction kept) →
      v.Undisturbed kept t (step sha1 t (v.drop kept env'')).1
  repeated : ∀ first env env' (envs : List Entropy),
    let t := (History.run (step sha1) s [v.announce env first, v.announce env' first.other]).1
    v.Undisturbed kept t (History.run (step sha1) t (envs.map (v.drop kept))).1

variable {v : View} {sha1 : Sha1} {s : Swarm}

theorem undisturbed_drop (hne : v.addr .c1 ≠ v.addr .c2) {kept : Link} {t : Swarm}
    (ht : t.peerRegistry.connectionFor v.remote = some (v.addr kept, v.direction kept))
    (env : Entropy) : v.Undisturbed kept t (step sha1 t (v.drop kept env)).1 := by
  have hkept : v.addr kept ≠ v.addr kept.other := by
    cases kept
    · exact hne
    · exact hne.symm
  refine ⟨?_, ?_, ?_⟩
  · simp only [drop, step, onDisconnected_peerRegistry, get_disconnected, if_neg hkept]
  · rw [ht]
    exact (disconnected_byId _ _ _ _).mpr ⟨ht, fun h => hkept h.1⟩
  · simp only [drop, step, onDisconnected_blockAssignments,
      BlockAssignments.blocksOf_releasePeer, if_neg hkept]

theorem undisturbed_drops (hne : v.addr .c1 ≠ v.addr .c2) {kept : Link} {t : Swarm}
    (ht : t.peerRegistry.connectionFor v.remote = some (v.addr kept, v.direction kept))
    (envs : List Entropy) :
    v.Undisturbed kept t (History.run (step sha1) t (envs.map (v.drop kept))).1 := by
  refine History.run_invariant (G := fun i => ∃ env, i = v.drop kept env) (fun u i hi hu => ?_)
    ⟨rfl, rfl, rfl⟩ _ (fun i hi => ?_)
  · obtain ⟨env, rfl⟩ := hi
    have hstep : v.Undisturbed kept u (step sha1 u (v.drop kept env)).1 :=
      undisturbed_drop hne (hu.entry.trans ht) env
    exact ⟨hstep.peer.trans hu.peer, hstep.entry.trans hu.entry,
      hstep.assignments.trans hu.assignments⟩
  · obtain ⟨env, -, rfl⟩ := List.mem_map.mp hi
    exact ⟨env, rfl⟩

theorem registered_first (sha1 : Sha1) (hb : s.peerRegistry.connectionFor v.remote = none)
    (env : Entropy) (l : Link) : step sha1 s (v.announce env l) =
      s.register (v.addr l) (v.direction l) v.remote (v.extensions l) := by
  rcases onConnected_cases env s (v.addr l) (v.direction l) v.remote (v.extensions l) with
    ⟨-, hs⟩ | ⟨old, hold, -⟩ | ⟨old, hold, -⟩
  · exact hs
  · rw [connectionFor, hold] at hb
    contradiction
  · rw [connectionFor, hold] at hb
    contradiction

theorem connectionFor_register {x : SocketAddr} {d : ConnectionDirection} {id : PeerId}
    {e : PeerExtensions} :
    (s.register x d id e).1.peerRegistry.connectionFor id = some (x, d) := by
  rw [connectionFor, register_peerRegistry, byId_connected, if_pos rfl]

theorem holds_register (hgone : ∀ y, ¬ s.RegisteredFor v.remote y) (l : Link) :
    v.Holds l (s.register (v.addr l) (v.direction l) v.remote (v.extensions l)).1 where
  entry := connectionFor_register
  peer := registeredFor_register.mpr (.inl rfl)
  only y hy := (registeredFor_register.mp hy).resolve_right (hgone y)

theorem not_registered (hi : Indexed s.peerRegistry)
    (hb : s.peerRegistry.connectionFor v.remote = none) (y : SocketAddr) :
    ¬ s.RegisteredFor v.remote y := by
  rintro ⟨p, hp, hid⟩
  obtain ⟨d, hd⟩ := hi y p hp
  rw [hid, ← connectionFor, hb] at hd
  contradiction

theorem second_announced (hi : Indexed s.peerRegistry)
    (hb : s.peerRegistry.connectionFor v.remote = none)
    (hdir : v.direction .c1 ≠ v.direction .c2) {kept : Link}
    (hkept : v.direction kept = s.preferedDirection v.remote) (first : Link) (env env' : Entropy) :
    v.Holds kept
      (History.run (step sha1) s [v.announce env first, v.announce env' first.other]).1 ∧
    disconnects (History.run (step sha1) s [v.announce env first, v.announce env' first.other]).2 =
      [v.addr kept.other] := by
  have hdiff : v.direction first.other ≠ v.direction first := by
    cases first
    · exact hdir.symm
    · exact hdir
  simp only [History.run, List.append_nil, registered_first sha1 hb, disconnects_append,
    disconnects_register, List.nil_append]
  have hgone : ∀ y, ¬ s.RegisteredFor v.remote y := not_registered hi hb
  have hregistered : (s.register (v.addr first) (v.direction first) v.remote
      (v.extensions first)).1.peerRegistry.connectionFor v.remote =
      some (v.addr first, v.direction first) := connectionFor_register
  have hpref : ∀ id, (s.register (v.addr first) (v.direction first) v.remote
    (v.extensions first)).1.preferedDirection id = s.preferedDirection id := fun _ => rfl
  have hindexed : Indexed (s.register (v.addr first) (v.direction first) v.remote
      (v.extensions first)).1.peerRegistry := by
    have h := indexed_onConnected env hi (v.addr first) (v.direction first) v.remote
      (v.extensions first)
    have hfirst : s.onConnected env (v.addr first) (v.direction first) v.remote
        (v.extensions first) = _ := registered_first sha1 hb env first
    rwa [hfirst] at h
  rcases onConnected_cases env' (s.register (v.addr first) (v.direction first) v.remote
    (v.extensions first)).1 (v.addr first.other) (v.direction first.other) v.remote
    (v.extensions first.other) with ⟨hnone, -⟩ | ⟨old, hold, hd, hs⟩ | ⟨old, hold, hd, hs⟩
  · rw [← connectionFor, hregistered] at hnone
    contradiction
  · rw [← connectionFor, hregistered, Option.some.injEq] at hold
    subst hold
    have hfirst : kept = first := by
      rcases hd with hd | hd
      · exact absurd hd hdiff
      · rw [hpref, ← hkept] at hd
        cases kept <;> cases first <;> first | rfl | exact absurd rfl hd
    subst hfirst
    simp only [announce, step, hs]
    exact ⟨holds_register hgone _, rfl⟩
  · have hold' := hold
    rw [← connectionFor, hregistered, Option.some.injEq] at hold
    subst hold
    have hsecond : kept = first.other := by
      have hd' : v.direction first.other = v.direction kept := by
        rw [hkept, ← hpref]
        by_contra hne
        exact hd (.inr hne)
      cases kept <;> cases first <;>
        first | rfl | exact absurd hd' hdir | exact absurd hd'.symm hdir
    have hother : kept.other = first := by
      rw [hsecond]
      cases first <;> rfl
    simp only [announce, step, hs]
    rw [disconnects_replace, hsecond]
    refine ⟨holds_register ?_ _, ?_⟩
    · rintro y ⟨p, hp, hid⟩
      exact hindexed.gone hold' hp hid
    · rw [← hsecond, hother]

theorem settles (hi : Indexed s.peerRegistry)
    (hb : s.peerRegistry.connectionFor v.remote = none) (hne : v.addr .c1 ≠ v.addr .c2)
    (hdir : v.direction .c1 ≠ v.direction .c2) {kept : Link}
    (hkept : v.direction kept = s.preferedDirection v.remote) : v.Settles sha1 s kept where
  holds first env env' := (second_announced hi hb hdir hkept first env env').1
  closes first env env' := (second_announced hi hb hdir hkept first env env').2
  late _ _ _ _ env'' ht := undisturbed_drop hne ht env''
  repeated first env env' envs :=
    undisturbed_drops hne (second_announced hi hb hdir hkept first env env').1.entry envs

end View

theorem simultaneous_open_agrees (sha1 : Sha1) {a b : PeerId} (hab : a ≠ b) {ma mb : Metainfo}
    {sa sb : Swarm} (ha : Reachable sha1 a ma sa) (hb : Reachable sha1 b mb sb)
    (hna : sa.peerRegistry.connectionFor b = none) (hnb : sb.peerRegistry.connectionFor a = none)
    {addrA addrB : Link → SocketAddr} (hA : addrA .c1 ≠ addrA .c2) (hB : addrB .c1 ≠ addrB .c2)
    (extA extB : Link → PeerExtensions) :
    ∃ kept : Link, View.Settles ⟨b, Link.directionAtFirst, addrA, extA⟩ sha1 sa kept ∧
      View.Settles ⟨a, Link.directionAtSecond, addrB, extB⟩ sha1 sb kept := by
  have hgt : a.gt b = !b.gt a := PeerId.gt_asymm hab
  have hca : sa.clientId = a := reachable_clientId sha1 ha
  have hcb : sb.clientId = b := reachable_clientId sha1 hb
  have hboth : ∃ kept : Link, kept.directionAtFirst = sa.preferedDirection b ∧
      kept.directionAtSecond = sb.preferedDirection a := by
    unfold preferedDirection
    rw [hca, hcb, hgt]
    cases b.gt a with
    | false => exact ⟨.c1, rfl, rfl⟩
    | true => exact ⟨.c2, rfl, rfl⟩
  obtain ⟨kept, hkA, hkB⟩ := hboth
  refine ⟨kept, ?_, ?_⟩
  · exact View.settles (reachable_indexed ha) hna hA ConnectionDirection.noConfusion hkA
  · exact View.settles (reachable_indexed hb) hnb hB ConnectionDirection.noConfusion hkB

theorem fresh_clients_agree : ∃ kept : Link,
    View.Settles ⟨Sample.peerId 2, Link.directionAtFirst,
      fun l => if l = .c1 then Sample.addr 80 else Sample.addr 81, fun _ => Sample.extensions⟩
      Sample.sha1 Sample.swarm kept ∧
    View.Settles ⟨Sample.peerId 1, Link.directionAtSecond,
      fun l => if l = .c1 then Sample.addr 90 else Sample.addr 91, fun _ => Sample.extensions⟩
      Sample.sha1 { Sample.swarm with clientId := Sample.peerId 2 } kept := by
  have hsecond : Reachable Sample.sha1 (Sample.peerId 2) Sample.metainfo
      { Sample.swarm with clientId := Sample.peerId 2 } := History.reachable_start rfl
  refine simultaneous_open_agrees Sample.sha1 ?_ Sample.swarm_reachable hsecond rfl rfl ?_ ?_ _ _
  · decide
  · decide
  · decide

end Swarm

end Tortue
