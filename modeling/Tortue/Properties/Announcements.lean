import Tortue.Domain.Swarm.Announcements

namespace Tortue

open Collections PieceManager

namespace Swarm

open PeerRegistry

variable {sha1 : Sha1} {s : Swarm} {n : Nat}

def AcceptedFrom (x : SocketAddr) (m : Message) (e : Happening) : Prop :=
  e.input.1 = .messageReceived x m ∧ ∃ r, e.before.peerRegistry.apply x m = .ok r

def Announces (n : Nat) (x : SocketAddr) (p : Nat) (e : Happening) : Prop :=
  ∃ m, AcceptedFrom x m e ∧ m.Offers n p

def Forgets (x : SocketAddr) (e : Happening) : Prop :=
  e.before.Leaves x e.input.1 ∨ ∃ m, AcceptedFrom x m e ∧ m.resets = true

theorem unannounced_iff {e : Happening} {x : SocketAddr} {p : Nat} {before : Prop}
    (hno : ∀ m, ¬ AcceptedFrom x m e) :
    ((before ∧ ¬ Forgets x e) ∨ Announces n x p e) ↔
      before ∧ ¬ e.before.Leaves x e.input.1 := by
  constructor
  · rintro (⟨hbefore, hkept⟩ | ⟨m, hm, -⟩)
    · exact ⟨hbefore, fun hleaves => hkept (.inl hleaves)⟩
    · exact absurd hm (hno m)
  · rintro ⟨hbefore, hstays⟩
    refine .inl ⟨hbefore, ?_⟩
    rintro (hleaves | ⟨m, hm, -⟩)
    · exact hstays hleaves
    · exact hno m hm

theorem Enrolment.has_iff {i : Input × Entropy} {r : PeerRegistry} (h : Enrolment s i.1 r)
    (hc : Classified n s.peerRegistry) {p : Nat} (hp : p < n) (x : SocketAddr)
    (outputs : List Output) : r.availability.has p x = true ↔
      (s.peerRegistry.availability.has p x = true ∧ ¬ Forgets x ⟨s, i, outputs⟩) ∨
        Announces n x p ⟨s, i, outputs⟩ := by
  have hother : (∀ m, i.1 ≠ .messageReceived x m) →
      ∀ m, ¬ AcceptedFrom x m (⟨s, i, outputs⟩ : Happening) := fun hne m hm => hne m hm.1
  cases h with
  | keep hquiet hstays hr =>
    rw [unannounced_iff fun m hm => hm.2.elim fun r' => hquiet x m r' hm.1, hr]
    simp [hstays x]
  | message y m hi ha =>
    obtain ⟨-, -, -, -, -, havail⟩ := apply_ok ha
    rw [havail, PieceAvailability.has_recordMessage_iff hc.tidy hp]
    have haccepted : ∀ m', AcceptedFrom x m' (⟨s, i, outputs⟩ : Happening) ↔ x = y ∧ m' = m := by
      intro m'
      constructor
      · rintro ⟨hi', -⟩
        rw [hi, Input.messageReceived.injEq] at hi'
        exact ⟨hi'.1.symm, hi'.2.symm⟩
      · rintro ⟨rfl, rfl⟩
        exact ⟨hi, r, ha⟩
    have hstays : ¬ s.Leaves x i.1 := by
      rw [hi]
      exact fun hleaves => hleaves
    have hforgets : Forgets x ⟨s, i, outputs⟩ ↔ x = y ∧ m.resets = true := by
      simp only [Forgets, haccepted, hstays, false_or]
      exact ⟨fun ⟨m', ⟨hx, hm⟩, hreset⟩ => ⟨hx, hm ▸ hreset⟩, fun ⟨hx, hm⟩ => ⟨m, ⟨hx, rfl⟩, hm⟩⟩
    have hannounces : Announces n x p ⟨s, i, outputs⟩ ↔ x = y ∧ m.Offers n p := by
      simp only [Announces, haccepted]
      exact ⟨fun ⟨m', ⟨hx, hm⟩, hoffers⟩ => ⟨hx, hm ▸ hoffers⟩, fun ⟨hx, hm⟩ => ⟨m, ⟨hx, rfl⟩, hm⟩⟩
    rw [hforgets, hannounces]
  | leave y hi hr =>
    rw [unannounced_iff (hother (by simp [hi])), hr, (disconnected_rest _ y).2.2,
      PieceAvailability.has_removePeer]
    simp only [hi, Leaves]
  | join id d y e hi hstays hr =>
    rw [unannounced_iff (hother (by simp [hi])), hr]
    simp only [hstays x, not_false_eq_true, and_true]
    rfl
  | replace id d y old e hi hleaves hr =>
    rw [unannounced_iff (hother (by simp [hi])), hr]
    simp only [hleaves x]
    have hconnected : ((s.peerRegistry.disconnected old).connected y id d e).availability =
        s.peerRegistry.availability.removePeer old := (disconnected_rest _ old).2.2
    rw [hconnected, PieceAvailability.has_removePeer]

section

variable {clientId : PeerId} {metainfo : Metainfo} {h : Trace}

theorem has_iff_announced (hist : History (step sha1) (Started clientId metainfo) h s)
    {p : Nat} (hp : p < metainfo.pieces.length) (x : SocketAddr) :
    s.peerRegistry.availability.has p x = true ↔
      Since (Announces metainfo.pieces.length x p) (Forgets x) h := by
  induction hist with
  | start hs =>
    rw [(started_fields hs).2.2.2.1]
    simp [PeerRegistry.new, PieceAvailability.new, PieceAvailability.has, Since]
  | next i hist ih =>
    rw [since_cons, ← ih]
    exact (enrolment_step sha1 _ i).has_iff (history_classified hist) hp x _

theorem availability_follows_announcements
    (hist : History (step sha1) (Started clientId metainfo) h s) :
    (∀ x, s.peerRegistry.seeders.contains x = true →
      s.peerRegistry.leechers.contains x = false) ∧
    (∀ x, s.peerRegistry.seeders.contains x = true ∨ s.peerRegistry.leechers.contains x = true →
      s.peerRegistry.containsAddr x = true) ∧
    (∀ p peers, s.peerRegistry.availability.byPiece.get p = some peers →
      0 < peers.len ∧
      ∀ x, peers.contains x = true → s.peerRegistry.containsAddr x = true) ∧
    (∀ p, s.peerRegistry.rarity p = 2 ^ 64 - 1 ∨ ∃ peers,
      s.peerRegistry.availability.byPiece.get p = some peers ∧
      s.peerRegistry.rarity p = peers.len ∧ 1 ≤ peers.len) ∧
    (∀ x, s.peerRegistry.containsAddr x = true → ∀ p < metainfo.pieces.length,
      (s.peerRegistry.availability.has p x = true ↔
        Since (Announces metainfo.pieces.length x p) (Forgets x) h)) ∧
    (∀ x, s.peerRegistry.seeders.contains x = true →
      ∀ p < metainfo.pieces.length, s.peerRegistry.availability.has p x = true) ∧
    ∀ x, s.peerRegistry.leechers.contains x = true →
      ∃ p < metainfo.pieces.length, s.peerRegistry.availability.has p x = false := by
  have hc := history_classified hist
  have ha := reachable_accounted ⟨h, hist⟩
  refine ⟨hc.disjoint, ha.registered, fun p peers hp => ⟨hc.tidy.nonempty p peers hp, ?_⟩, ?_, ?_,
    hc.seeding, hc.leeching⟩
  · intro x hx
    refine ha.registered x (ha.available p x ?_)
    simp only [PieceAvailability.has, hp, hx]
  · intro p
    cases hp : s.peerRegistry.availability.byPiece.get p with
    | none => exact .inl (by simp [PeerRegistry.rarity, PieceAvailability.rarity, hp])
    | some peers =>
      refine .inr ⟨peers, rfl, ?_, hc.tidy.nonempty p peers hp⟩
      simp [PeerRegistry.rarity, PieceAvailability.rarity, hp]
  · exact fun x _ p hp => has_iff_announced hist hp x

theorem have_announced :
    Since (Announces 1 (Sample.addr 80) 0) (Forgets (Sample.addr 80))
      (History.events (step Sample.sha1) Sample.swarm Sample.requesting) := by
  have hall := availability_follows_announcements (Sample.history Sample.requesting)
  have hhas : Sample.requested.peerRegistry.availability.has 0 (Sample.addr 80) = true := by
    decide +kernel
  exact (hall.2.2.2.2.1 _ (by decide +kernel) 0 (by decide)).mp hhas

end

end Swarm

end Tortue
