import Tortue.Adapters.TransferPex
import Tortue.Collections.Enumeration

namespace Tortue

open Collections

namespace Transfer

def Hello (x : Message.Sending) : Prop := ∃ hs, x.2 = .extensionHandshake hs

def Awaits (announced : Bool) : List Message.Sending → Prop
  | [] => announced = false
  | x :: rest => x.2 = .haveAll ∨ Hello x ∧ Awaits announced rest

theorem awaits_append {l : List Message.Sending} (r : List Message.Sending) (h : Awaits true l) :
    Awaits true (l ++ r) := by
  induction l with
  | nil => contradiction
  | cons x l ih => exact h.imp_right fun h => ⟨h.1, ih h.2⟩

theorem awaits_announced {l : List Message.Sending} {x : Message.Sending}
    (r : List Message.Sending) (h : Awaits false l) (hx : x.2 = .haveAll) :
    Awaits true (l ++ x :: r) := by
  induction l with
  | nil => exact .inl hx
  | cons y l ih => exact h.imp_right fun h => ⟨h.1, ih h.2⟩

structure Loyal (id : PeerId) (p : PeerState) : Prop where
  id : p.id = id
  fast : p.fast = true
  bare : p.allowedFast = .empty
  exchanges : p.Exchanges

theorem loyal_new (id : PeerId) {e : PeerExtensions} (h : e.fast = true) :
    Loyal id (.new id e) := ⟨rfl, h, rfl, PeerState.exchanges_new id e⟩

theorem Loyal.apply {id : PeerId} {p : PeerState} (h : Loyal id p) {m : Message}
    (hm : ∀ i, m ≠ .allowedFast i) (hintroduces : m.Introduces) : Loyal id (p.apply m) := by
  refine ⟨(p.apply_id m).trans h.id, ?_, ?_, h.exchanges.apply hintroduces⟩
  · cases m <;> exact h.fast
  · cases m with
    | allowedFast i => exact absurd rfl (hm i)
    | _ => exact h.bare

structure Seeding (s : Swarm) (y : SocketAddr) : Prop where
  complete : s.pieces.isComplete = true
  uploads : s.status.upload = true
  alone : ∀ z p, s.peerRegistry.peers.get z = some p → z = y ∧ p.fast = true ∧ p.Exchanges
  noDangling : s.peerRegistry.NoDangling
  reads : ∀ b read, s.pendingReads.get b = some read → read.peers = HashSet.add .empty y

def outstanding (s : Swarm) (toSeeder toLeecher : List Message.Sending) : List BlockRange :=
  asks toSeeder ++ s.pendingReads.keys ++ brings toLeecher

structure Courtship (v : SessionView) (s : Swarm) (y : SocketAddr)
    (toSeeder toLeecher : List Message.Sending) : Prop where
  known : ∀ p, v.peer = some p → p.peerChoking = false → v.seeds = true
  introduced : v.seeds = true ∨ Awaits (s.peerRegistry.containsAddr y) toLeecher
  courted : ∀ p, v.peer = some p → p.peerChoking = false ∨
    (∃ x ∈ toSeeder, x.2 = .interested) ∨ ∃ x ∈ toLeecher, x.2 = .unchoke

structure Link (m : Metainfo) (content : Bytes) (v : SessionView) (s : Swarm) (y : SocketAddr)
    (toSeeder toLeecher : List Message.Sending) : Prop where
  loyal : ∀ p, v.peer = some p → Loyal s.clientId p
  seeding : Seeding s y
  fromLeecher : ∀ x ∈ toSeeder, FromLeecher m x.2
  fromSeeder : ∀ x ∈ toLeecher, FromSeeder m content x.2
  ledger : Enumerates (outstanding s toSeeder toLeecher) fun b => v.holds b = true
  courtship : Courtship v s y toSeeder toLeecher

variable {m : Metainfo} {content : Bytes} {v : SessionView} {s : Swarm} {y : SocketAddr}
  {toSeeder toLeecher l : List Message.Sending} {x : Message.Sending} {b : BlockRange}
  {r : PeerRegistry} {p : PeerState} {message : Message} {o : IterOrder}

theorem outstanding_asked (s : Swarm) (toSeeder toLeecher l : List Message.Sending) :
    (outstanding s (toSeeder ++ l) toLeecher).Perm
      (outstanding s toSeeder toLeecher ++ asks l) := by
  have hcomm : (asks l ++ (s.pendingReads.keys ++ brings toLeecher)).Perm
      (s.pendingReads.keys ++ brings toLeecher ++ asks l) := List.perm_append_comm
  simpa only [outstanding, asks_append, List.append_assoc] using hcomm.append_left (asks toSeeder)

theorem queued_append {P : Message.Sending → Prop} {queue : List Message.Sending}
    (h : ∃ x ∈ queue, P x) (l : List Message.Sending) : ∃ x ∈ queue ++ l, P x := by
  obtain ⟨x, hx, hp⟩ := h
  exact ⟨x, List.mem_append_left _ hx, hp⟩

theorem Courtship.sends (h : Courtship v s y toSeeder toLeecher) (l : List Message.Sending)
    (holds : BlockRange → Bool) :
    Courtship { v with holds := holds } s y (toSeeder ++ l) toLeecher where
  known := h.known
  introduced := h.introduced
  courted p hp := (h.courted p hp).imp_right (.imp_left fun hasked => queued_append hasked l)

theorem Link.sends (h : Link m content v s y toSeeder toLeecher)
    (hfrom : ∀ x ∈ l, FromLeecher m x.2) (hnodup : (asks l).Nodup)
    (hfresh : ∀ b ∈ asks l, v.holds b = false) {holds : BlockRange → Bool}
    (hholds : ∀ b, holds b = true ↔ v.holds b = true ∨ b ∈ asks l) :
    Link m content { v with holds := holds } s y (toSeeder ++ l) toLeecher where
  loyal := h.loyal
  seeding := h.seeding
  fromLeecher x hx := (List.mem_append.mp hx).elim (h.fromLeecher x) (hfrom x)
  fromSeeder := h.fromSeeder
  ledger := by
    have hmore := h.ledger.append hnodup fun b hb => Bool.eq_false_iff.mp (hfresh b hb)
    exact (hmore.perm (outstanding_asked ..)).congr fun b => (hholds b).symm
  courtship := h.courtship.sends l holds

theorem Link.tells (h : Link m content v s y toSeeder toLeecher)
    (hfrom : ∀ x ∈ l, FromLeecher m x.2) (hasks : asks l = []) :
    Link m content v s y (toSeeder ++ l) toLeecher := by
  have hnone : ∀ b, b ∉ asks l := by
    rw [hasks]
    exact fun b => List.not_mem_nil
  exact h.sends hfrom (hasks ▸ List.nodup_nil) (fun b hb => absurd hb (hnone b))
    fun b => (or_iff_left (hnone b)).symm

theorem loyal_hears {id : PeerId} (h : ∀ p, v.peer = some p → Loyal id p)
    (hm : ∀ i, message ≠ .allowedFast i) (hintroduces : message.Introduces) (p : PeerState)
    (hp : (v.hears message).peer = some p) : Loyal id p := by
  obtain ⟨q, hq, rfl⟩ := Option.map_eq_some_iff.mp hp
  exact (h q hq).apply hm hintroduces

inductive Heard (m : Metainfo) (content : Bytes) (x : Message.Sending) (message : Message) : Prop
  | hello : Hello x → (∃ hs, message = .extensionHandshake hs) → message.Introduces →
      Heard m content x message
  | haveAll : x.2 = .haveAll → message = .haveAll → Heard m content x message
  | interested : x.2 = .interested → message = .interested → Heard m content x message
  | unchoke : x.2 = .unchoke → message = .unchoke → Heard m content x message
  | piece (b : BlockRange) : m.Block b → x.2 = .piece b (window content (position m b) b.len) →
      message = .piece b (window content (position m b) b.len) → Heard m content x message
  | pex (payload : Bytes) : x.2 = .extension utPexExtId payload →
      message = .extension utPexExtId payload → Heard m content x message

theorem introduces_of_same {hs : ExtensionHandshake} {n : Option Nat}
    (h : Message.Same (.extensionHandshake (sessionHandshake n)) (.extensionHandshake hs)) :
    (Message.extensionHandshake hs).Introduces := (h.1 "ut_pex").symm

theorem heard_of_same (h : FromSeeder m content x.2) (hsame : Message.Same x.2 message) :
    Heard m content x message := by
  obtain ⟨o, body⟩ := x
  cases h with
  | hello =>
    cases message with
    | extensionHandshake hs => exact .hello ⟨_, rfl⟩ ⟨hs, rfl⟩ (introduces_of_same hsame)
    | _ => exact absurd hsame (by simp [Message.Same])
  | haveAll => exact .haveAll rfl hsame.symm
  | interested => exact .interested rfl hsame.symm
  | unchoke => exact .unchoke rfl hsame.symm
  | piece hb => exact .piece _ hb rfl hsame.symm
  | pex _ => exact .pex _ rfl hsame.symm

namespace Heard

theorem not_allowedFast (h : Heard m content x message) (i : Nat) : message ≠ .allowedFast i := by
  rcases h with ⟨-, ⟨hs, rfl⟩, -⟩ | ⟨-, rfl⟩ | ⟨-, rfl⟩ | ⟨-, rfl⟩ | ⟨b, -, -, rfl⟩ |
    ⟨d, -, rfl⟩ <;>
    exact nofun

theorem introduces (h : Heard m content x message) : message.Introduces := by
  rcases h with ⟨-, -, h⟩ | ⟨-, rfl⟩ | ⟨-, rfl⟩ | ⟨-, rfl⟩ | ⟨b, -, -, rfl⟩ | ⟨d, -, rfl⟩
  · exact h
  · exact trivial
  · exact trivial
  · exact trivial
  · exact trivial
  · exact trivial

theorem brought (h : Heard m content x message) : x.2.brought = message.brought := by
  rcases h with ⟨⟨hs, hx⟩, ⟨hs', rfl⟩, -⟩ | ⟨hx, rfl⟩ | ⟨hx, rfl⟩ | ⟨hx, rfl⟩ | ⟨b, -, hx, rfl⟩ |
    ⟨d, hx, rfl⟩ <;> simp [hx, Message.brought]

theorem weight (h : Heard m content x message) : x.2.weight = message.weight := by
  rcases h with ⟨⟨hs, hx⟩, ⟨hs', rfl⟩, -⟩ | ⟨hx, rfl⟩ | ⟨hx, rfl⟩ | ⟨hx, rfl⟩ | ⟨b, -, hx, rfl⟩ |
    ⟨d, hx, rfl⟩ <;> simp [hx, Message.weight]

theorem toll (h : Heard m content x message) : x.2.toll = message.toll := by
  rcases h with ⟨⟨hs, hx⟩, ⟨hs', rfl⟩, -⟩ | ⟨hx, rfl⟩ | ⟨hx, rfl⟩ | ⟨hx, rfl⟩ | ⟨b, -, hx, rfl⟩ |
    ⟨d, hx, rfl⟩ <;> simp [hx, Message.toll, Message.isExtension]

theorem haveAll_iff (h : Heard m content x message) : x.2 = .haveAll ↔ message = .haveAll := by
  rcases h with ⟨⟨hs, hx⟩, ⟨hs', rfl⟩, -⟩ | ⟨hx, rfl⟩ | ⟨hx, rfl⟩ | ⟨hx, rfl⟩ | ⟨b, -, hx, rfl⟩ |
    ⟨d, hx, rfl⟩ <;> simp [hx]

theorem unchoke_iff (h : Heard m content x message) : x.2 = .unchoke ↔ message = .unchoke := by
  rcases h with ⟨⟨hs, hx⟩, ⟨hs', rfl⟩, -⟩ | ⟨hx, rfl⟩ | ⟨hx, rfl⟩ | ⟨hx, rfl⟩ | ⟨b, -, hx, rfl⟩ |
    ⟨d, hx, rfl⟩ <;> simp [hx]

theorem opens_iff (h : Heard m content x message) :
    (p.apply message).peerChoking = false ↔ p.peerChoking = false ∨ message = .unchoke := by
  rcases h with ⟨-, ⟨hs, rfl⟩, -⟩ | ⟨-, rfl⟩ | ⟨-, rfl⟩ | ⟨-, rfl⟩ | ⟨b, -, -, rfl⟩ |
    ⟨d, -, rfl⟩ <;>
    simp [PeerState.apply]

end Heard

theorem mem_replies (h : x ∈ message.reply.map (Prod.mk o)) :
    x.2 = .interested ∨ x.2 = .unchoke := by
  obtain ⟨answer, hanswer, rfl⟩ := List.mem_map.mp h
  cases message <;> simp [Message.reply] at hanswer <;> simp [hanswer]

theorem asks_replies (o : IterOrder) (message : Message) :
    asks (message.reply.map (Prod.mk o)) = [] := by
  unfold asks
  rw [List.filterMap_eq_nil_iff]
  intro x hx
  rcases mem_replies hx with h | h <;> rw [h] <;> rfl

theorem brings_replies (o : IterOrder) (message : Message) :
    brings (message.reply.map (Prod.mk o)) = [] := by
  unfold brings
  rw [List.filterMap_eq_nil_iff]
  intro x hx
  rcases mem_replies hx with h | h <;> rw [h] <;> rfl

theorem Courtship.hears (h : Courtship v s y toSeeder (x :: toLeecher))
    (hheard : Heard m content x message) (l : List Message.Sending) :
    Courtship (v.hears message) s y (toSeeder ++ l) toLeecher := by
  have hseeds : v.seeds = true → (v.hears message).seeds = true := fun hv => by
    simp [SessionView.hears, hv]
  refine ⟨fun q hq hopen => ?_, ?_, fun q hq => ?_⟩
  · obtain ⟨p, hp, rfl⟩ := Option.map_eq_some_iff.mp hq
    rcases hheard.opens_iff.mp hopen with hopen | hm
    · exact hseeds (h.known p hp hopen)
    · have hx := hheard.unchoke_iff.mpr hm
      rcases h.introduced with hv | hall | ⟨⟨hs, hello⟩, -⟩
      · exact hseeds hv
      · rw [hx] at hall
        contradiction
      · rw [hx] at hello
        contradiction
  · rcases h.introduced with hv | hall | ⟨-, hrest⟩
    · exact .inl (hseeds hv)
    · obtain rfl := hheard.haveAll_iff.mp hall
      exact .inl (Bool.or_true _)
    · exact .inr hrest
  · obtain ⟨p, hp, rfl⟩ := Option.map_eq_some_iff.mp hq
    rcases h.courted p hp with hopen | ⟨f, hf, hm⟩ | ⟨f, hf, hm⟩
    · exact .inl (hheard.opens_iff.mpr (.inl hopen))
    · exact .inr (.inl ⟨f, List.mem_append_left _ hf, hm⟩)
    · rcases List.mem_cons.mp hf with rfl | hf
      · exact .inl (hheard.opens_iff.mpr (.inr (hheard.unchoke_iff.mp hm)))
      · exact .inr (.inr ⟨f, hf, hm⟩)

theorem outstanding_brought (s : Swarm) (toSeeder toLeecher : List Message.Sending)
    (x : Message.Sending) : (outstanding s toSeeder (x :: toLeecher)).Perm
      (x.2.brought.toList ++ outstanding s toSeeder toLeecher) := by
  have hfront : brings (x :: toLeecher) = x.2.brought.toList ++ brings toLeecher := by
    unfold brings
    cases hx : x.2.brought <;> simp [hx]
  unfold outstanding
  rw [hfront, ← List.append_assoc, ← List.append_assoc]
  exact List.perm_append_comm.append_right _

theorem ledger_hears (h : Enumerates (outstanding s toSeeder (x :: toLeecher))
    fun b => v.holds b = true) (hbrought : x.2.brought = message.brought)
    {l : List Message.Sending} (hasks : asks l = []) :
    Enumerates (outstanding s (toSeeder ++ l) toLeecher) fun b =>
      (v.hears message).holds b = true := by
  have hmoved : (outstanding s (toSeeder ++ l) toLeecher).Perm
      (outstanding s toSeeder toLeecher) := by
    have hasked := outstanding_asked s toSeeder toLeecher l
    rwa [hasks, List.append_nil] at hasked
  have hfront := h.perm (outstanding_brought s toSeeder toLeecher x).symm
  refine Enumerates.perm ?_ hmoved
  cases hm : message.brought with
  | none =>
    rw [hbrought, hm] at hfront
    refine hfront.congr fun b => ?_
    simp [SessionView.hears, hm]
  | some b =>
    rw [hbrought, hm] at hfront
    refine hfront.tail.congr fun b' => ?_
    simp only [SessionView.hears, hm, Bool.and_eq_true, decide_eq_true_eq, ne_eq, Option.some.injEq]
    exact and_congr_right fun _ => not_congr eq_comm

theorem Link.hears (h : Link m content v s y toSeeder (x :: toLeecher))
    (hheard : Heard m content x message) (o : IterOrder) :
    Link m content (v.hears message) s y (toSeeder ++ message.reply.map (Prod.mk o)) toLeecher where
  loyal := loyal_hears h.loyal hheard.not_allowedFast hheard.introduces
  seeding := h.seeding
  fromLeecher f hf := by
    rcases List.mem_append.mp hf with hf | hf
    · exact h.fromLeecher f hf
    · rcases mem_replies hf with hm | hm <;> rw [hm]
      · exact .interested
      · exact .unchoke
  fromSeeder f hf := h.fromSeeder f (List.mem_cons_of_mem _ hf)
  ledger := ledger_hears h.ledger hheard.brought (asks_replies o message)
  courtship := h.courtship.hears hheard _

theorem Link.joins (h : Link m content v s y toSeeder toLeecher) {e : PeerExtensions}
    (he : e.fast = true) (hfree : ∀ b, v.holds b = false) (hfrom : ∀ x ∈ l, FromLeecher m x.2)
    (hasks : asks l = []) (hinterest : ∃ x ∈ l, x.2 = .interested) :
    Link m content ⟨some (.new s.clientId e), v.seeds, fun _ => false⟩ s y (toSeeder ++ l)
      toLeecher where
  loyal p hp := by
    obtain rfl := Option.some.inj hp
    exact loyal_new _ he
  seeding := h.seeding
  fromLeecher := (h.tells hfrom hasks).fromLeecher
  fromSeeder := h.fromSeeder
  ledger := (h.tells hfrom hasks).ledger.congr fun b => by rw [hfree b]
  courtship := by
    obtain ⟨f, hf, hm⟩ := hinterest
    refine ⟨fun p hp hopen => ?_, h.courtship.introduced, fun p hp => ?_⟩
    · obtain rfl := Option.some.inj hp
      contradiction
    · exact .inr (.inl ⟨f, List.mem_append_right _ hf, hm⟩)

theorem Seeding.register (h : Seeding s y) (hnone : s.peerRegistry.containsAddr y = false)
    (d : ConnectionDirection) (id : PeerId) {e : PeerExtensions} (he : e.fast = true) :
    Seeding (s.register y d id e).1 y := by
  have hfree : s.peerRegistry.peers.get y = none := by
    simpa [PeerRegistry.containsAddr, HashMap.contains] using hnone
  refine ⟨h.complete, h.uploads, fun z p hp => ?_, ?_, h.reads⟩
  · rw [Swarm.register_peerRegistry, PeerRegistry.get_connected] at hp
    split_ifs at hp with hz
    · obtain rfl := Option.some.inj hp
      exact ⟨hz, he, PeerState.exchanges_new id e⟩
    · exact h.alone z p hp
  · rw [Swarm.register_peerRegistry]
    refine (PeerRegistry.noDangling_connected_iff h.noDangling y id d e).mpr fun id' d' hb => ?_
    obtain ⟨p, hp, -⟩ := h.noDangling id' y d' hb
    rw [hfree] at hp
    contradiction

theorem Link.announces (h : Link m content v s y toSeeder toLeecher)
    (hnone : s.peerRegistry.containsAddr y = false) (d : ConnectionDirection) (id : PeerId)
    {e : PeerExtensions} (he : e.fast = true) (o : IterOrder) :
    Link m content v (s.register y d id e).1 y toSeeder
      (toLeecher ++ [(o, .haveAll), (o, .interested)]) where
  loyal := h.loyal
  seeding := h.seeding.register hnone d id he
  fromLeecher := h.fromLeecher
  fromSeeder x hx := by
    rcases List.mem_append.mp hx with hx | hx
    · exact h.fromSeeder x hx
    · rcases List.mem_pair.mp hx with rfl | rfl
      · exact .haveAll
      · exact .interested
  ledger := by
    have hsame : outstanding (s.register y d id e).1 toSeeder
        (toLeecher ++ [(o, .haveAll), (o, .interested)]) = outstanding s toSeeder toLeecher := by
      unfold outstanding
      rw [brings_append]
      simp [brings, Message.brought, Swarm.register]
    exact hsame ▸ h.ledger
  courtship := by
    have hopen := Swarm.contains_register s y d id e
    refine ⟨h.courtship.known, h.courtship.introduced.imp_right fun hwait => ?_, fun p hp => ?_⟩
    · rw [hnone] at hwait
      rw [hopen]
      exact awaits_announced _ hwait rfl
    · exact (h.courtship.courted p hp).imp_right (.imp_right fun hsent => queued_append hsent _)

theorem PeerState.apply_fast (p : PeerState) (m : Message) : (p.apply m).fast = p.fast := by
  cases m <;> rfl

theorem Seeding.apply (h : Seeding s y) (hintroduces : message.Introduces)
    (ha : s.peerRegistry.apply y message = .ok r) : Seeding { s with peerRegistry := r } y := by
  obtain ⟨p, hp, -, hpeers, -, -⟩ := PeerRegistry.apply_ok ha
  refine ⟨h.complete, h.uploads, fun z q hq => ?_, PeerRegistry.noDangling_apply h.noDangling ha,
    h.reads⟩
  have hget : (s.peerRegistry.peers.insert y (p.apply message)).get z = some q := hpeers ▸ hq
  rw [HashMap.get_insert] at hget
  split_ifs at hget with hz
  · obtain rfl := Option.some.inj hget
    obtain ⟨-, hfast, hexchanges⟩ := h.alone y p hp
    exact ⟨hz, (PeerState.apply_fast p message).trans hfast, hexchanges.apply hintroduces⟩
  · exact h.alone z q hget

structure Told (x : Message.Sending) (message : Message) : Prop where
  handled : message.light = true ∨ ∃ payload, message = .extension utPexExtId payload
  introduces : message.Introduces
  asked : x.2.asked = none
  weight : x.2.weight = message.weight
  toll : x.2.toll = message.toll
  interested : x.2 = .interested → message = .interested

theorem told_of_same (h : FromLeecher m x.2) (hsame : Message.Same x.2 message) :
    (∃ b, m.Block b ∧ x.2 = .request b ∧ message = .request b) ∨ Told x message := by
  obtain ⟨o, body⟩ := x
  cases h with
  | hello =>
    cases message with
    | extensionHandshake hs =>
      exact .inr ⟨.inl rfl, introduces_of_same hsame, rfl, rfl, rfl, nofun⟩
    | _ => exact absurd hsame (by simp [Message.Same])
  | request hb => exact .inl ⟨_, hb, rfl, hsame.symm⟩
  | pex hsize =>
    obtain rfl : _ = message := hsame
    exact .inr ⟨.inr ⟨_, rfl⟩, trivial, rfl, rfl, rfl, nofun⟩
  | _ =>
    obtain rfl : _ = message := hsame
    exact .inr ⟨.inl rfl, trivial, rfl, rfl, rfl, id⟩

theorem outstanding_told (s : Swarm) (toSeeder toLeecher : List Message.Sending)
    (hx : x.2.asked = none) (hl : brings l = []) :
    outstanding s toSeeder (toLeecher ++ l) = outstanding s (x :: toSeeder) toLeecher := by
  unfold outstanding
  rw [brings_append, hl, List.append_nil]
  simp [asks, hx]

theorem Link.told (h : Link m content v s y (x :: toSeeder) toLeecher) (htold : Told x message)
    (ha : s.peerRegistry.apply y message = .ok r) (o : IterOrder) :
    Link m content v { s with peerRegistry := r } y toSeeder
      (toLeecher ++ message.reply.map (Prod.mk o)) where
  loyal := h.loyal
  seeding := h.seeding.apply htold.introduces ha
  fromLeecher f hf := h.fromLeecher f (List.mem_cons_of_mem _ hf)
  fromSeeder f hf := by
    rcases List.mem_append.mp hf with hf | hf
    · exact h.fromSeeder f hf
    · rcases mem_replies hf with hm | hm <;> rw [hm]
      · exact .interested
      · exact .unchoke
  ledger := by
    have hsame := outstanding_told s toSeeder toLeecher htold.asked (brings_replies o message)
    exact hsame ▸ h.ledger
  courtship := by
    have hopen : r.containsAddr y = true := Swarm.contains_of_apply ha
    have hwas : s.peerRegistry.containsAddr y = true :=
      (PeerRegistry.apply_contains ha y).symm.trans hopen
    refine ⟨h.courtship.known, h.courtship.introduced.imp_right fun hwait => ?_, fun p hp => ?_⟩
    · rw [hwas] at hwait
      rw [hopen]
      exact awaits_append _ hwait
    · rcases h.courtship.courted p hp with hq | ⟨f, hf, hm⟩ | ⟨f, hf, hm⟩
      · exact .inl hq
      · rcases List.mem_cons.mp hf with rfl | hf
        · obtain rfl := htold.interested hm
          exact .inr (.inr ⟨(o, .unchoke), List.mem_append_right _ (List.mem_singleton_self _),
            rfl⟩)
        · exact .inr (.inl ⟨f, hf, hm⟩)
      · exact .inr (.inr ⟨f, List.mem_append_left _ hf, hm⟩)

theorem keys_insert (reads : HashMap BlockRange PendingRead) (b : BlockRange) (read : PendingRead) :
    (reads.insert b read).keys = b :: (reads.remove b).keys := rfl

theorem keys_remove {reads : HashMap BlockRange PendingRead} {read : PendingRead}
    (h : reads.get b = some read) : reads.keys.Perm (b :: (reads.remove b).keys) :=
  (HashMap.entries_perm h).map Prod.fst

theorem outstanding_request (s : Swarm) (toSeeder toLeecher : List Message.Sending)
    (hx : x.2 = .request b) : outstanding s (x :: toSeeder) toLeecher =
      b :: outstanding s toSeeder toLeecher := by
  simp [outstanding, asks, hx, Message.asked]

theorem Link.unread (h : Link m content v s y (x :: toSeeder) toLeecher) (hx : x.2 = .request b) :
    s.pendingReads.get b = none := by
  have hnodup := h.ledger.nodup
  rw [outstanding_request s toSeeder toLeecher hx] at hnodup
  have hfresh := (List.nodup_cons.mp hnodup).1
  cases hget : s.pendingReads.get b with
  | none => rfl
  | some read =>
    have hkey : b ∈ s.pendingReads.keys :=
      HashMap.mem_keys_iff.mpr (HashMap.contains_iff.mpr ⟨read, hget⟩)
    exact absurd (List.mem_append_left _ (List.mem_append_right _ hkey)) hfresh

theorem Link.asked (h : Link m content v s y (x :: toSeeder) toLeecher) (hx : x.2 = .request b)
    (ha : s.peerRegistry.apply y (.request b) = .ok r) (id : UploadReadId) (next : Nat) :
    Link m content v { s with
      peerRegistry := r
      nextUploadReadId := next
      pendingReads := s.pendingReads.insert b ⟨id, HashSet.add .empty y⟩ }
      y toSeeder toLeecher where
  loyal := h.loyal
  seeding := by
    have hquiet : (Message.request b).Introduces := trivial
    have happlied := h.seeding.apply hquiet ha
    refine ⟨happlied.complete, happlied.uploads, happlied.alone, happlied.noDangling,
      fun b' read hread => ?_⟩
    rw [HashMap.get_insert] at hread
    split_ifs at hread with hb
    · obtain rfl := Option.some.inj hread
      rfl
    · exact h.seeding.reads b' read hread
  fromLeecher f hf := h.fromLeecher f (List.mem_cons_of_mem _ hf)
  fromSeeder := h.fromSeeder
  ledger := by
    refine h.ledger.perm ?_
    rw [outstanding_request s toSeeder toLeecher hx]
    unfold outstanding
    rw [keys_insert, HashMap.remove_of_get_none (h.unread hx), List.append_assoc, List.append_assoc]
    exact List.perm_middle
  courtship := by
    have hopen : r.containsAddr y = s.peerRegistry.containsAddr y :=
      PeerRegistry.apply_contains ha y
    refine ⟨h.courtship.known, ?_, fun p hp => ?_⟩
    · rw [hopen]
      exact h.courtship.introduced
    · rcases h.courtship.courted p hp with hq | ⟨f, hf, hm⟩ | hf
      · exact .inl hq
      · rcases List.mem_cons.mp hf with rfl | hf
        · rw [hx] at hm
          contradiction
        · exact .inr (.inl ⟨f, hf, hm⟩)
      · exact .inr (.inr hf)

theorem outstanding_read (toSeeder toLeecher : List Message.Sending) {read : PendingRead}
    (hread : s.pendingReads.get b = some read) :
    (asks toSeeder ++ (s.pendingReads.remove b).keys ++ (brings toLeecher ++ [b])).Perm
      (outstanding s toSeeder toLeecher) := by
  have hlast : ((s.pendingReads.remove b).keys ++ (brings toLeecher ++ [b])).Perm
      (b :: (s.pendingReads.remove b).keys ++ brings toLeecher) := by
    rw [← List.append_assoc]
    exact List.perm_append_singleton ..
  have hkeys := (keys_remove hread).symm.append_right (brings toLeecher)
  unfold outstanding
  rw [List.append_assoc, List.append_assoc]
  exact (hlast.trans hkeys).append_left _

theorem Link.served (h : Link m content v s y toSeeder toLeecher) {read : PendingRead}
    (hreg : s.peerRegistry.containsAddr y = true)
    (hread : s.pendingReads.get b = some read) (hb : m.Block b) (o : IterOrder) (uploaded : Nat) :
    Link m content v { s with
      pendingReads := s.pendingReads.remove b
      uploadedBytes := uploaded } y toSeeder
      (toLeecher ++ [(o, .piece b (window content (position m b) b.len))]) where
  loyal := h.loyal
  seeding := by
    refine ⟨h.seeding.complete, h.seeding.uploads, h.seeding.alone, h.seeding.noDangling,
      fun b' read' hread' => ?_⟩
    exact h.seeding.reads b' read' (Swarm.get_remove_some hread').1
  fromLeecher := h.fromLeecher
  fromSeeder f hf := by
    rcases List.mem_append.mp hf with hf | hf
    · exact h.fromSeeder f hf
    · obtain rfl := List.mem_singleton.mp hf
      exact .piece hb
  ledger := by
    refine h.ledger.perm ?_
    have hbrings : brings (toLeecher ++
        [(o, Message.piece b (window content (position m b) b.len))]) =
        brings toLeecher ++ [b] := by
      rw [brings_append]
      rfl
    have hmoved := outstanding_read toSeeder toLeecher hread
    rw [← hbrings] at hmoved
    exact hmoved
  courtship := by
    refine ⟨h.courtship.known, h.courtship.introduced.imp_right fun hwait => ?_, fun p hp => ?_⟩
    · rw [hreg] at hwait
      rw [hreg]
      exact awaits_append _ hwait
    · exact (h.courtship.courted p hp).imp_right (.imp_right fun hsent => queued_append hsent _)

def Pex (l : List Message.Sending) : Prop := ∀ x ∈ l, ∃ payload : Bytes,
  x.2 = .extension utPexExtId payload ∧ payload.length + 2 ≤ Message.maxMessageSize

namespace Pex

theorem weightless (h : Pex l) : weigh l = 0 := by
  unfold weigh
  rw [List.sum_eq_zero_iff_forall_eq_nat]
  intro n hn
  obtain ⟨x, hx, rfl⟩ := List.mem_map.mp hn
  obtain ⟨payload, hm, -⟩ := h x hx
  rw [hm]
  rfl

theorem asks (h : Pex l) : Transfer.asks l = [] := by
  refine List.filterMap_eq_nil_iff.mpr fun x hx => ?_
  obtain ⟨payload, hm, -⟩ := h x hx
  rw [hm]
  rfl

theorem brings (h : Pex l) : Transfer.brings l = [] := by
  refine List.filterMap_eq_nil_iff.mpr fun x hx => ?_
  obtain ⟨payload, hm, -⟩ := h x hx
  rw [hm]
  rfl

theorem fromLeecher (h : Pex l) : ∀ x ∈ l, FromLeecher m x.2 := by
  intro x hx
  obtain ⟨payload, hm, hsize⟩ := h x hx
  rw [hm]
  exact .pex hsize

end Pex

theorem Link.shares (h : Link m content v s y toSeeder toLeecher) (hl : Pex l)
    (hreg : l ≠ [] → s.peerRegistry.containsAddr y = true) :
    Link m content v s y toSeeder (toLeecher ++ l) where
  loyal := h.loyal
  seeding := h.seeding
  fromLeecher := h.fromLeecher
  fromSeeder f hf := by
    rcases List.mem_append.mp hf with hf | hf
    · exact h.fromSeeder f hf
    · obtain ⟨payload, hm, hsize⟩ := hl f hf
      rw [hm]
      exact .pex hsize
  ledger := by
    have hsame : outstanding s toSeeder (toLeecher ++ l) = outstanding s toSeeder toLeecher := by
      unfold outstanding
      rw [brings_append, hl.brings, List.append_nil]
    exact hsame ▸ h.ledger
  courtship := by
    refine ⟨h.courtship.known, h.courtship.introduced.imp_right fun hwait => ?_, fun p hp => ?_⟩
    · by_cases hnone : l = []
      · rwa [hnone, List.append_nil]
      · rw [hreg hnone] at hwait ⊢
        exact awaits_append _ hwait
    · exact (h.courtship.courted p hp).imp_right (.imp_right fun hsent => queued_append hsent _)

end Transfer

end Tortue
