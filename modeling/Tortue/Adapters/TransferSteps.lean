import Mathlib.Algebra.BigOperators.Group.Finset.Basic
import Tortue.Adapters.TransferLeecher
import Tortue.Adapters.TransferSeeders

namespace Tortue

open Collections

namespace Transfer

variable {ι : Type} {sha1 : Sha1} {m : Metainfo} {content : Bytes} {disk : ι → List OutputFile}
  {t : Topology ι} {e : Transfer ι} {l : Swarm} {toLeecher : ι → List Message.Sending} {i : ι}
  {env : Entropy} {o : IterOrder} {r : PeerRegistry} {message : Message} {x : SocketAddr}
  {f : Message.Sending} {q : Swarm × List Output} {news : List Message.Sending}

structure Running (sha1 : Sha1) (m : Metainfo) (content : Bytes) (t : Topology ι)
    (e : Transfer ι) : Prop where
  leeching : Leeching sha1 m content e.leecher
  known : ∀ z p, e.leecher.peerRegistry.peers.get z = some p → ∃ i, z = t.addr i
  busy : Busy e.leecher
  identities : Function.Injective fun i => (e.seeders i).clientId
  reachable : ∀ i, ∃ clientId, Swarm.Reachable sha1 clientId m (e.seeders i)
  links : ∀ i, Link m content (e.leecher.view (t.addr i)) (e.seeders i) (t.own i) (e.toSeeder i)
    (e.toLeecher i)

structure LeecherTurn (sha1 : Sha1) (m : Metainfo) (content : Bytes) (t : Topology ι)
    (e : Transfer ι) (toLeecher : ι → List Message.Sending) (paid : ι → Nat) (o : IterOrder)
    (q : Swarm × List Output) : Prop where
  leeching : Leeching sha1 m content q.1
  known : ∀ z p, q.1.peerRegistry.peers.get z = some p → ∃ i, z = t.addr i
  busy : Busy q.1
  links : ∀ i, Link m content (q.1.view (t.addr i)) (e.seeders i) (t.own i)
    (e.toSeeder i ++ sent o (t.addr i) q.2) (toLeecher i)
  gains : Gains m content e.leecher.pieces q.1.pieces (q.2.filterMap Output.written)
  stays : q.1.pieces.isComplete = false → disconnects q.2 = []
  falls : ∀ i, dues q.1 (t.addr i) + weigh (sent o (t.addr i) q.2) + weigh (toLeecher i) + paid i ≤
    dues e.leecher (t.addr i) + weigh (e.toLeecher i)

theorem Running.bare (h : Running sha1 m content t e) {z : SocketAddr} {p : PeerState}
    (hp : e.leecher.peerRegistry.peers.get z = some p) : p.allowedFast = .empty := by
  obtain ⟨i, rfl⟩ := h.known z p hp
  exact ((h.links i).loyal p hp).bare

theorem written_plan (env : Entropy) (s : Swarm) :
    (s.plan env).2.filterMap Output.written = [] := by
  rw [List.filterMap_eq_nil_iff]
  intro out hout
  obtain ⟨z, rfl | ⟨b, rfl⟩⟩ := (Swarm.plan_granted env s).messages out hout <;> rfl

theorem gains_nothing (pm : PieceManager) : Gains m content pm pm [] :=
  .inl ⟨rfl, fun _ => Iff.rfl⟩

theorem leecher_plans (h : Running sha1 m content t e) (env : Entropy) :
    LeecherTurn sha1 m content t e e.toLeecher (fun _ => 0) env.order
      (e.leecher.step sha1 (.tick .block, env)) := by
  have hstep : e.leecher.step sha1 (.tick .block, env) = e.leecher.plan env := rfl
  obtain ⟨clientId, hreachable⟩ := h.leeching.reachable
  have hpieces := Swarm.plan_pieces env e.leecher
  have hregistry := Swarm.plan_peerRegistry env e.leecher
  have hstatus : (e.leecher.plan env).1.status = e.leecher.status := by
    obtain ⟨a, ha⟩ := Swarm.plan_fst env e.leecher
    rw [ha]
  rw [hstep]
  refine ⟨⟨⟨clientId, hreachable.next (.tick .block, env)⟩, ?_, ?_, ?_⟩, ?_, ?_, fun i => ?_, ?_,
    fun _ => plan_stays env e.leecher, fun i => ?_⟩
  · rw [hregistry]
    exact h.leeching.noDangling
  · rw [hpieces]
    exact h.leeching.matching
  · rw [hstatus]
    exact h.leeching.downloads
  · rw [hregistry]
    exact h.known
  · exact plan_busy h.leeching.downloads (fun _ _ => h.bare) env
  · exact (h.links i).plans (fun _ => h.leeching.planned_block) env.order env
  · rw [hpieces, written_plan]
    exact gains_nothing _
  · exact Nat.add_le_add_right (plan_dues env.order env e.leecher (t.addr i)) _

theorem leecher_shares [Fintype ι] (hfew : Few ι) (h : Running sha1 m content t e)
    (env : Entropy) : LeecherTurn sha1 m content t e e.toLeecher (fun _ => 0) env.order
      (e.leecher.step sha1 (.tick .pex, env)) := by
  have hstep : e.leecher.step sha1 (.tick .pex, env) = (e.leecher, e.leecher.pexOutputs env) := rfl
  obtain ⟨clientId, hreachable⟩ := h.leeching.reachable
  have hcard : (Finset.univ.image t.addr).card ≤ Fintype.card ι := Finset.card_image_le
  have hroom : 18 * Fintype.card ι + 64 ≤ Message.maxMessageSize := hfew
  have hknown : ∀ z, e.leecher.peerRegistry.containsAddr z = true →
      z ∈ Finset.univ.image t.addr := by
    intro z hz
    obtain ⟨p, hp⟩ := HashMap.contains_iff.mp hz
    obtain ⟨i, rfl⟩ := h.known z p hp
    exact Finset.mem_image_of_mem _ (Finset.mem_univ i)
  have hpex : ∀ i, Pex (sent env.order (t.addr i) (e.leecher.pexOutputs env)) := by
    intro i f hf
    exact (Swarm.sent_pex (Swarm.reachable_accounted hreachable) hknown (by omega)
      (fun p hp => ((h.links i).loyal p hp).exchanges) env.order env f hf).2
  rw [hstep]
  refine ⟨h.leeching, h.known, h.busy,
    fun i => (h.links i).tells (hpex i).fromLeecher (hpex i).asks, ?_,
    fun _ => Swarm.disconnects_pex env e.leecher, fun i => ?_⟩
  · rw [Swarm.written_pex]
    exact gains_nothing _
  · rw [(hpex i).weightless]
    exact Nat.le_refl _

theorem heard_of_arrival (hw : m.Wired) (hd : m.Describes sha1 content)
    (h : FromSeeder m content f.2) (harrives : arrival f = some message) :
    Heard m content f message := by
  obtain ⟨message', hmessage, hsame⟩ := arrival_same (fromSeeder_sendable hw hd.length h)
  obtain rfl := Option.some.inj (harrives.symm.trans hmessage)
  exact heard_of_same h hsame

variable {rest : List Message.Sending}

theorem absorbs (hw : m.Wired) (hd : m.Describes sha1 content) (h : Running sha1 m content t e)
    (hframe : e.toLeecher i = f :: rest) (hheard : Heard m content f message)
    (ha : e.leecher.peerRegistry.apply (t.addr i) message = .ok r) (o : IterOrder) (env : Entropy) :
    ∃ news, Absorbed sha1 m content e.leecher (t.addr i) message o
      (({ e.leecher with peerRegistry := r } : Swarm).handleMessage sha1 env (t.addr i) message)
      news := by
  have hlink := h.links i
  rw [hframe] at hlink
  by_cases hnone : message.brought = none
  · exact ⟨[], absorbs_word h.leeching hheard hnone ha o env⟩
  · rcases hheard with ⟨-, ⟨hs, rfl⟩, -⟩ | ⟨-, rfl⟩ | ⟨-, rfl⟩ | ⟨-, rfl⟩ | ⟨b, hb, hf, rfl⟩ |
      ⟨d, -, rfl⟩
    · exact absurd rfl hnone
    · exact absurd rfl hnone
    · exact absurd rfl hnone
    · exact absurd rfl hnone
    · have hbrought : b ∈ outstanding (e.seeders i) (e.toSeeder i) (f :: rest) := by
        refine List.mem_append_right _ (List.mem_filterMap.mpr ⟨f, List.mem_cons_self .., ?_⟩)
        rw [hf]
        rfl
      have hheld : e.leecher.blockAssignments.isHolder b (t.addr i) = true :=
        (hlink.ledger.mem b).mp hbrought
      exact absorbs_piece hw hd h.leeching hb rfl hheld ha o env rfl
    · exact absurd rfl hnone

theorem received_leeching (h : Running sha1 m content t e)
    (ha : e.leecher.peerRegistry.apply x message = .ok r) (env : Entropy)
    (hq : q = e.leecher.step sha1 (.messageReceived x message, env))
    (hregistry : q.1.peerRegistry = r)
    (hmatching : q.1.pieces.Matches sha1 (pieceBytes m content)) :
    Leeching sha1 m content q.1 := by
  obtain ⟨clientId, hreachable⟩ := h.leeching.reachable
  refine ⟨⟨clientId, ?_⟩, ?_, hmatching, ?_⟩
  · rw [hq]
    exact hreachable.next _
  · rw [hregistry]
    exact PeerRegistry.noDangling_apply h.leeching.noDangling ha
  · have hstatus : (e.leecher.onMessage sha1 env x message).1.status = e.leecher.status :=
      Swarm.onMessage_status env e.leecher x message
    have hstep : q.1 = (e.leecher.onMessage sha1 env x message).1 := hq ▸ rfl
    rw [hstep, hstatus]
    exact h.leeching.downloads

theorem received_known (h : Running sha1 m content t e)
    (ha : e.leecher.peerRegistry.apply x message = .ok r) {z : SocketAddr} {p : PeerState}
    (hp : r.peers.get z = some p) : ∃ i, z = t.addr i := by
  have hcontains := PeerRegistry.apply_contains ha z
  rw [HashMap.contains_iff.mpr ⟨p, hp⟩] at hcontains
  obtain ⟨p', hp'⟩ := HashMap.contains_iff.mp hcontains.symm
  exact h.known z p' hp'

theorem received_bare (h : Running sha1 m content t e)
    (hheard : Heard m content f message) (ha : e.leecher.peerRegistry.apply x message = .ok r)
    {z : SocketAddr} {p : PeerState} (hp : r.peers.get z = some p) : p.allowedFast = .empty := by
  obtain ⟨p', hp', -, hpeers, -, -⟩ := PeerRegistry.apply_ok ha
  rw [hpeers, HashMap.get_insert] at hp
  split_ifs at hp
  · obtain rfl := Option.some.inj hp
    obtain ⟨k, rfl⟩ := h.known x p' hp'
    exact (((h.links k).loyal p' hp').apply hheard.not_allowedFast hheard.introduces).bare
  · exact h.bare hp

theorem Running.unknown (h : Running sha1 m content t e)
    (hnone : e.leecher.peerRegistry.containsAddr (t.addr i) = false) :
    e.leecher.peerRegistry.byId.get (e.seeders i).clientId = none := by
  cases hb : e.leecher.peerRegistry.byId.get (e.seeders i).clientId with
  | none => rfl
  | some c =>
    obtain ⟨p, hp, hid⟩ := h.leeching.noDangling _ c.1 c.2 hb
    obtain ⟨k, hk⟩ := h.known c.1 p hp
    rw [hk] at hp
    have hsame : (e.seeders k).clientId = (e.seeders i).clientId :=
      ((h.links k).loyal p hp).id.symm.trans hid
    obtain rfl := h.identities hsame
    have hreg : e.leecher.peerRegistry.containsAddr (t.addr k) = true :=
      HashMap.contains_iff.mpr ⟨p, hp⟩
    rw [hnone] at hreg
    contradiction

theorem joined_leeching (h : Running sha1 m content t e)
    (hnone : e.leecher.peerRegistry.containsAddr x = false) {id : PeerId}
    {d : ConnectionDirection} (hstep : e.leecher.step sha1 (opens m id d x, env) =
      e.leecher.register x d id ⟨false, true⟩) :
    Leeching sha1 m content (e.leecher.register x d id ⟨false, true⟩).1 := by
  obtain ⟨clientId, hreachable⟩ := h.leeching.reachable
  have hnext := hreachable.next (opens m id d x, env)
  rw [hstep] at hnext
  refine ⟨⟨clientId, hnext⟩, ?_, h.leeching.matching, h.leeching.downloads⟩
  rw [Swarm.register_peerRegistry]
  refine (PeerRegistry.noDangling_connected_iff h.leeching.noDangling x id d _).mpr
    fun id' d' hb => ?_
  obtain ⟨p, hp, -⟩ := h.leeching.noDangling id' x d' hb
  have hreg : e.leecher.peerRegistry.containsAddr x = true := HashMap.contains_iff.mpr ⟨p, hp⟩
  rw [hnone] at hreg
  contradiction

variable [DecidableEq ι]

theorem absorbed_links (h : Running sha1 m content t e) (hframe : e.toLeecher i = f :: rest)
    (hheard : Heard m content f message)
    (ha : Absorbed sha1 m content e.leecher (t.addr i) message o q news) (k : ι) :
    Link m content (q.1.view (t.addr k)) (e.seeders k) (t.own k)
      (e.toSeeder k ++ sent o (t.addr k) q.2) (Function.update e.toLeecher i rest k) := by
  have hnews : (∀ g ∈ news, FromLeecher m g.2) ∧ asks news = [] := by
    rcases ha.piece with rfl | ⟨j, hj, rfl⟩
    · exact ⟨nofun, rfl⟩
    · refine ⟨fun g hg => ?_, rfl⟩
      rw [List.mem_singleton.mp hg]
      exact .havePiece hj
  have hlink := h.links k
  by_cases hk : k = i
  · subst hk
    rw [hframe] at hlink
    rw [ha.self, ha.said, Function.update_self, ← List.append_assoc]
    exact (hlink.hears hheard o).tells hnews.1 hnews.2
  · have hne : t.addr k ≠ t.addr i := fun heq => hk (t.distinct heq)
    rw [ha.others _ hne, ha.told _ hne, Function.update_of_ne hk]
    exact hlink.tells hnews.1 hnews.2

theorem absorbed_falls (hframe : e.toLeecher i = f :: rest) (hheard : Heard m content f message)
    (ha : Absorbed sha1 m content e.leecher (t.addr i) message o q news) (k : ι) :
    dues q.1 (t.addr k) + weigh (sent o (t.addr k) q.2) +
        weigh (Function.update e.toLeecher i rest k) + (if k = i then f.2.toll else 0) ≤
      dues e.leecher (t.addr k) + weigh (e.toLeecher k) := by
  have hdues := ha.falls (t.addr k)
  by_cases hk : k = i
  · subst hk
    have hreply := weigh_replies o message
    have hweight := hheard.weight
    have htoll := hheard.toll
    have hfront : weigh (f :: rest) = f.2.weight + weigh rest := by simp [weigh]
    rw [ha.said, Function.update_self, hframe, hfront, weigh_append, if_pos rfl]
    omega
  · have hne : t.addr k ≠ t.addr i := fun heq => hk (t.distinct heq)
    rw [ha.told _ hne, Function.update_of_ne hk, if_neg hk]
    omega

theorem receives_quietly (hw : m.Wired) (hd : m.Describes sha1 content)
    (h : Running sha1 m content t e) (hframe : e.toLeecher i = f :: rest)
    (hheard : Heard m content f message)
    (ha : e.leecher.peerRegistry.apply (t.addr i) message = .ok r) (env : Entropy)
    (hquiet : message.affectsScheduling = false)
    (hstep : e.leecher.step sha1 (.messageReceived (t.addr i) message, env) =
      ({ e.leecher with peerRegistry := r } : Swarm).handleMessage sha1 env (t.addr i) message) :
    LeecherTurn sha1 m content t e (Function.update e.toLeecher i rest)
      (fun k => if k = i then f.2.toll else 0) env.order
      (e.leecher.step sha1 (.messageReceived (t.addr i) message, env)) := by
  obtain ⟨news, habsorbed⟩ := absorbs hw hd h hframe hheard ha env.order env
  rw [← hstep] at habsorbed
  have hnone : message.brought = none := by
    cases message with
    | piece b data => contradiction
    | _ => rfl
  have hreg : ({ e.leecher with peerRegistry := r } : Swarm).peerRegistry.containsAddr (t.addr i) =
      true := Swarm.contains_of_apply ha
  obtain ⟨outputs, hhandled, -⟩ := heard_handled sha1 hheard hnone hreg env.order env
  have hfst : (e.leecher.step sha1 (.messageReceived (t.addr i) message, env)).1 =
      { e.leecher with peerRegistry := r } := by
    rw [hstep, hhandled]
  have hlink := h.links i
  rw [hframe] at hlink
  refine ⟨received_leeching h ha env rfl (by rw [hfst]) habsorbed.matching, fun z p hp => ?_, ?_,
    absorbed_links h hframe hheard habsorbed, habsorbed.gains, habsorbed.stays,
    absorbed_falls hframe hheard habsorbed⟩
  · rw [hfst] at hp
    exact received_known h ha hp
  · rw [hfst]
    exact busy_hears h.leeching h.busy hlink hheard hquiet ha

theorem receives_planning (hw : m.Wired) (hd : m.Describes sha1 content)
    (h : Running sha1 m content t e) (hframe : e.toLeecher i = f :: rest)
    (hheard : Heard m content f message)
    (ha : e.leecher.peerRegistry.apply (t.addr i) message = .ok r) (env : Entropy)
    (hq : q =
      ({ e.leecher with peerRegistry := r } : Swarm).handleMessage sha1 env (t.addr i) message)
    (hstep : e.leecher.step sha1 (.messageReceived (t.addr i) message, env) =
      ((q.1.plan env).1, q.2 ++ (q.1.plan env).2)) :
    LeecherTurn sha1 m content t e (Function.update e.toLeecher i rest)
      (fun k => if k = i then f.2.toll else 0) env.order
        ((q.1.plan env).1, q.2 ++ (q.1.plan env).2) := by
  obtain ⟨news, habsorbed⟩ := absorbs hw hd h hframe hheard ha env.order env
  rw [← hq] at habsorbed
  obtain ⟨hregistry, -, -, hstatus, -⟩ := Swarm.handleMessage_frame sha1 env
    { e.leecher with peerRegistry := r } (t.addr i) message
  rw [← hq] at hregistry hstatus
  have hdownloads : q.1.status.download = true := by
    rw [hstatus]
    exact h.leeching.downloads
  have hpieces := Swarm.plan_pieces env q.1
  have hplanned := Swarm.plan_peerRegistry env q.1
  have hleeching := received_leeching h ha env hstep.symm (hplanned.trans hregistry)
    (hpieces.symm ▸ habsorbed.matching)
  have hblocks : ∀ b ∈ q.1.plannedBlocks, m.Block b := by
    intro b hb
    rw [← plan_plannedBlocks env q.1] at hb
    exact hleeching.planned_block hb
  refine ⟨hleeching, fun z p hp => ?_, ?_, fun k => ?_, ?_, fun hopen => ?_, fun k => ?_⟩
  · rw [hplanned, hregistry] at hp
    exact received_known h ha hp
  · refine plan_busy hdownloads (fun z p hp => ?_) env
    rw [hregistry] at hp
    exact received_bare h hheard ha hp
  · have hlink := (absorbed_links h hframe hheard habsorbed k).plans hblocks env.order env
    rwa [sent_append, ← List.append_assoc]
  · rw [List.filterMap_append, written_plan, List.append_nil, hpieces]
    exact habsorbed.gains
  · rw [hpieces] at hopen
    rw [disconnects_append, habsorbed.stays hopen, plan_stays]
    rfl
  · have hfalls := absorbed_falls hframe hheard habsorbed k
    have hdues := plan_dues env.order env q.1 (t.addr k)
    rw [sent_append, weigh_append]
    dsimp only
    omega

theorem leecher_receives (hw : m.Wired) (hd : m.Describes sha1 content)
    (h : Running sha1 m content t e) (hframe : e.toLeecher i = f :: rest)
    (hheard : Heard m content f message)
    (hreg : e.leecher.peerRegistry.containsAddr (t.addr i) = true) (env : Entropy) :
    LeecherTurn sha1 m content t e (Function.update e.toLeecher i rest)
      (fun k => if k = i then f.2.toll else 0) env.order
      (e.leecher.step sha1 (.messageReceived (t.addr i) message, env)) := by
  obtain ⟨p, hp⟩ := HashMap.contains_iff.mp hreg
  obtain ⟨r, hr, -⟩ := Swarm.apply_fast hp ((h.links i).loyal p hp).fast message
  have hstep : e.leecher.step sha1 (.messageReceived (t.addr i) message, env) =
      e.leecher.onMessage sha1 env (t.addr i) message := rfl
  rcases Swarm.onMessage_cases sha1 env e.leecher (t.addr i) message with
    ⟨reason, hrefused, -, -⟩ | ⟨r', hr', hquiet, hres⟩ | ⟨r', hr', -, hres⟩
  · rw [hr] at hrefused
    contradiction
  · obtain rfl := Except.ok.inj (hr.symm.trans hr')
    exact receives_quietly hw hd h hframe hheard hr env hquiet hres
  · obtain rfl := Except.ok.inj (hr.symm.trans hr')
    rw [hstep, hres]
    exact receives_planning hw hd h hframe hheard hr env rfl hres

theorem leecher_opens (h : Running sha1 m content t e)
    (hopen : e.leecher.pieces.isComplete = false)
    (hnone : e.leecher.peerRegistry.containsAddr (t.addr i) = false) (d : ConnectionDirection)
    (env : Entropy) : LeecherTurn sha1 m content t e e.toLeecher (fun k => if k = i then 1 else 0)
      env.order (e.leecher.step sha1 (opens m (e.seeders i).clientId d (t.addr i), env)) := by
  have hid := h.unknown hnone
  have hjoined : Joined e.leecher (t.addr i) (e.seeders i).clientId env.order
      (e.leecher.step sha1 (opens m (e.seeders i).clientId d (t.addr i), env)) :=
    leecher_joins h.leeching hid hnone d env
  have hstep : e.leecher.step sha1 (opens m (e.seeders i).clientId d (t.addr i), env) =
      e.leecher.register (t.addr i) d (e.seeders i).clientId ⟨false, true⟩ :=
    Swarm.onConnected_new hid
  have hleeching := joined_leeching h hnone hstep
  have hbusy := busy_joins h.leeching h.busy hnone d (e.seeders i).clientId
  have hregistry := Swarm.register_peerRegistry e.leecher (t.addr i) d (e.seeders i).clientId
    ⟨false, true⟩
  rw [← hstep] at hleeching hbusy hregistry
  refine ⟨hleeching, fun z p hp => ?_, hbusy, fun k => ?_, ?_, fun _ => hjoined.stays, fun k => ?_⟩
  · rw [hregistry, PeerRegistry.get_connected] at hp
    split_ifs at hp with hz
    · exact ⟨i, hz⟩
    · exact h.known z p hp
  · by_cases hk : k = i
    · subst hk
      rw [hjoined.self, hjoined.said]
      exact (h.links k).joins rfl (h.leeching.unheld hnone)
        (introduction_fromLeecher h.leeching hopen) (asks_introduction ..)
        ⟨_, List.mem_cons_of_mem _ (List.mem_singleton_self _), rfl⟩
    · have hne : t.addr k ≠ t.addr i := fun heq => hk (t.distinct heq)
      rw [hjoined.others _ hne, hjoined.told _ hne, List.append_nil]
      exact h.links k
  · rw [hjoined.pieces, hjoined.written]
    exact gains_nothing _
  · by_cases hk : k = i
    · subst hk
      have hfalls := hjoined.falls
      have hweight := weigh_introduction env.order e.leecher
      rw [hjoined.said, if_pos rfl]
      omega
    · have hne : t.addr k ≠ t.addr i := fun heq => hk (t.distinct heq)
      have hkeeps := hjoined.keeps _ hne
      have hsilent : weigh ([] : List Message.Sending) = 0 := rfl
      rw [hjoined.told _ hne, if_neg hk, hsilent]
      omega

end Transfer

end Tortue
