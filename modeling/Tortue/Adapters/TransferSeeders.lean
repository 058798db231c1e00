import Tortue.Adapters.TransferLinks

namespace Tortue

open Collections

namespace Transfer

variable {sha1 : Sha1} {m : Metainfo} {content : Bytes} {v : SessionView} {s t : Swarm}
  {y : SocketAddr}
  {toSeeder toLeecher l : List Message.Sending} {x : Message.Sending} {b : BlockRange}
  {message : Message} {env : Entropy} {disk : List OutputFile} {clientId : PeerId}

def arrears (s : Swarm) (y : SocketAddr) : Nat :=
  2 * s.pendingReads.len + if s.peerRegistry.containsAddr y then 0 else 6

structure SeederTurn (m : Metainfo) (content : Bytes) (v : SessionView) (s : Swarm) (y : SocketAddr)
    (toSeeder toLeecher : List Message.Sending) (paid due : Nat) (o : IterOrder)
    (r : Swarm × List Output) : Prop where
  link : Link m content v r.1 y toSeeder (toLeecher ++ sent o y r.2)
  falls : arrears r.1 y + weigh (sent o y r.2) + due ≤ arrears s y + paid
  stays : disconnects r.2 = []

theorem Link.reassigned (h : Link m content v s y toSeeder toLeecher) (a : BlockAssignments) :
    Link m content v { s with blockAssignments := a } y toSeeder toLeecher :=
  ⟨h.loyal, ⟨h.seeding.complete, h.seeding.uploads, h.seeding.alone, h.seeding.noDangling,
    h.seeding.reads⟩, h.fromLeecher, h.fromSeeder, h.ledger,
    ⟨h.courtship.known, h.courtship.introduced, h.courtship.courted⟩⟩

theorem Link.planned (h : Link m content v s y toSeeder toLeecher) (env : Entropy) :
    Link m content v (s.plan env).1 y toSeeder toLeecher ∧ (s.plan env).2 = [] ∧
      arrears (s.plan env).1 y = arrears s y := by
  obtain ⟨a, ha⟩ := Swarm.plan_fst env s
  rw [ha]
  exact ⟨h.reassigned a, Swarm.plan_complete env h.seeding.complete, rfl⟩

theorem sent_replies (o : IterOrder) (y : SocketAddr) (message : Message) :
    sent o y (message.reply.map (.sendToPeer y)) = message.reply.map (Prod.mk o) :=
  sent_replies_self o y message.reply

theorem weigh_replies (o : IterOrder) (message : Message) :
    weigh (message.reply.map (Prod.mk o)) + message.toll ≤ message.weight := by
  have hreply := message.reply_weight
  unfold weigh
  rw [List.map_map]
  exact hreply

theorem Seeding.unknown (h : Seeding s y) (hnone : s.peerRegistry.containsAddr y = false)
    (id : PeerId) : s.peerRegistry.byId.get id = none := by
  cases hb : s.peerRegistry.byId.get id with
  | none => rfl
  | some c =>
    obtain ⟨p, hp, -⟩ := h.noDangling id c.1 c.2 hb
    obtain ⟨rfl, -⟩ := h.alone _ p hp
    have hreg : s.peerRegistry.containsAddr c.1 = true := HashMap.contains_iff.mpr ⟨p, hp⟩
    rw [hnone] at hreg
    contradiction

theorem Seeding.pendingUploads (h : Seeding s y) : s.pendingUploads = s.pendingReads.len := by
  have hone : ∀ read ∈ s.pendingReads.values, read.peers.len = 1 := by
    intro read hread
    obtain ⟨b, hb⟩ := HashMap.mem_values_iff.mp hread
    rw [h.reads b read hb]
    rfl
  unfold Swarm.pendingUploads
  rw [List.map_congr_left hone, List.map_const', List.sum_replicate_nat, Nat.mul_one]
  exact List.length_map _

theorem seeder_opens (h : Link m content v s y toSeeder toLeecher)
    (hnone : s.peerRegistry.containsAddr y = false) (id : PeerId) (d : ConnectionDirection)
    (env : Entropy) : SeederTurn m content v s y toSeeder toLeecher 0 1 env.order
      (s.step sha1 (opens m id d y, env)) := by
  have hstep : s.step sha1 (opens m id d y, env) = s.register y d id ⟨false, true⟩ :=
    Swarm.onConnected_new (h.seeding.unknown hnone id)
  have hhave : s.availabilityMessage ⟨false, true⟩ = .haveAll := by
    simp [Swarm.availabilityMessage, h.seeding.complete]
  have hsent : sent env.order y (s.register y d id ⟨false, true⟩).2 =
      [(env.order, .haveAll), (env.order, .interested)] := by
    rw [Swarm.register_greets, hhave]
    simp [sent, sentTo]
  rw [hstep]
  refine ⟨?_, ?_, ?_⟩
  · rw [hsent]
    exact h.announces hnone d id rfl env.order
  · have hreads : (s.register y d id ⟨false, true⟩).1.pendingReads = s.pendingReads := rfl
    rw [hsent]
    unfold arrears
    rw [hreads, Swarm.contains_register, hnone]
    simp [weigh, Message.weight]
  · rw [Swarm.register_greets]
    exact disconnects_sends y [_, _]

theorem registered_fast (h : Seeding s y) (hreg : s.peerRegistry.containsAddr y = true)
    (message : Message) : ∃ r, s.peerRegistry.apply y message = .ok r := by
  obtain ⟨p, hp⟩ := HashMap.contains_iff.mp hreg
  obtain ⟨r, hr, -⟩ := Swarm.apply_fast hp (h.alone y p hp).2.1 message
  exact ⟨r, hr⟩

theorem told_handled (htold : Told x message) (hreg : s.peerRegistry.containsAddr y = true)
    (env : Entropy) : ∃ outputs, s.handleMessage sha1 env y message = (s, outputs) ∧
      sent env.order y outputs = message.reply.map (Prod.mk env.order) ∧
      disconnects outputs = [] := by
  rcases htold.handled with hlight | ⟨payload, rfl⟩
  · exact ⟨_, Swarm.handleMessage_light hreg hlight, sent_replies .., disconnects_sends y _⟩
  · obtain ⟨outputs, hout, hsent, hstays, -⟩ := Swarm.handleMessage_pex sha1 env s y payload
    exact ⟨outputs, hout, hsent .., hstays⟩

theorem seeder_told (h : Link m content v s y (x :: toSeeder) toLeecher) (htold : Told x message)
    (hreg : s.peerRegistry.containsAddr y = true) (env : Entropy) :
    SeederTurn m content v s y toSeeder toLeecher x.2.weight x.2.toll env.order
      (s.step sha1 (.messageReceived y message, env)) := by
  obtain ⟨r, hr⟩ := registered_fast h.seeding hreg message
  have hopen : r.containsAddr y = true := Swarm.contains_of_apply hr
  have hopen' : ({ s with peerRegistry := r } : Swarm).peerRegistry.containsAddr y = true := hopen
  obtain ⟨outputs, hhandled, hsent, hstays⟩ := told_handled htold hopen' env
  have hlink := h.told htold hr env.order
  have hfalls : arrears { s with peerRegistry := r } y +
      weigh (message.reply.map (Prod.mk env.order)) + x.2.toll ≤ arrears s y + x.2.weight := by
    have hpaid := weigh_replies env.order message
    have hweight := htold.weight
    have htoll := htold.toll
    unfold arrears
    rw [hreg]
    simp only [hopen, if_true]
    omega
  have hstep : s.step sha1 (.messageReceived y message, env) = s.onMessage sha1 env y message := rfl
  rw [hstep]
  rcases Swarm.onMessage_cases sha1 env s y message with
    ⟨e, he, -, -⟩ | ⟨r', hr', -, hres⟩ | ⟨r', hr', -, hres⟩
  · rw [hr] at he
    contradiction
  · obtain rfl := Except.ok.inj (hr.symm.trans hr')
    rw [hres, hhandled]
    exact ⟨hsent.symm ▸ hlink, hsent.symm ▸ hfalls, hstays⟩
  · obtain rfl := Except.ok.inj (hr.symm.trans hr')
    obtain ⟨hplanned, hquiet, hsame⟩ := hlink.planned env
    rw [hres, hhandled, hquiet, List.append_nil]
    refine ⟨hsent.symm ▸ hplanned, ?_, hstays⟩
    rw [hsame]
    exact hsent.symm ▸ hfalls

theorem seeder_asked (hw : m.Wired) (hm : PieceManager.Described m s.pieces)
    (h : Link m content v s y (x :: toSeeder) toLeecher)
    (hroom : (outstanding s (x :: toSeeder) toLeecher).length ≤ Swarm.maxPendingUploads)
    (hb : m.Block b) (hx : x.2 = .request b) (hreg : s.peerRegistry.containsAddr y = true)
    (env : Entropy) : SeederTurn m content v s y toSeeder toLeecher x.2.weight 1 env.order
      (s.step sha1 (.messageReceived y (.request b), env)) := by
  obtain ⟨r, hr⟩ := registered_fast h.seeding hreg (.request b)
  have hopen : r.containsAddr y = true := Swarm.contains_of_apply hr
  have hfew : s.pendingUploads < Swarm.maxPendingUploads := by
    have hkeys : s.pendingReads.keys.length = s.pendingReads.len := List.length_map _
    rw [outstanding_request s toSeeder toLeecher hx] at hroom
    rw [h.seeding.pendingUploads]
    simp only [outstanding, List.length_cons, List.length_append] at hroom
    omega
  have hnone := h.unread hx
  have hopens : ({ s with peerRegistry := r } : Swarm).handleMessage sha1 env y (.request b) =
      ({ s with
        peerRegistry := r
        nextUploadReadId := s.nextUploadReadId + 1
        pendingReads := s.pendingReads.insert b ⟨⟨s.nextUploadReadId⟩, HashSet.add .empty y⟩ },
        [.readForUpload ⟨s.nextUploadReadId⟩ b]) :=
    Swarm.request_opens h.seeding.uploads (block_valid hw hm h.seeding.complete hb) hfew hnone
  have hstep : s.step sha1 (.messageReceived y (.request b), env) =
      s.onMessage sha1 env y (.request b) := rfl
  rw [hstep]
  rcases Swarm.onMessage_cases sha1 env s y (.request b) with
    ⟨e, he, -, -⟩ | ⟨r', hr', -, hres⟩ | ⟨r', hr', haffects, -⟩
  · rw [hr] at he
    contradiction
  · obtain rfl := Except.ok.inj (hr.symm.trans hr')
    rw [hres, hopens]
    refine ⟨?_, ?_, rfl⟩
    · have hsilent : sent env.order y [.readForUpload ⟨s.nextUploadReadId⟩ b] = [] := rfl
      rw [hsilent, List.append_nil]
      exact h.asked hx hr _ _
    · have hlen : (s.pendingReads.insert b ⟨⟨s.nextUploadReadId⟩, HashSet.add .empty y⟩).len =
          s.pendingReads.len + 1 := HashMap.len_insert_new (by rw [HashMap.contains, hnone]; rfl) _
      unfold arrears
      rw [hreg, hx]
      simp only [hopen, hlen, if_true, sent, sentTo, weigh, Message.weight, List.filterMap_cons,
        List.filterMap_nil, List.map_nil, List.sum_nil]
      omega
  · contradiction

theorem seeder_reads (hw : m.Wired) (hr : Swarm.Reachable sha1 clientId m s)
    (h : Link m content v s y toSeeder toLeecher) (hdisk : DiskStorage.Laid m disk)
    (hcontent : DiskStorage.bytes disk = content) {read : PendingRead}
    (hread : s.pendingReads.get b = some read) (env : Entropy) :
    ∃ data, serveRead m disk b = .ok data ∧
      SeederTurn m content v s y toSeeder toLeecher 0 1 env.order
        (s.step sha1 (.uploadReadCompleted read.id b data, env)) := by
  obtain ⟨id, peers⟩ := read
  obtain rfl : peers = HashSet.add .empty y := h.seeding.reads b _ hread
  have haccounted := Swarm.reachable_accounted hr
  have hreg : s.peerRegistry.containsAddr y = true :=
    haccounted.registered y (haccounted.reading b y ⟨_, hread, by simp⟩)
  obtain ⟨hist, htrace⟩ := hr
  have hvalid := Swarm.pending_valid htrace hread
  have hm := Swarm.history_described htrace
  obtain ⟨hcomplete, hpos, hsize, -, hwithin⟩ := (PieceManager.validUploadRange_iff hm).mp hvalid
  obtain ⟨q, hq, -⟩ := hcomplete
  have hb : m.Block b := ⟨hm.length ▸ (List.getElem?_eq_some_iff.mp hq).1, hpos, hsize, hwithin⟩
  refine ⟨_, serveRead_eq hw hdisk hb, ?_⟩
  have hstep : s.step sha1 (.uploadReadCompleted id b
      (window (DiskStorage.bytes disk) (position m b) b.len), env) =
      s.onUploadReadCompleted env id b (window (DiskStorage.bytes disk) (position m b) b.len) := rfl
  rw [hstep, Swarm.upload_completes h.seeding.uploads hread hreg, hcontent]
  have hsent : sent env.order y [.sendToPeer y (.piece b (window content (position m b) b.len))] =
      [(env.order, .piece b (window content (position m b) b.len))] := by
    simp [sent, sentTo]
  refine ⟨?_, ?_, rfl⟩
  · rw [hsent]
    exact h.served hreg hread hb env.order _
  · have hlen := HashMap.len_remove hread
    rw [hsent]
    unfold arrears
    simp only [hreg, if_true, weigh, Message.weight, List.map_cons, List.map_nil, List.sum_cons,
      List.sum_nil]
    omega

theorem seeder_ticks (hr : Swarm.Reachable sha1 clientId m s)
    (h : Link m content v s y toSeeder toLeecher) (tick : Tick) (env : Entropy) :
    SeederTurn m content v s y toSeeder toLeecher 0 0 env.order
      (s.step sha1 (.tick tick, env)) := by
  cases tick with
  | block =>
    have hstep : s.step sha1 (.tick .block, env) = s.plan env := rfl
    obtain ⟨hplanned, hquiet, hsame⟩ := h.planned env
    rw [hstep]
    refine ⟨?_, ?_, ?_⟩
    · rw [hquiet, sent_nil, List.append_nil]
      exact hplanned
    · rw [hquiet, hsame, sent_nil]
      exact Nat.le_refl _
    · rw [hquiet]
      rfl
  | pex =>
    have hstep : s.step sha1 (.tick .pex, env) = (s, s.pexOutputs env) := rfl
    have hknown : ∀ z, s.peerRegistry.containsAddr z = true → z ∈ ({y} : Finset SocketAddr) := by
      intro z hz
      obtain ⟨p, hp⟩ := HashMap.contains_iff.mp hz
      exact Finset.mem_singleton.mpr (h.seeding.alone z p hp).1
    have hsent := Swarm.sent_pex (Swarm.reachable_accounted hr) hknown
      (show 18 * 1 + 64 ≤ 1024 * 1024 by decide) (fun p hp => (h.seeding.alone y p hp).2.2)
      env.order env
    have hpex : Pex (sent env.order y (s.pexOutputs env)) := fun f hf => (hsent f hf).2
    rw [hstep]
    refine ⟨h.shares hpex fun hsome => ?_, ?_, ?_⟩
    · obtain ⟨f, hf⟩ := List.exists_mem_of_ne_nil _ hsome
      exact (hsent f hf).1
    · rw [hpex.weightless]
    · exact Swarm.disconnects_pex env s

end Transfer

end Tortue
