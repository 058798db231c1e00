import Tortue.Adapters.TransferSteps

namespace Tortue

open Collections

namespace Transfer

variable {ι : Type} {sha1 : Sha1} {m : Metainfo} {content : Bytes}
  {disk : ι → List OutputFile} {t : Topology ι} {e e' : Transfer ι} {i : ι} {env : Entropy}
  {move : Move ι}

def cost (t : Topology ι) (e : Transfer ι) (i : ι) : Nat :=
  dues e.leecher (t.addr i) + arrears (e.seeders i) (t.own i) + weigh (e.toSeeder i) +
    weigh (e.toLeecher i)

theorem Running.inFlight (h : Running sha1 m content t e) (i : ι) :
    (outstanding (e.seeders i) (e.toSeeder i) (e.toLeecher i)).length =
      e.leecher.blockAssignments.inFlight (t.addr i) := by
  have hkeys : Enumerates (e.leecher.blockAssignments.blocksOf (t.addr i)).keys
      fun b => (e.leecher.view (t.addr i)).holds b = true := by
    refine ⟨(e.leecher.blockAssignments.blocksOf (t.addr i)).nodup, fun b => ?_⟩
    rw [HashMap.mem_keys_iff, ← BlockAssignments.isHolder_eq_blocksOf]
    rfl
  have hlength : (e.leecher.blockAssignments.blocksOf (t.addr i)).keys.length =
      (e.leecher.blockAssignments.blocksOf (t.addr i)).len := List.length_map _
  rw [(h.links i).ledger.length_eq hkeys, hlength, ← BlockAssignments.inFlight_eq_blocksOf]

theorem Running.room (h : Running sha1 m content t e) (i : ι) :
    (outstanding (e.seeders i) (e.toSeeder i) (e.toLeecher i)).length ≤
      Swarm.maxPendingUploads := by
  obtain ⟨clientId, trace, hist⟩ := h.leeching.reachable
  rw [h.inFlight i]
  exact Swarm.held_room hist (t.addr i)

variable [DecidableEq ι]

inductive Turn (sha1 : Sha1) (m : Metainfo) (content : Bytes) (t : Topology ι) (e : Transfer ι)
    (strict : Bool) (e' : Transfer ι) : Prop
  | leecher (toLeecher : ι → List Message.Sending) (paid : ι → Nat) (o : IterOrder)
      (q : Swarm × List Output) : LeecherTurn sha1 m content t e toLeecher paid o q →
      (strict = true → ∃ i, 0 < paid i) →
      e' = ({ e with toLeecher } : Transfer ι).leecherTook t o q → Turn sha1 m content t e strict e'
  | seeder (i : ι) (toSeeder : List Message.Sending) (paid due : Nat) (o : IterOrder)
      (input : Input × Entropy) :
      SeederTurn m content (e.leecher.view (t.addr i)) (e.seeders i) (t.own i) toSeeder
        (e.toLeecher i) paid due o ((e.seeders i).step sha1 input) →
      weigh toSeeder + paid = weigh (e.toSeeder i) → (strict = true → 0 < due) →
      e' = ({ e with
        toSeeder := Function.update e.toSeeder i toSeeder } : Transfer ι).seederTook t o
        i ((e.seeders i).step sha1 input) → Turn sha1 m content t e strict e'

theorem toll_pos {learns : Bool} {message : Message} (hkind : message.isExtension = learns)
    (hstrict : (!learns) = true) : message.toll = 1 := by
  rw [Bool.not_eq_true'] at hstrict
  rw [Message.toll, hkind, hstrict]
  rfl

theorem leecherOpens_turn (h : Running sha1 m content t e)
    (hopen : e.leecher.pieces.isComplete = false) {d : ConnectionDirection}
    (hstep : e.leecherOpens sha1 m t i d env = some e') : Turn sha1 m content t e true e' := by
  unfold leecherOpens at hstep
  split_ifs at hstep with hreg
  obtain rfl := Option.some.inj hstep
  have hturn := leecher_opens h hopen (Bool.eq_false_iff.mpr hreg) d env
  exact .leecher _ _ _ _ hturn (fun _ => ⟨i, by simp⟩) rfl

theorem seederOpens_turn (h : Running sha1 m content t e) {d : ConnectionDirection}
    (hstep : e.seederOpens sha1 m t i d env = some e') : Turn sha1 m content t e true e' := by
  unfold seederOpens at hstep
  split_ifs at hstep with hreg
  obtain rfl := Option.some.inj hstep
  have hturn : SeederTurn m content (e.leecher.view (t.addr i)) (e.seeders i) (t.own i)
      (e.toSeeder i) (e.toLeecher i) 0 1 env.order
      ((e.seeders i).step sha1 (opens m e.leecher.clientId d (t.own i), env)) :=
    seeder_opens (h.links i) (Bool.eq_false_iff.mpr hreg) e.leecher.clientId d env
  refine .seeder i (e.toSeeder i) 0 1 env.order _ hturn rfl (fun _ => Nat.one_pos) ?_
  rw [Function.update_eq_self]

theorem atLeecher_turn (hw : m.Wired) (hd : m.Describes sha1 content)
    (h : Running sha1 m content t e) {learns : Bool}
    (hstep : e.atLeecher sha1 t i learns env = some e') :
    Turn sha1 m content t e (!learns) e' := by
  unfold atLeecher at hstep
  split at hstep
  · contradiction
  · next f rest hframe =>
    split_ifs at hstep with hkind hreg
    split at hstep
    · contradiction
    · next message harrives =>
      obtain rfl := Option.some.inj hstep
      have hfrom := (h.links i).fromSeeder f (hframe ▸ List.mem_cons_self ..)
      have hheard := heard_of_arrival hw hd hfrom harrives
      have hturn := leecher_receives hw hd h hframe hheard (by simpa using hreg) env
      refine .leecher _ _ _ _ hturn (fun hstrict => ⟨i, ?_⟩) rfl
      rw [if_pos rfl, toll_pos (not_not.mp hkind) hstrict]
      exact Nat.one_pos

theorem atSeeder_turn (hw : m.Wired) (h : Running sha1 m content t e) {learns : Bool}
    (hstep : e.atSeeder sha1 t i learns env = some e') :
    Turn sha1 m content t e (!learns) e' := by
  unfold atSeeder at hstep
  split at hstep
  · contradiction
  · next f rest hframe =>
    split_ifs at hstep with hkind hreg
    split at hstep
    · contradiction
    · next message harrives =>
      obtain rfl := Option.some.inj hstep
      have hlink := h.links i
      have hroom := h.room i
      rw [hframe] at hlink hroom
      have hfrom := hlink.fromLeecher f (List.mem_cons_self ..)
      have hopen : (e.seeders i).peerRegistry.containsAddr (t.own i) = true := by simpa using hreg
      have hpaid : weigh rest + f.2.weight = weigh (e.toSeeder i) := by
        rw [hframe]
        simp [weigh, Nat.add_comm]
      obtain ⟨message', hmessage, hsame⟩ := arrival_same (fromLeecher_sendable hw hfrom)
      obtain rfl := Option.some.inj (harrives.symm.trans hmessage)
      rcases told_of_same hfrom hsame with ⟨b, hb, hf, rfl⟩ | htold
      · obtain ⟨clientId, trace, hist⟩ := h.reachable i
        refine .seeder i rest f.2.weight 1 env.order _ ?_ hpaid (fun _ => Nat.one_pos) rfl
        exact seeder_asked hw (Swarm.history_described hist) hlink hroom hb hf hopen env
      · refine .seeder i rest f.2.weight f.2.toll env.order _ ?_ hpaid (fun hstrict => ?_) rfl
        · exact seeder_told hlink htold hopen env
        · rw [toll_pos (not_not.mp hkind) hstrict]
          exact Nat.one_pos

theorem completeRead_turn (hw : m.Wired)
    (hdisk : ∀ i, DiskStorage.Laid m (disk i) ∧ DiskStorage.bytes (disk i) = content)
    (h : Running sha1 m content t e) {b : BlockRange}
    (hstep : e.completeRead sha1 m disk t i b env = some e') : Turn sha1 m content t e true e' := by
  unfold completeRead at hstep
  split at hstep
  · contradiction
  · next read hread =>
    obtain ⟨clientId, hreachable⟩ := h.reachable i
    obtain ⟨data, hserve, hturn⟩ := seeder_reads hw hreachable (h.links i) (hdisk i).1 (hdisk i).2
      hread env
    rw [hserve] at hstep
    obtain rfl := Option.some.inj hstep
    refine .seeder i (e.toSeeder i) 0 1 env.order _ hturn rfl (fun _ => Nat.one_pos) ?_
    rw [Function.update_eq_self]

theorem seederTick_turn (h : Running sha1 m content t e) (tick : Tick) :
    Turn sha1 m content t e false
      (e.seederTook t env.order i ((e.seeders i).step sha1 (.tick tick, env))) := by
  obtain ⟨clientId, hreachable⟩ := h.reachable i
  have hturn := seeder_ticks hreachable (h.links i) tick env
  refine .seeder i (e.toSeeder i) 0 0 env.order _ hturn rfl nofun ?_
  rw [Function.update_eq_self]

theorem step_turn [Fintype ι] (hfew : Few ι) (hw : m.Wired) (hd : m.Describes sha1 content)
    (hdisk : ∀ i, DiskStorage.Laid m (disk i) ∧ DiskStorage.bytes (disk i) = content)
    (h : Running sha1 m content t e) (hstep : step sha1 m disk t e (move, env) = some e') :
    Turn sha1 m content t e move.advances e' := by
  unfold step at hstep
  split_ifs at hstep with hcomplete
  have hopen := Bool.eq_false_iff.mpr hcomplete
  cases move with
  | leecherConnected k d => exact leecherOpens_turn h hopen hstep
  | seederConnected k d => exact seederOpens_turn h hstep
  | leecherReceives k => exact atLeecher_turn hw hd h hstep
  | seederReceives k => exact atSeeder_turn hw h hstep
  | readCompletes k b => exact completeRead_turn hw hdisk h hstep
  | leecherLearns k => exact atLeecher_turn hw hd h hstep
  | seederLearns k => exact atSeeder_turn hw h hstep
  | leecherTick tick =>
    obtain rfl := Option.some.inj hstep
    cases tick with
    | block => exact .leecher _ _ _ _ (leecher_plans h env) nofun rfl
    | pex => exact .leecher _ _ _ _ (leecher_shares hfew h env) nofun rfl
  | seederTick k tick =>
    obtain rfl := Option.some.inj hstep
    exact seederTick_turn h tick

theorem Running.turn {strict : Bool} (h : Running sha1 m content t e)
    (hturn : Turn sha1 m content t e strict e') : Running sha1 m content t e' := by
  cases hturn with
  | leecher toLeecher paid o q hq hpaid he =>
    subst he
    exact ⟨hq.leeching, hq.known, hq.busy, h.identities, h.reachable, hq.links⟩
  | seeder i toSeeder paid due o input hq hpaid hdue he =>
    subst he
    have hclient : ∀ k, (Function.update e.seeders i ((e.seeders i).step sha1 input).1 k).clientId =
        (e.seeders k).clientId := by
      intro k
      by_cases hk : k = i
      · subst hk
        rw [Function.update_self]
        exact congrArg Prod.fst (Swarm.step_origin sha1 (e.seeders k) input)
      · rw [Function.update_of_ne hk]
    refine ⟨h.leeching, h.known, h.busy, fun j k heq => h.identities ?_, fun k => ?_, fun k => ?_⟩
    · exact (hclient j).symm.trans (heq.trans (hclient k))
    · by_cases hk : k = i
      · subst hk
        obtain ⟨clientId, hreachable⟩ := h.reachable k
        refine ⟨clientId, ?_⟩
        simp only [seederTook, Function.update_self]
        exact hreachable.next input
      · simp only [seederTook, Function.update_of_ne hk]
        exact h.reachable k
    · by_cases hk : k = i
      · subst hk
        simp only [seederTook, Function.update_self]
        exact hq.link
      · simp only [seederTook, Function.update_of_ne hk]
        exact h.links k

theorem cost_turn {strict : Bool} (hturn : Turn sha1 m content t e strict e') :
    (∀ k, cost t e' k ≤ cost t e k) ∧ (strict = true → ∃ k, cost t e' k < cost t e k) := by
  cases hturn with
  | leecher toLeecher paid o q hq hpaid he =>
    subst he
    have hcost : ∀ k, cost t (({ e with toLeecher } : Transfer ι).leecherTook t o q) k + paid k ≤
        cost t e k := by
      intro k
      have hfalls := hq.falls k
      have hsent : weigh (e.toSeeder k ++ q.2.filterMap (sentTo o (t.addr k))) =
          weigh (e.toSeeder k) + weigh (sent o (t.addr k) q.2) := weigh_append ..
      simp only [cost, leecherTook, hsent]
      omega
    refine ⟨fun k => Nat.le_of_add_right_le (hcost k), fun hstrict => ?_⟩
    obtain ⟨k, hk⟩ := hpaid hstrict
    have hfall := hcost k
    exact ⟨k, by omega⟩
  | seeder i toSeeder paid due o input hq hpaid hdue he =>
    subst he
    have hfalls := hq.falls
    have hsent : weigh (e.toLeecher i ++
        ((e.seeders i).step sha1 input).2.filterMap (sentTo o (t.own i))) =
        weigh (e.toLeecher i) + weigh (sent o (t.own i) ((e.seeders i).step sha1 input).2) :=
      weigh_append ..
    have hself : cost t (({ e with toSeeder := Function.update e.toSeeder i toSeeder } :
        Transfer ι).seederTook t o i ((e.seeders i).step sha1 input)) i + due ≤ cost t e i := by
      simp only [cost, seederTook, Function.update_self, hsent]
      omega
    refine ⟨fun k => ?_, fun hstrict => ⟨i, ?_⟩⟩
    · by_cases hk : k = i
      · subst hk
        exact Nat.le_of_add_right_le hself
      · simp only [cost, seederTook, Function.update_of_ne hk]
        exact Nat.le_refl _
    · have hdue' := hdue hstrict
      omega

def frames (e : Transfer ι) (i : ι) : Nat := (e.toLeecher i).length + (e.toSeeder i).length

theorem leecherLearns_frames (h : Running sha1 m content t e)
    (hstep : e.atLeecher sha1 t i true env = some e') (k : ι) :
    frames e' k + (if k = i then 1 else 0) = frames e k := by
  unfold atLeecher at hstep
  split at hstep
  · contradiction
  · next f rest hframe =>
    split_ifs at hstep with hkind hreg
    have hfrom := (h.links i).fromSeeder f (hframe ▸ List.mem_cons_self ..)
    obtain ⟨o, body⟩ := f
    cases hfrom with
    | @pex payload hsize =>
      obtain ⟨message, harrives, hsame⟩ := arrival_same (pex_sendable o hsize)
      obtain rfl : _ = message := hsame
      rw [harrives] at hstep
      obtain rfl := Option.some.inj hstep
      have hsilent := Swarm.learns_silently sha1 env e.leecher (t.addr i) (t.addr k) payload
        env.order
      unfold sent at hsilent
      simp only [frames, leecherTook, hsilent, List.append_nil]
      by_cases hk : k = i
      · subst hk
        rw [Function.update_self, hframe, if_pos rfl, List.length_cons]
        omega
      · rw [Function.update_of_ne hk, if_neg hk, Nat.add_zero]
    | _ => exact absurd Bool.false_ne_true hkind

theorem seederLearns_frames (h : Running sha1 m content t e)
    (hstep : e.atSeeder sha1 t i true env = some e') (k : ι) :
    frames e' k + (if k = i then 1 else 0) = frames e k := by
  unfold atSeeder at hstep
  split at hstep
  · contradiction
  · next f rest hframe =>
    split_ifs at hstep with hkind hreg
    have hfrom := (h.links i).fromLeecher f (hframe ▸ List.mem_cons_self ..)
    obtain ⟨o, body⟩ := f
    cases hfrom with
    | @pex payload hsize =>
      obtain ⟨message, harrives, hsame⟩ := arrival_same (pex_sendable o hsize)
      obtain rfl : _ = message := hsame
      rw [harrives] at hstep
      obtain rfl := Option.some.inj hstep
      have hsilent :=
        Swarm.learns_silently sha1 env (e.seeders i) (t.own i) (t.own i) payload env.order
      unfold sent at hsilent
      simp only [frames, seederTook, hsilent, List.append_nil, Function.update_eq_self]
      by_cases hk : k = i
      · subst hk
        rw [Function.update_self, hframe, if_pos rfl, List.length_cons]
        omega
      · rw [Function.update_of_ne hk, if_neg hk, Nat.add_zero]
    | _ => exact absurd Bool.false_ne_true hkind

def Kept (m : Metainfo) (content : Bytes) (start : PieceManager) (e : Transfer ι) : Prop :=
  (∀ j, start.CompleteAt j → e.leecher.pieces.CompleteAt j) ∧ ∃ indices : List Nat,
    e.written = indices.map (fun i =>
      (⟨i, 0, (pieceBytes m content i).length⟩, pieceBytes m content i)) ∧
      Enumerates indices fun i => e.leecher.pieces.CompleteAt i ∧ ¬ start.CompleteAt i

theorem Kept.turn {strict : Bool} {start : PieceManager} (h : Kept m content start e)
    (hturn : Turn sha1 m content t e strict e') : Kept m content start e' := by
  cases hturn with
  | seeder i toSeeder paid due o input hq hpaid hdue he =>
    subst he
    exact h
  | leecher toLeecher paid o q hq hpaid he =>
    subst he
    obtain ⟨hstart, indices, hwritten, henum⟩ := h
    rcases hq.gains with ⟨hnone, hsame⟩ | ⟨i, hi, hone, hopen, hmore⟩
    · refine ⟨fun j hj => (hsame j).mpr (hstart j hj), indices, ?_, henum.congr fun j => ?_⟩
      · simp only [leecherTook, hnone, List.append_nil, hwritten]
      · exact and_congr_left fun _ => (hsame j).symm
    · refine ⟨fun j hj => (hmore j).mpr (.inl (hstart j hj)), indices ++ [i], ?_, ?_⟩
      · simp only [leecherTook, hone, hwritten, List.map_append, List.map_cons, List.map_nil]
      · have happended := henum.append (List.nodup_singleton i) fun j hj => by
          rw [List.mem_singleton.mp hj]
          exact fun hdone => hopen hdone.1
        refine happended.congr fun j => ?_
        simp only [leecherTook, hmore, List.mem_singleton]
        constructor
        · rintro (⟨hdone, hnew⟩ | rfl)
          · exact ⟨.inl hdone, hnew⟩
          · exact ⟨.inr rfl, fun hj => hopen (hstart j hj)⟩
        · rintro ⟨hdone | rfl, hnew⟩
          · exact .inl ⟨hdone, hnew⟩
          · exact .inr rfl

end Transfer

end Tortue
