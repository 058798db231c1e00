import Tortue.Adapters.Delivery
import Mathlib.Algebra.Order.BigOperators.Group.Finset
import Mathlib.Data.Fintype.Basic

namespace Tortue

open Collections

namespace Exchange

variable {ι : Type} {sha1 : Sha1} {info : Bytes} {t : Topology ι} {e : Exchange ι}

def greets (frame : Bytes) : Bool :=
  match Message.decode frame with
  | .ok (.extensionHandshake _) => true
  | _ => false

def load (info : Bytes) (e : Exchange ι) (i : ι) : Nat :=
  (e.toFetcher i).length + 2 * (e.toServer i).length +
    2 * Metadata.blockCount info * (e.toFetcher i).countP greets

theorem greets_of_hello {size : Option Nat} {frame : Bytes} (h : Hello size frame) :
    greets frame = true := by
  obtain ⟨hs, hhello, -⟩ := h
  rw [greets, hhello]

theorem not_greets_of_answers {p : Nat} {frame : Bytes} (h : Answers info p frame) :
    greets frame = false := by
  rw [greets, h.2]

theorem length_missing_le {s : Metadata} (h : Metadata.Right info s) :
    s.missing.length ≤ Metadata.blockCount info := by
  have hle : s.missing.length ≤ (List.range s.pieces.length).length := List.length_filter_le ..
  rwa [List.length_range, h.count] at hle

def weight [Fintype ι] (info : Bytes) (e : Exchange ι) : Nat := ∑ i, load info e i

theorem weight_lt [Fintype ι] {e' : Exchange ι} {i : ι} (hi : load info e' i < load info e i)
    (hother : ∀ j, j ≠ i → load info e' j = load info e j) : weight info e' < weight info e := by
  refine Finset.sum_lt_sum (fun j _ => ?_) ⟨i, Finset.mem_univ i, hi⟩
  rcases eq_or_ne j i with rfl | hne
  · exact hi.le
  · exact (hother j hne).le

variable [DecidableEq ι]

section Load

variable {i j : ι} {frame : Bytes} {rest : List Bytes}

theorem load_fetcherTook (hframe : e.toFetcher i = frame :: rest) {order : IterOrder}
    {r : Metadata × List Metadata.Output}
    (hframes : (r.2.filterMap (frameOfFetcher order (t.addr i))).length ≤
      if greets frame = true then Metadata.blockCount info else 0) :
    load info (e.fetcherTook t i rest order r) i < load info e i := by
  have hfetcher : (e.fetcherTook t i rest order r).toFetcher i = rest := Function.update_self ..
  have hserver : (e.fetcherTook t i rest order r).toServer i =
    e.toServer i ++ r.2.filterMap (frameOfFetcher order (t.addr i)) := rfl
  rw [load, load, hfetcher, hserver, hframe, List.length_append, List.length_cons, List.countP_cons]
  split_ifs at hframes ⊢ with hgreets
  · have hsucc : 2 * Metadata.blockCount info * (rest.countP greets + 1) =
      2 * Metadata.blockCount info * rest.countP greets + 2 * Metadata.blockCount info :=
      Nat.mul_succ ..
    omega
  · simp only [Nat.add_zero]
    omega

theorem load_fetcherTook_other (hne : j ≠ i) {order : IterOrder}
    {r : Metadata × List Metadata.Output}
    (hframes : r.2.filterMap (frameOfFetcher order (t.addr j)) = []) :
    load info (e.fetcherTook t i rest order r) j = load info e j := by
  have hfetcher : (e.fetcherTook t i rest order r).toFetcher j = e.toFetcher j :=
    Function.update_of_ne hne ..
  have hserver : (e.fetcherTook t i rest order r).toServer j =
    e.toServer j ++ r.2.filterMap (frameOfFetcher order (t.addr j)) := rfl
  rw [load, load, hfetcher, hserver, hframes, List.append_nil]

theorem load_serverTook (hframe : e.toServer i = frame :: rest) {o : IterOrder}
    {r : Swarm × List Output}
    (hlength : (r.2.filterMap (frameOfServer o (t.own i))).length ≤ 1)
    (hsilent : ∀ f ∈ r.2.filterMap (frameOfServer o (t.own i)), greets f = false) :
    load info (e.serverTook t i rest o r) i < load info e i := by
  have hserver : (e.serverTook t i rest o r).toServer i = rest := Function.update_self ..
  have hfetcher : (e.serverTook t i rest o r).toFetcher i =
    e.toFetcher i ++ r.2.filterMap (frameOfServer o (t.own i)) := Function.update_self ..
  have hcount : (r.2.filterMap (frameOfServer o (t.own i))).countP greets = 0 :=
    List.countP_eq_zero.mpr fun f hf => by rw [hsilent f hf]; simp
  rw [load, load, hserver, hfetcher, hframe, List.length_append, List.length_cons,
    List.countP_append, hcount, Nat.add_zero]
  omega

theorem load_serverTook_other (hne : j ≠ i) {o : IterOrder} {r : Swarm × List Output} :
    load info (e.serverTook t i rest o r) j = load info e j := by
  have hserver : (e.serverTook t i rest o r).toServer j = e.toServer j :=
    Function.update_of_ne hne ..
  have hfetcher : (e.serverTook t i rest o r).toFetcher j = e.toFetcher j :=
    Function.update_of_ne hne ..
  rw [load, load, hserver, hfetcher]

end Load

theorem weight_atFetcher [Fintype ι] (hlt : info.length < 2 ^ 32) (h : Consistent sha1 info t e)
    {i : ι} {order : IterOrder} {e' : Exchange ι} (hstep : e.atFetcher sha1 t i order = some e') :
    weight info e' < weight info e := by
  obtain ⟨frame, rest, message, hframe, hdecode, rfl⟩ := atFetcher_eq_some.mp hstep
  rcases (h.connected i).fromServer frame (by rw [hframe]; exact List.mem_cons_self ..) with
    ⟨hs, hhello, hid, hsize⟩ | ⟨m, hm, hgreeting⟩ | ⟨p, hp⟩
  · obtain rfl : message = .extensionHandshake hs := Except.ok.inj (hdecode.symm.trans hhello)
    have hgreets := greets_of_hello ⟨hs, hhello, hid, hsize⟩
    have hright := Metadata.greeted_right h.fetching.right (t.addr i) utMetadataExtId
    have hpeer : (e.fetcher.greeted info.length (t.addr i) utMetadataExtId).peers.get (t.addr i) =
        some utMetadataExtId := by
      rw [Metadata.greeted_peers]
      exact HashMap.get_insert_self ..
    simp only [Metadata.step, Metadata.onMessage, Metadata.onHandshake_eq hid hsize]
    refine weight_lt (load_fetcherTook hframe ?_) fun j hne => load_fetcherTook_other hne ?_
    · rw [frames_missing order _ hpeer, if_pos rfl, if_pos hgreets, List.length_map]
      exact length_missing_le hright
    · rw [frames_missing order _ hpeer, if_neg (t.distinct.ne (Ne.symm hne))]
  · obtain rfl : message = m := Except.ok.inj (hdecode.symm.trans hm)
    rw [step_greeting hgreeting]
    exact weight_lt (load_fetcherTook hframe (Nat.zero_le _))
      fun j hne => load_fetcherTook_other hne rfl
  · obtain rfl := Except.ok.inj (hdecode.symm.trans hp.2)
    have hawaits := (h.connected i).asked.resolve_right fun hleads => by
      rw [hframe] at hleads
      obtain ⟨hs, hhello, -⟩ := hello_of_leads hleads
      rw [hp.2, Except.ok.injEq] at hhello
      contradiction
    obtain ⟨hpeer, hsized, -⟩ := hawaits
    have hbyte := Metadata.piece_lt_length hp.1
    have hstep := Metadata.onMessage_data sha1 order (Metadata.block info p) hpeer
      (show p < 2 ^ 64 by omega) (show info.length < 2 ^ 64 by omega)
    have hframes : ∀ j, (e.fetcher.onData sha1 order p (Metadata.block info p)).2.filterMap
        (frameOfFetcher order (t.addr j)) = [] := by
      intro j
      rcases onData_honest (h.fetching.right hsized) h.fetching.hash p with
        ⟨-, hdata⟩ | ⟨-, -, hdata⟩ | ⟨-, -, hdata⟩ <;> rw [hdata] <;> rfl
    simp only [Metadata.step, hstep]
    refine weight_lt (load_fetcherTook hframe ?_) fun j hne =>
      load_fetcherTook_other hne (hframes j)
    rw [hframes]
    exact Nat.zero_le _

theorem weight_atServer [Fintype ι] (hlt : info.length < 2 ^ 32) (h : Consistent sha1 info t e)
    {i : ι} {env : Entropy} {e' : Exchange ι} (hstep : e.atServer sha1 t i env = some e') :
    weight info e' < weight info e := by
  obtain ⟨frame, rest, message, hframe, hdecode, rfl⟩ := atServer_eq_some.mp hstep
  obtain ⟨r, hr, -, -, -, hreply⟩ := server_reply hlt h hframe hdecode env
  rw [hr]
  refine weight_lt (load_serverTook hframe ?_ ?_) fun j hne => load_serverTook_other hne
  · rcases hreply with ⟨hsilent, -⟩ | ⟨p, f, -, -, hsent⟩
    · rw [hsilent]
      exact Nat.zero_le _
    · rw [hsent]
      exact Nat.le_refl _
  · intro f' hf'
    rcases hreply with ⟨hsilent, -⟩ | ⟨p, f, -, hanswers, hsent⟩
    · rw [hsilent] at hf'
      contradiction
    · rw [hsent, List.mem_singleton] at hf'
      exact not_greets_of_answers (hf' ▸ hanswers)

theorem accessible [Fintype ι] (hinfo : info ≠ []) (hlt : info.length < 2 ^ 32)
    (h : Consistent sha1 info t e) : Acc (Function.swap (Next sha1 t)) e := by
  induction hw : weight info e using Nat.strongRecOn generalizing e with
  | ind w ih =>
    refine ⟨_, fun e' hnext => ?_⟩
    obtain ⟨d, hd⟩ := hnext
    cases d with
    | atFetcher i order =>
      have hlt' := weight_atFetcher hlt h hd
      exact ih _ (hw ▸ hlt') (consistent_atFetcher hinfo hlt h hd) rfl
    | atServer i env =>
      have hlt' := weight_atServer hlt h hd
      exact ih _ (hw ▸ hlt') (consistent_atServer hlt h hd) rfl

theorem Consistent.next (h : Consistent sha1 info t e) (hopen : ¬ e.Settled) :
    ∃ e', Next sha1 t e e' := by
  simp only [Settled, not_forall, not_and_or] at hopen
  obtain ⟨i, hfetcher | hserver⟩ := hopen
  · obtain ⟨frame, rest, hframe⟩ := List.exists_cons_of_ne_nil hfetcher
    have hdecode : ∃ message, Message.decode frame = .ok message := by
      rcases (h.connected i).fromServer frame (by rw [hframe]; exact List.mem_cons_self ..) with
        ⟨hs, hhello, -⟩ | ⟨m, hm, -⟩ | ⟨p, hp⟩
      · exact ⟨_, hhello⟩
      · exact ⟨m, hm⟩
      · exact ⟨_, hp.2⟩
    obtain ⟨message, hdecode⟩ := hdecode
    exact ⟨_, .atFetcher i .insertion,
      atFetcher_eq_some.mpr ⟨frame, rest, message, hframe, hdecode, rfl⟩⟩
  · obtain ⟨frame, rest, hframe⟩ := List.exists_cons_of_ne_nil hserver
    have hdecode : ∃ message, Message.decode frame = .ok message := by
      rcases (h.connected i).fromFetcher frame (by rw [hframe]; exact List.mem_cons_self ..) with
        ⟨hs, hhello, -⟩ | ⟨p, hp⟩
      · exact ⟨_, hhello⟩
      · exact ⟨_, hp.2⟩
    obtain ⟨message, hdecode⟩ := hdecode
    exact ⟨_, .atServer i ⟨fun _ => 0, .insertion⟩,
      atServer_eq_some.mpr ⟨frame, rest, message, hframe, hdecode, rfl⟩⟩

theorem metadata_exchange_completes [Fintype ι] [Nonempty ι] (hinfo : info ≠ [])
    (hlt : info.length < 2 ^ 32) {start : Exchange ι} (hopen : Opened sha1 info t start) :
    Acc (Function.swap (Next sha1 t)) start ∧
    ∀ e, Relation.ReflTransGen (Next sha1 t) start e →
      (e.done = [] ∨ e.done = [info]) ∧ (¬ e.Settled → ∃ e', Next sha1 t e e') ∧
      (e.Settled → e.done = [info]) := by
  refine ⟨accessible hinfo hlt (consistent_opened hlt hopen), fun e hrun => ?_⟩
  have h := consistent_run hinfo hlt hopen hrun
  exact ⟨h.done_le, h.next, h.done_of_settled⟩

end Exchange

namespace Sample

def seeding : Swarm := { swarm with metainfo := { metainfo with infoBytes := twoBlocks } }

def topology : Topology Bool where
  addr b := addr (if b then 82 else 81)
  distinct := by
    intro a b
    cases a <;> cases b <;> decide
  own _ := addr 80

def exchange : Exchange Bool where
  fetcher := Metadata.new (blockSha1 twoBlocks)
  servers := fun _ => (seeding.onConnected env (addr 80) .inbound (peerId 2) extensions).1
  toFetcher := fun _ =>
    (Message.extensionHandshake (sessionHandshake (some twoBlocks.length))).encode .insertion ::
      (seeding.onConnected env (addr 80) .inbound (peerId 2) extensions).2.filterMap
        (Exchange.frameOfServer .insertion (addr 80))
  toServer := fun _ => [(Message.extensionHandshake (sessionHandshake none)).encode .insertion]
  done := []

theorem exchange_opened : Exchange.Opened blockSha1 twoBlocks topology exchange where
  fetcher := rfl
  server := fun _ => ⟨seeding, env, .inbound, peerId 2, extensions, .insertion, rfl, rfl,
    rfl, rfl⟩
  greeting := fun _ => ⟨.insertion, rfl⟩
  done := rfl

end Sample

namespace Exchange

theorem two_servers_complete : Acc (Function.swap (Next Sample.blockSha1 Sample.topology))
      Sample.exchange ∧
    ∀ e, Relation.ReflTransGen (Next Sample.blockSha1 Sample.topology) Sample.exchange e →
      (e.done = [] ∨ e.done = [Sample.twoBlocks]) ∧
      (¬ e.Settled → ∃ e', Next Sample.blockSha1 Sample.topology e e') ∧
      (e.Settled → e.done = [Sample.twoBlocks]) :=
  metadata_exchange_completes Sample.twoBlocks_ne (by rw [Sample.length_twoBlocks]; decide)
    Sample.exchange_opened

end Exchange

end Tortue
