import Tortue.Adapters.UdpAnswers
import Tortue.Domain.Swarm.Frame

namespace Tortue

open Collections

namespace UdpTransport

open TrackerIo (Error)

namespace System

variable {req : AnnounceRequest} {connectTx announceTx key : UInt32} {connectionId : UInt64}
  {s t : System} {reply : Reply} {resp : TrackerResponse} {e : Error}

structure Connected (req : AnnounceRequest) (connectTx : UInt32) (connectionId : UInt64)
    (announceTx key : UInt32) (s : System) : Prop where
  sent : s.exchange.sent =
    [buildConnectRequest connectTx, buildAnnounceRequest connectionId announceTx key req]
  granted : ∃ a ∈ s.answers,
    a.request = buildConnectRequest connectTx ∧ a.choice = .connect connectionId

structure Served (req : AnnounceRequest) (connectTx : UInt32) (connectionId : UInt64)
    (announceTx key : UInt32) (reply : Reply) (resp : TrackerResponse) (s : System) : Prop where
  connected : Connected req connectTx connectionId announceTx key s
  answered : ∃ a ∈ s.answers,
    a.request = buildAnnounceRequest connectionId announceTx key req ∧ a.choice = .announce reply
  fits : 20 + reply.peerBytes.length ≤ bufSize
  interval : resp.interval = reply.interval
  peers : parseSocketAddrs reply.peerBytes = .ok resp.peers

def Sent (req : AnnounceRequest) (connectTx : UInt32) (s : System) : Prop :=
  s.exchange.sent = [buildConnectRequest connectTx] ∨
    ∃ connectionId announceTx key, Connected req connectTx connectionId announceTx key s

inductive Failure (req : AnnounceRequest) (connectTx : UInt32) (s : System) : Error → Prop
  | io (reason : String) : Failure req connectTx s (.io reason)
  | refused {a : Answer} {text : Bytes} {reason : String} (ha : a ∈ s.answers)
      (h : a.choice = .refuse text) (hreason : reason ∈ refusals) :
      Failure req connectTx s (.invalidResponse reason)
  | repeated {a : Answer} {connectionId given : UInt64} {announceTx key : UInt32}
      (hconnected : Connected req connectTx connectionId announceTx key s) (ha : a ∈ s.answers)
      (h : a.choice = .connect given) :
      Failure req connectTx s (.invalidResponse "udp announce response too short")
  | cut {a : Answer} {reply : Reply} (ha : a ∈ s.answers) (h : a.choice = .announce reply)
      (hlong : bufSize < 20 + reply.peerBytes.length) :
      Failure req connectTx s (.message .invalidMessage)

inductive Stage (req : AnnounceRequest) (connectTx : UInt32) (s : System) : Prop
  | connecting (hphase : s.exchange.phase = .connecting connectTx)
      (hsent : s.exchange.sent = [buildConnectRequest connectTx]) : Stage req connectTx s
  | announcing {connectionId : UInt64} {announceTx key : UInt32}
      (hphase : s.exchange.phase = .announcing announceTx)
      (h : Connected req connectTx connectionId announceTx key s) : Stage req connectTx s
  | served {connectionId : UInt64} {announceTx key : UInt32} {reply : Reply}
      {resp : TrackerResponse} (hphase : s.exchange.phase = .finished (.ok resp))
      (h : Served req connectTx connectionId announceTx key reply resp s) : Stage req connectTx s
  | failed {e : Error} (hphase : s.exchange.phase = .finished (.error e))
      (hsent : Sent req connectTx s) (h : Failure req connectTx s e) : Stage req connectTx s

structure Invariant (req : AnnounceRequest) (connectTx : UInt32) (s : System) : Prop where
  stage : Stage req connectTx s
  requests : ∀ a ∈ s.answers, a.request ∈ s.exchange.sent

theorem invariant_start : Invariant req connectTx (start connectTx) where
  stage := .connecting rfl rfl
  requests := by
    intro a ha
    contradiction

section Answered

variable (hexchange : t.exchange = s.exchange) (hanswers : s.answers ⊆ t.answers)
include hexchange hanswers

theorem Connected.mono (h : Connected req connectTx connectionId announceTx key s) :
    Connected req connectTx connectionId announceTx key t where
  sent := by rw [hexchange, h.sent]
  granted := by
    obtain ⟨a, ha, hgranted⟩ := h.granted
    exact ⟨a, hanswers ha, hgranted⟩

theorem Served.mono (h : Served req connectTx connectionId announceTx key reply resp s) :
    Served req connectTx connectionId announceTx key reply resp t where
  connected := h.connected.mono hexchange hanswers
  answered := by
    obtain ⟨a, ha, hanswered⟩ := h.answered
    exact ⟨a, hanswers ha, hanswered⟩
  fits := h.fits
  interval := h.interval
  peers := h.peers

theorem Sent.mono (h : Sent req connectTx s) : Sent req connectTx t := by
  rcases h with h | ⟨connectionId, announceTx, key, h⟩
  · exact .inl (by rw [hexchange, h])
  · exact .inr ⟨connectionId, announceTx, key, h.mono hexchange hanswers⟩

theorem Failure.mono (h : Failure req connectTx s e) : Failure req connectTx t e := by
  cases h with
  | io reason => exact .io reason
  | refused ha h hreason => exact .refused (hanswers ha) h hreason
  | repeated hconnected ha h => exact .repeated (hconnected.mono hexchange hanswers) (hanswers ha) h
  | cut ha h hlong => exact .cut (hanswers ha) h hlong

theorem Stage.mono (h : Stage req connectTx s) : Stage req connectTx t := by
  cases h with
  | connecting hphase hsent =>
    exact .connecting (by rw [hexchange, hphase]) (by rw [hexchange, hsent])
  | announcing hphase h => exact .announcing (by rw [hexchange, hphase]) (h.mono hexchange hanswers)
  | served hphase h => exact .served (by rw [hexchange, hphase]) (h.mono hexchange hanswers)
  | failed hphase hsent h =>
    exact .failed (by rw [hexchange, hphase]) (hsent.mono hexchange hanswers)
      (h.mono hexchange hanswers)

end Answered

theorem actions_differ : u32Bytes actionConnect ≠ u32Bytes actionAnnounce := by decide

inductive Asked (req : AnnounceRequest) (connectTx : UInt32) (connectionId : UInt64)
    (announceTx key : UInt32) (a : Answer) : Prop
  | granted {given : UInt64} (h : a.choice = .connect given)
      (htx : window a.request 12 4 = u32Bytes connectTx.toNat) :
      Asked req connectTx connectionId announceTx key a
  | announced {reply : Reply} (h : a.choice = .announce reply)
      (hrequest : a.request = buildAnnounceRequest connectionId announceTx key req)
      (htx : window a.request 12 4 = u32Bytes announceTx.toNat) :
      Asked req connectTx connectionId announceTx key a
  | refused {text : Bytes} (h : a.choice = .refuse text)
      (hlen : (window a.request 12 4).length = 4) :
      Asked req connectTx connectionId announceTx key a

theorem asked {a : Answer} (h : a.request ∈
    [buildConnectRequest connectTx, buildAnnounceRequest connectionId announceTx key req]) :
    Asked req connectTx connectionId announceTx key a := by
  have hsuits := a.suits
  simp only [List.mem_cons, List.not_mem_nil, or_false] at h
  rcases h with hrequest | hrequest
  · obtain ⟨haction, htx⟩ := connectRequest_fields connectTx
    rw [← hrequest] at haction htx
    cases hchoice : a.choice with
    | connect given => exact .granted hchoice htx
    | announce reply =>
      rw [hchoice, Choice.Suits, haction] at hsuits
      exact absurd hsuits actions_differ
    | refuse text => exact .refused hchoice (by rw [htx]; exact length_u32Bytes _)
  · have haction := announceRequest_action connectionId announceTx key req
    have htx := announceRequest_txId connectionId announceTx key req
    rw [← hrequest] at haction htx
    cases hchoice : a.choice with
    | connect given =>
      rw [hchoice, Choice.Suits, haction] at hsuits
      exact absurd hsuits.symm actions_differ
    | announce reply => exact .announced hchoice hrequest htx
    | refuse text => exact .refused hchoice (by rw [htx]; exact length_u32Bytes _)

theorem stage_connecting {a : Answer} (hphase : s.exchange.phase = .connecting connectTx)
    (hsent : s.exchange.sent = [buildConnectRequest connectTx]) (ha : a ∈ s.answers)
    (hrequest : a.request ∈ s.exchange.sent) (announceTx key : UInt32) :
    Stage req connectTx
      { s with exchange := receive req s.exchange a.response announceTx key } := by
  rw [hsent, List.mem_singleton] at hrequest
  obtain ⟨haction, htx⟩ := connectRequest_fields connectTx
  rw [← hrequest] at haction htx
  have hsuits := a.suits
  cases hchoice : a.choice with
  | connect connectionId =>
    have hnext : receive req s.exchange a.response announceTx key = ⟨.announcing announceTx,
        s.exchange.sent ++ [buildAnnounceRequest connectionId announceTx key req]⟩ := by
      simp only [receive, hphase, connected_parsed hchoice htx]
    rw [hnext, hsent]
    exact .announcing rfl ⟨rfl, a, ha, hrequest, hchoice⟩
  | announce reply =>
    rw [hchoice, Choice.Suits, haction] at hsuits
    exact absurd hsuits actions_differ
  | refuse text =>
    obtain ⟨reason, hreason, hparsed⟩ := refused_connect hchoice connectTx
      (by rw [htx]; exact length_u32Bytes _)
    have hnext : receive req s.exchange a.response announceTx key =
        { s.exchange with phase := .finished (.error (.invalidResponse reason)) } := by
      simp only [receive, hphase, hparsed]
    rw [hnext]
    exact .failed rfl (.inl hsent) (.refused ha hchoice hreason)

theorem stage_announcing {a : Answer} (hphase : s.exchange.phase = .announcing announceTx)
    (h : Connected req connectTx connectionId announceTx key s) (ha : a ∈ s.answers)
    (hrequest : a.request ∈ s.exchange.sent) (announceTx' key' : UInt32) :
    Stage req connectTx
      { s with exchange := receive req s.exchange a.response announceTx' key' } := by
  have hkept : ∀ phase, Connected req connectTx connectionId announceTx key
      { s with exchange := { s.exchange with phase := phase } } := fun _ => ⟨h.sent, h.granted⟩
  have hsent : ∀ phase, Sent req connectTx
      { s with exchange := { s.exchange with phase := phase } } :=
    fun phase => .inr ⟨connectionId, announceTx, key, hkept phase⟩
  have hnext : receive req s.exchange a.response announceTx' key' = { s.exchange with
      phase := .finished (parseAnnounceResponse (a.response.take bufSize) announceTx) } := by
    simp only [receive, hphase]
  rw [hnext]
  rw [h.sent] at hrequest
  cases asked hrequest with
  | granted hchoice htx =>
    rw [connected_repeated hchoice (by rw [htx]; exact length_u32Bytes _)]
    exact .failed rfl (hsent _) (.repeated (hkept _) ha hchoice)
  | @announced reply hchoice hasked htx =>
    by_cases hfits : 20 + reply.peerBytes.length ≤ bufSize
    · obtain ⟨peers, hpeers⟩ := peerBytes_parsed reply
      rw [announced_parsed hchoice htx hfits hpeers]
      exact .served rfl ⟨hkept _, ⟨a, ha, hasked, hchoice⟩, hfits, rfl, hpeers⟩
    · have hlong := Nat.lt_of_not_le hfits
      rw [announced_cut hchoice htx hlong]
      exact .failed rfl (hsent _) (.cut ha hchoice hlong)
  | refused hchoice hlen =>
    obtain ⟨reason, hreason, hparsed⟩ := refused_announce hchoice announceTx hlen
    rw [hparsed]
    exact .failed rfl (hsent _) (.refused ha hchoice hreason)

theorem Stage.sent (h : Stage req connectTx s) : Sent req connectTx s := by
  cases h with
  | connecting _ hsent => exact .inl hsent
  | announcing _ h => exact .inr ⟨_, _, _, h⟩
  | served _ h => exact .inr ⟨_, _, _, h.connected⟩
  | failed _ hsent _ => exact hsent

theorem stage_received {a : Answer} (h : Invariant req connectTx s) (ha : a ∈ s.answers)
    (announceTx key : UInt32) : Stage req connectTx
      { s with exchange := receive req s.exchange a.response announceTx key } := by
  have hstage := h.stage
  have hdone : ∀ result, s.exchange.phase = .finished result →
      receive req s.exchange a.response announceTx key = s.exchange := by
    intro result hphase
    simp only [receive, hphase]
  cases h.stage with
  | connecting hphase hsent =>
    exact stage_connecting hphase hsent ha (h.requests a ha) announceTx key
  | announcing hphase hconnected =>
    exact stage_announcing hphase hconnected ha (h.requests a ha) announceTx key
  | served hphase _ =>
    rw [hdone _ hphase]
    exact hstage
  | failed hphase _ _ =>
    rw [hdone _ hphase]
    exact hstage

theorem stage_failed (h : Stage req connectTx s) (reason : String) :
    Stage req connectTx { s with exchange := fail s.exchange reason } := by
  have hsent : Sent req connectTx
      { s with exchange := { s.exchange with phase := .finished (.error (.io reason)) } } := by
    rcases h.sent with hsent | ⟨connectionId, announceTx, key, hconnected⟩
    · exact .inl hsent
    · exact .inr ⟨connectionId, announceTx, key, hconnected.sent, hconnected.granted⟩
  cases hphase : s.exchange.phase with
  | finished result =>
    have hsame : fail s.exchange reason = s.exchange := by simp only [fail, hphase]
    rw [hsame]
    exact h
  | connecting txId =>
    simp only [fail, hphase]
    exact .failed rfl hsent (.io reason)
  | announcing txId =>
    simp only [fail, hphase]
    exact .failed rfl hsent (.io reason)

theorem sent_receive (x : Exchange) (datagram : Bytes) (announceTx key : UInt32) :
    x.sent ⊆ (receive req x datagram announceTx key).sent := by
  unfold receive
  split
  · split
    · exact List.subset_append_left _ _
    · exact List.Subset.refl _
  · exact List.Subset.refl _
  · exact List.Subset.refl _

theorem sent_fail (x : Exchange) (reason : String) : (fail x reason).sent = x.sent := by
  unfold fail
  split <;> rfl

theorem invariant_makes (h : Invariant req connectTx s) (hmakes : Makes req s t) :
    Invariant req connectTx t := by
  cases hmakes with
  | answered a ha =>
    have hanswers : s.answers ⊆ s.answers ++ [a] := List.subset_append_left _ _
    refine ⟨h.stage.mono (by rfl) hanswers, fun b hb => ?_⟩
    rcases List.mem_append.mp hb with hold | hnew
    · exact h.requests b hold
    · obtain rfl := List.mem_singleton.mp hnew
      exact ha
  | received a ha announceTx key =>
    exact ⟨stage_received h ha announceTx key,
      fun b hb => sent_receive _ _ _ _ (h.requests b hb)⟩
  | failed reason =>
    refine ⟨stage_failed h.stage reason, fun b hb => ?_⟩
    rw [sent_fail]
    exact h.requests b hb

theorem walk_invariant {events : List Happens}
    (h : Walk (step req) (start connectTx) events s) : Invariant req connectTx s :=
  h.invariant (fun _ _ _ hs hstep => invariant_makes hs (step_makes hstep)) invariant_start

section Peers

theorem peers_v4 (hv4 : ∀ p ∈ reply.peers, p.isV4 = true) :
    parseSocketAddrs reply.peerBytes = .ok reply.peers := by
  have hbytes : reply.peerBytes = reply.peers.flatMap UtPexMessage.addedBytes := by
    refine List.flatMap_congr fun p hp => ?_
    obtain ⟨ip, port, rfl, -⟩ := addedBytes_v4 (hv4 p hp)
    rfl
  rw [hbytes, parse_added hv4]

theorem peers_v6 (hv6 : ∀ p ∈ reply.peers, p.isV4 = false) {peers : List SocketAddr}
    (h : parseSocketAddrs reply.peerBytes = .ok peers) :
    peers.length = 3 * reply.peers.length ∧ ∀ p ∈ peers, p.isV4 = true := by
  have hlength : reply.peerBytes.length = 18 * reply.peers.length := by
    rw [Reply.peerBytes]
    generalize reply.peers = l at hv6
    induction l with
    | nil => rfl
    | cons p l ih =>
      have hp : (compactAddr p).length = 18 := by
        cases p with
        | v4 ip port => exact absurd (hv6 _ List.mem_cons_self) (by simp [SocketAddr.isV4])
        | v6 ip port _ _ => simp [compactAddr, u16ToBe, ip.property]
      rw [List.flatMap_cons, List.length_append, hp, List.length_cons,
        ih fun q hq => hv6 q (List.mem_cons_of_mem _ hq)]
      omega
  refine ⟨?_, parsed_v4 h⟩
  rw [(parseSocketAddrs_eq_ok.mp h).2, List.length_map, length_chunksExact, hlength]
  omega

end Peers

section Completion

theorem step_delivered (req : AnnounceRequest) (a : Answer) (hrequest : a.request ∈ s.exchange.sent)
    (announceTx key : UInt32) :
    Walk (step req) s [.answered a.request a.choice, .received a.response announceTx key]
      ⟨receive req s.exchange a.response announceTx key, s.answers ++ [a]⟩ := by
  have hanswered : step req s (.answered a.request a.choice) =
      some { s with answers := s.answers ++ [a] } := dif_pos ⟨hrequest, a.suits⟩
  have hin : a.response ∈ (s.answers ++ [a]).map Answer.response :=
    List.mem_map_of_mem (List.mem_append_right _ (List.mem_singleton_self a))
  exact .cons hanswered (.cons (if_pos hin) .nil)

theorem finish_announcing (hphase : s.exchange.phase = .announcing announceTx)
    (h : Connected req connectTx connectionId announceTx key s)
    (hfits : 20 + reply.peerBytes.length ≤ bufSize) : ∃ events t peers,
      Walk (step req) s events t ∧ t.exchange.phase = .finished (.ok ⟨reply.interval, peers⟩) := by
  let a : Answer := ⟨buildAnnounceRequest connectionId announceTx key req, .announce reply,
    announceRequest_action connectionId announceTx key req⟩
  have hrequest : a.request ∈ s.exchange.sent := by
    rw [h.sent]
    exact List.mem_cons_of_mem _ List.mem_cons_self
  obtain ⟨peers, hpeers⟩ := peerBytes_parsed reply
  have hparsed : parseAnnounceResponse (a.response.take bufSize) announceTx =
      .ok ⟨reply.interval, peers⟩ :=
    announced_parsed rfl (announceRequest_txId connectionId announceTx key req) hfits hpeers
  refine ⟨_, _, peers, step_delivered req a hrequest 0 0, ?_⟩
  simp only [receive, hphase, hparsed]

theorem finish_connecting (hphase : s.exchange.phase = .connecting connectTx)
    (hsent : s.exchange.sent = [buildConnectRequest connectTx])
    (hfits : 20 + reply.peerBytes.length ≤ bufSize) : ∃ events t peers,
      Walk (step req) s events t ∧ t.exchange.phase = .finished (.ok ⟨reply.interval, peers⟩) := by
  obtain ⟨haction, htx⟩ := connectRequest_fields connectTx
  let a : Answer := ⟨buildConnectRequest connectTx, .connect 0, haction⟩
  have hrequest : a.request ∈ s.exchange.sent := by
    rw [hsent]
    exact List.mem_cons_self
  have hparsed : parseConnectResponse (a.response.take bufSize) connectTx = .ok 0 :=
    connected_parsed rfl htx
  have hnext : receive req s.exchange a.response 0 0 =
      ⟨.announcing 0, [buildConnectRequest connectTx, buildAnnounceRequest 0 0 0 req]⟩ := by
    simp only [receive, hphase, hparsed, hsent]
    rfl
  have hfirst := step_delivered req a hrequest 0 0
  rw [hnext] at hfirst
  have hconnected : Connected req connectTx 0 0 0 ⟨⟨.announcing 0,
      [buildConnectRequest connectTx, buildAnnounceRequest 0 0 0 req]⟩, s.answers ++ [a]⟩ :=
    ⟨rfl, a, List.mem_append_right _ (List.mem_singleton_self a), rfl, rfl⟩
  obtain ⟨events, t, peers, hwalk, hfinished⟩ := finish_announcing rfl hconnected hfits
  exact ⟨_, t, peers, hfirst.append hwalk, hfinished⟩

end Completion

theorem announce_exchanged (req : AnnounceRequest) (connectTx : UInt32) {events : List Happens}
    {s : System} (h : Walk (step req) (start connectTx) events s) :
    (∀ resp, s.exchange.phase = .finished (.ok resp) → ∃ connectionId announceTx key reply,
      Served req connectTx connectionId announceTx key reply resp s ∧
        ((∀ p ∈ reply.peers, p.isV4 = true) → resp.peers = reply.peers) ∧
        ((∀ p ∈ reply.peers, p.isV4 = false) → resp.peers.length = 3 * reply.peers.length ∧
          ∀ p ∈ resp.peers, p.isV4 = true)) ∧
    (∀ e, s.exchange.phase = .finished (.error e) → Failure req connectTx s e) ∧
    Sent req connectTx s ∧
    ((∀ result, s.exchange.phase ≠ .finished result) → ∀ reply : Reply,
      20 + reply.peerBytes.length ≤ bufSize → ∃ more t peers,
        Walk (step req) s more t ∧
          t.exchange.phase = .finished (.ok ⟨reply.interval, peers⟩)) := by
  have hstage := (walk_invariant h).stage
  refine ⟨fun resp hresp => ?_, fun e he => ?_, hstage.sent, fun hopen reply hfits => ?_⟩
  · cases hstage with
    | connecting hphase _ => rw [hphase] at hresp; contradiction
    | announcing hphase _ => rw [hphase] at hresp; contradiction
    | served hphase hserved =>
      rw [hphase] at hresp
      obtain rfl := Except.ok.inj (Phase.finished.inj hresp)
      refine ⟨_, _, _, _, hserved, fun hv4 => ?_, fun hv6 => peers_v6 hv6 hserved.peers⟩
      have hsame := hserved.peers
      rw [peers_v4 hv4] at hsame
      exact (Except.ok.inj hsame).symm
    | failed hphase _ _ => rw [hphase] at hresp; simp at hresp
  · cases hstage with
    | connecting hphase _ => rw [hphase] at he; contradiction
    | announcing hphase _ => rw [hphase] at he; contradiction
    | served hphase _ => rw [hphase] at he; simp at he
    | failed hphase _ hfailure =>
      rw [hphase] at he
      obtain rfl := Except.error.inj (Phase.finished.inj he)
      exact hfailure
  · cases hstage with
    | connecting hphase hsent => exact finish_connecting hphase hsent hfits
    | announcing hphase hconnected => exact finish_announcing hphase hconnected hfits
    | served hphase _ => exact absurd hphase (hopen _)
    | failed hphase _ _ => exact absurd hphase (hopen _)

def response (s : System) : Option TrackerResponse :=
  match s.exchange.phase with
  | .finished (.ok resp) => some resp
  | _ => none

theorem response_eq_some (h : s.response = some resp) :
    s.exchange.phase = .finished (.ok resp) := by
  unfold response at h
  split at h
  · next hphase => rw [hphase, Option.some.inj h]
  · contradiction

end System

end UdpTransport

namespace Sample

open UdpTransport

def udpRequest : AnnounceRequest :=
  ⟨octets 3, peerId 1, 1234, ⟨.active, 5, 7, 11⟩, .started, true⟩

def udpReply : Reply := ⟨1800, 1, 2, [addr 80, addr 81]⟩

def udpEvents : List Happens :=
  let connect := buildConnectRequest 5
  let announce := buildAnnounceRequest 77 6 9 udpRequest
  [.answered connect (.connect 76), .answered connect (.connect 77),
    .received ((Choice.connect 77).response connect) 6 9, .answered announce (.announce udpReply),
    .received ((Choice.announce udpReply).response announce) 0 0]

end Sample

namespace UdpTransport

namespace System

theorem sample_announce_exchanged : ∃ s resp,
    Walk.run (step Sample.udpRequest) (start 5) Sample.udpEvents = some s ∧
      s.exchange.phase = .finished (.ok resp) ∧ resp.peers = Sample.udpReply.peers ∧
        ∃ connectionId announceTx key reply,
          Served Sample.udpRequest 5 connectionId announceTx key reply resp s := by
  have hrun : (((Walk.run (step Sample.udpRequest) (start 5) Sample.udpEvents).bind
      response).map TrackerResponse.peers) = some Sample.udpReply.peers := by
    decide +kernel
  obtain ⟨resp, hresp, hpeers⟩ := Option.map_eq_some_iff.mp hrun
  obtain ⟨s, hs, hresp⟩ := Option.bind_eq_some_iff.mp hresp
  have hphase := response_eq_some hresp
  obtain ⟨connectionId, announceTx, key, reply, hserved, -⟩ :=
    (announce_exchanged Sample.udpRequest 5 (Walk.of_run hs)).1 resp hphase
  exact ⟨s, resp, hs, hphase, hpeers, connectionId, announceTx, key, reply, hserved⟩

end System

end UdpTransport

end Tortue
