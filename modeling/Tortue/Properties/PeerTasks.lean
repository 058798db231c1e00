import Tortue.Properties.Integrity
import Tortue.Adapters.Cancellations
import Tortue.Adapters.Conversations

namespace Tortue

open Collections

namespace Peering

variable {sha1 : Sha1} {clientId : PeerId} {metainfo : Metainfo} {p : Peering} {log : Log}
  {number : Nat} {t : PeerTask}

theorem tasks_refine_sessions
    (hist : History (step sha1) (Started sha1 clientId metainfo) log p) :
    ∃ log', History (SwarmIo.step sha1) (SwarmIo.Started sha1 clientId metainfo) log' p.io ∧
      History.transcript log' = effects log := by
  obtain ⟨log', io, hist', ⟨rfl, -⟩, htranscript⟩ :=
    (refines sha1 clientId metainfo).transfer hist
  exact ⟨log', hist', htranscript⟩

theorem sessions_carry_messages {sha1' : Sha1} {clientId' : PeerId} {metainfo' : Metainfo}
    {p' : Peering} {log' : Log} {number' : Nat} {t' : PeerTask} {c c' : Conversation}
    (hist : History (step sha1) (Started sha1 clientId metainfo) log p)
    (hist' : History (step sha1') (Started sha1' clientId' metainfo') log' p')
    (ht : p.tasks[number]? = some t) (ht' : p'.tasks[number']? = some t')
    (hc : Conversation.latest (acts number log) = some c)
    (hc' : Conversation.latest (acts number' log') = some c')
    (hwire : c.reader <+: c'.written) (hfits : ∀ x ∈ c'.said, Message.Sendable x) :
    (∃ carried later, c'.said = carried ++ later ∧
      List.Forall₂ Message.Same (carried.map Prod.snd) c.heard) ∧
    (∃ o, (c'.said.map Prod.snd).filter Conversation.spoken =
      (PeerTask.opener t'.config c'.handshake o).map Prod.snd ++
        c'.taken.filter Conversation.spoken) ∧
    ∃ earlier, placed number' log' = earlier ++ c'.taken ++ t'.commands := by
  obtain ⟨spawned, hspawned, hlife⟩ := (populated hist).lives number t ht
  obtain ⟨spawned', hspawned', hlife'⟩ := (populated hist').lives number' t' ht'
  obtain ⟨reader, writing, hfaithful⟩ := (hlife.conversing hspawned).past c hc
  obtain ⟨reader', writing', hfaithful'⟩ := (hlife'.conversing hspawned').past c' hc'
  have hempty : spawned'.commands = [] := by
    obtain ⟨config, addr, rfl | ⟨inbound, rfl⟩⟩ := hspawned' <;> rfl
  have hsaid : c'.written <+: Message.stream c'.said := ⟨writing', hfaithful'.written⟩
  obtain ⟨earlier, htaken⟩ := PeerTask.latest_taken hc'
  refine ⟨Message.readMany_prefix hfits (hwire.trans hsaid) hfaithful.heard, hfaithful'.said,
    earlier, ?_⟩
  rw [hlife'.channel hempty, htaken]

theorem redials_paced (hist : History (step sha1) (Started sha1 clientId metainfo) log p)
    (ht : p.tasks[number]? = some t) :
    (∀ k slept connected, (acts number log)[k]? = some (.dial slept connected) →
      let before := (acts number log).take k
      let delay := PeerTask.pause (PeerTask.everConnected before) (PeerTask.failures before)
      PeerTask.failures before < TcpPeerIo.maxAttempts ∧ delay ≤ TcpPeerIo.seconds 64 ∧
        8 * delay ≤ 10 * slept ∧ 10 * slept ≤ 12 * delay) ∧
    (t.stage = .ended (.error .maxAttemptsExceeded) →
      PeerTask.failures (acts number log) = TcpPeerIo.maxAttempts) := by
  obtain ⟨spawned, hspawned, hlife⟩ := (populated hist).lives number t ht
  have hpursuing := hlife.pursuing hspawned
  refine ⟨fun k slept connected hk => ?_, fun hended => ?_⟩
  · obtain ⟨hfew, hjitter⟩ := hpursuing.paced k slept connected hk
    exact ⟨hfew, PeerTask.pause_le _ hfew, hjitter⟩
  · have hcounted := hpursuing.counted
    rw [hended] at hcounted
    exact hcounted rfl

theorem cancelled_task_winds_up
    (hist : History (step sha1) (Started sha1 clientId metainfo) log p)
    (h : p.Cancelled number t) (is : List (Move × Entropy)) :
    ∃ newer, acts number (History.events (step sha1) p is ++ log) = acts number log ++ newer ∧
      newer.countP PeerAct.dials ≤ 1 ∧ newer.countP PeerAct.starts = 0 := by
  obtain ⟨t', -, hwinding⟩ := cancelled_run sha1 (tracked hist).1 h is
  refine ⟨_, ?_, ?_, hwinding.starts⟩
  · unfold acts
    rw [History.transcript_events, List.filterMap_append]
  · have hdials := hwinding.dials
    have hchance : t.stage.chances ≤ 1 := by
      unfold PeerStage.chances
      split <;> omega
    omega

end Peering

namespace Sample

def openedAs (n : UInt8) : Option SwarmIo :=
  (SwarmIo.new (peerId n) torrent [blankFile]).bind fun io => (io.restore contentSha1 env).toOption

@[irreducible] def peering (n : UInt8) : Option Peering :=
  (openedAs n).map fun io =>
    ⟨⟨peerId n, torrent.infoHash, some torrent.infoBytes.length⟩, io, []⟩

abbrev peeringStep := Peering.step contentSha1

abbrev PeeringStarted (n : UInt8) := Peering.Started contentSha1 (peerId n) torrent

def drawnPeering (moves : List Peering.Move) : List (Peering.Move × Entropy) :=
  moves.map fun move => (move, env)

theorem peering_started {n : UInt8} {p : Peering} (h : peering n = some p) :
    PeeringStarted n p := by
  unfold peering at h
  obtain ⟨io, hio, rfl⟩ := Option.map_eq_some_iff.mp h
  obtain ⟨fresh, hnew, hrestore⟩ := Option.bind_eq_some_iff.mp hio
  exact ⟨⟨[blankFile], fresh, env, blankFile_laid, hnew, Except.toOption_eq_some.mp hrestore⟩,
    rfl, rfl⟩

theorem peering_history {n : UInt8} {check : Peering → Bool} (h : (peering n).any check = true) :
    ∃ p, check p = true ∧ ∀ moves,
      History peeringStep (PeeringStarted n) (History.events peeringStep p (drawnPeering moves))
        (History.run peeringStep p (drawnPeering moves)).1 := by
  obtain ⟨p, hp, hcheck⟩ := (Option.any_eq_true _ _).mp h
  refine ⟨p, hcheck, fun moves => ?_⟩
  have hstart : History peeringStep (PeeringStarted n) [] p := .start (peering_started hp)
  have hist := hstart.run_events (drawnPeering moves)
  rwa [List.append_nil] at hist

def introducing : List Message.Sending :=
  [(.insertion, .extensionHandshake (sessionHandshake (some torrent.infoBytes.length))),
    (.insertion, .haveNone)]

def listening : List Peering.Move :=
  [.inbound (addr 90) ⟨TcpPeerIo.outbound torrent.infoHash (peerId 1), []⟩, .task 0 (.check 0),
    .task 0 (.enter .insertion), .task 0 (.flow 100), .task 0 .announce, .loop .peerEvent] ++
    handled.map .loop ++ [.task 0 (.receive .insertion), .task 0 (.flow 5)]

def unanswered : List Peering.Move :=
  .loop (.peers (some [addr 80])) :: handled.map .loop ++
    [.task 0 (.check 0), .task 0 .wake, .task 0 (.dial none)]

def redialling : List Peering.Move :=
  [.task 0 (.check 1000000000), .task 0 .wake,
    .task 0 (.dial (some ((TcpPeerIo.outbound torrent.infoHash (peerId 2)).encode ++
      Message.stream introducing))),
    .task 0 (.enter .insertion), .task 0 (.flow 100), .task 0 .announce, .task 0 (.read true),
    .task 0 (.read true)]

def dropping : List Peering.Move :=
  [.loop .peerEvent, .loop (.handle fun _ => false), .loop (.handle fun _ => false)]

def redialled : PeerAct → Bool
  | .dial slept connected => decide (slept = 4200000000) && connected
  | _ => false

theorem redialled_eq {a : PeerAct} (h : redialled a = true) : a = .dial 4200000000 true := by
  unfold redialled at h
  split at h
  · obtain ⟨hslept, hconnected⟩ := (Bool.and_eq_true ..).mp h
    rw [of_decide_eq_true hslept, hconnected]
  · contradiction

theorem introducing_sendable {said : List Message.Sending}
    (hsaid : said.map Prod.snd = introducing.map Prod.snd)
    (hsize : said.all (fun x => decide ((x.2.encode x.1).length ≤ Message.maxMessageSize)) = true) :
    ∀ x ∈ said, Message.Sendable x := by
  intro x hx
  refine ⟨?_, of_decide_eq_true (List.all_eq_true.mp hsize x hx)⟩
  have hmem : x.2 ∈ introducing.map Prod.snd := hsaid ▸ List.mem_map_of_mem hx
  rcases List.mem_cons.mp hmem with hhello | hmem
  · have hinfo : torrent.infoBytes.length < 2 ^ 63 := by decide +kernel
    rw [hhello]
    exact fun n hn => Option.some.inj hn ▸ hinfo
  · rw [List.mem_singleton.mp hmem]
    trivial

end Sample

namespace Peering

theorem sample_messages_carried : ∃ p log p' log' t' c c',
    History Sample.peeringStep (Sample.PeeringStarted 1) log p ∧
    History Sample.peeringStep (Sample.PeeringStarted 2) log' p' ∧
    p'.tasks[0]? = some t' ∧ Conversation.latest (acts 0 log) = some c ∧
    Conversation.latest (acts 0 log') = some c' ∧ c.heard.length = 2 ∧
    (∃ carried later, c'.said = carried ++ later ∧
      List.Forall₂ Message.Same (carried.map Prod.snd) c.heard) ∧
    ∃ earlier, placed 0 log' = earlier ++ c'.taken ++ t'.commands := by
  have hdialer : ((Sample.peering 1).any fun p =>
      let is := Sample.drawnPeering (Sample.unanswered ++ Sample.redialling)
      (History.run Sample.peeringStep p is).1.tasks[0]?.isSome &&
      (Conversation.latest (acts 0 (History.events Sample.peeringStep p is))).any fun c =>
        decide (c.reader = Message.stream Sample.introducing ∧ c.heard.length = 2)) = true := by
    decide +kernel
  have hlistener : ((Sample.peering 2).any fun p =>
      let is := Sample.drawnPeering Sample.listening
      (History.run Sample.peeringStep p is).1.tasks[0]?.isSome &&
      (Conversation.latest (acts 0 (History.events Sample.peeringStep p is))).any fun c =>
        decide (c.written = Message.stream Sample.introducing) &&
        decide (c.said.map Prod.snd = Sample.introducing.map Prod.snd) &&
        c.said.all fun x => decide ((x.2.encode x.1).length ≤ Message.maxMessageSize)) = true := by
    decide +kernel
  obtain ⟨p, hcheck, hist⟩ := Sample.peering_history hdialer
  obtain ⟨p', hcheck', hist'⟩ := Sample.peering_history hlistener
  obtain ⟨htask, hlatest⟩ := (Bool.and_eq_true ..).mp hcheck
  obtain ⟨htask', hlatest'⟩ := (Bool.and_eq_true ..).mp hcheck'
  obtain ⟨t, ht⟩ := Option.isSome_iff_exists.mp htask
  obtain ⟨t', ht'⟩ := Option.isSome_iff_exists.mp htask'
  obtain ⟨c, hc, hfacts⟩ := (Option.any_eq_true ..).mp hlatest
  obtain ⟨c', hc', hfacts'⟩ := (Option.any_eq_true ..).mp hlatest'
  obtain ⟨hreader, hheard⟩ := of_decide_eq_true hfacts
  obtain ⟨hboth, hsize⟩ := (Bool.and_eq_true ..).mp hfacts'
  obtain ⟨hwritten, hsaid⟩ := (Bool.and_eq_true ..).mp hboth
  have hwire : c.reader <+: c'.written := by
    rw [hreader, of_decide_eq_true hwritten]
  have hcarries := sessions_carry_messages (hist _) (hist' _) ht ht' hc hc' hwire
    (Sample.introducing_sendable (of_decide_eq_true hsaid) hsize)
  exact ⟨_, _, _, _, t', c, c', hist _, hist' _, ht', hc, hc', hheard, hcarries.1, hcarries.2.2⟩

theorem sample_tasks_refine : ∃ p log log',
    History Sample.peeringStep (Sample.PeeringStarted 1) log p ∧ (acts 0 log).length = 8 ∧
    History (SwarmIo.step Sample.contentSha1)
      (SwarmIo.Started Sample.contentSha1 (Sample.peerId 1) Sample.torrent) log' p.io ∧
    History.transcript log' = effects log := by
  have hrun : ((Sample.peering 1).any fun p => decide ((acts 0 (History.events Sample.peeringStep p
      (Sample.drawnPeering (Sample.unanswered ++ Sample.redialling)))).length = 8)) = true := by
    decide +kernel
  obtain ⟨p, hcheck, hist⟩ := Sample.peering_history hrun
  obtain ⟨log', hist', htranscript⟩ :=
    tasks_refine_sessions (hist (Sample.unanswered ++ Sample.redialling))
  exact ⟨_, _, log', hist _, of_decide_eq_true hcheck, hist', htranscript⟩

theorem sample_redial_paced : ∃ p log,
    History Sample.peeringStep (Sample.PeeringStarted 1) log p ∧
    (acts 0 log)[1]? = some (.dial 4200000000 true) ∧
    let delay := PeerTask.pause (PeerTask.everConnected ((acts 0 log).take 1))
      (PeerTask.failures ((acts 0 log).take 1))
    8 * delay ≤ 10 * 4200000000 ∧ 10 * 4200000000 ≤ 12 * delay := by
  have hrun : ((Sample.peering 1).any fun p =>
      let is := Sample.drawnPeering (Sample.unanswered ++ Sample.redialling)
      (History.run Sample.peeringStep p is).1.tasks[0]?.isSome &&
      (acts 0 (History.events Sample.peeringStep p is))[1]?.any Sample.redialled) = true := by
    decide +kernel
  obtain ⟨p, hcheck, hist⟩ := Sample.peering_history hrun
  obtain ⟨htask, hredial⟩ := (Bool.and_eq_true ..).mp hcheck
  obtain ⟨t, ht⟩ := Option.isSome_iff_exists.mp htask
  obtain ⟨a, ha, hdial⟩ := (Option.any_eq_true ..).mp hredial
  rw [Sample.redialled_eq hdial] at ha
  exact ⟨_, _, hist _, ha, ((redials_paced (hist _) ht).1 1 _ true ha).2.2⟩

theorem sample_cancelled_winds_up : ∃ p log t,
    History Sample.peeringStep (Sample.PeeringStarted 1) log p ∧ p.Cancelled 0 t ∧
    ∃ newer, acts 0 (History.events Sample.peeringStep p
        (Sample.drawnPeering (.task 0 .breaks :: Sample.redialling)) ++ log) =
          acts 0 log ++ newer ∧
      newer.countP PeerAct.dials ≤ 1 ∧ newer.countP PeerAct.starts = 0 := by
  have hrun : ((Sample.peering 1).any fun p =>
      let is := Sample.drawnPeering (Sample.unanswered ++ Sample.redialling ++ Sample.dropping)
      let p := (History.run Sample.peeringStep p is).1
      p.tasks[0]?.any fun t => decide (p.io.peerConnector.peerCancels.get t.addr ≠ some 0)) =
        true := by decide +kernel
  obtain ⟨p, hcheck, hist⟩ := Sample.peering_history hrun
  obtain ⟨t, ht, hcancelled⟩ := (Option.any_eq_true ..).mp hcheck
  have h : Cancelled _ 0 t := ⟨ht, of_decide_eq_true hcancelled⟩
  exact ⟨_, _, t, hist _, h, cancelled_task_winds_up (hist _) h _⟩

end Peering

end Tortue
