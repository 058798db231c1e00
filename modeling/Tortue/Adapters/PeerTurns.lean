import Tortue.Adapters.Peering

namespace Tortue

open Collections

namespace PeerStage

def dialing : PeerStage → Bool
  | .retrying _ _ | .sleeping _ _ _ | .connecting _ _ _ => true
  | _ => false

def streaming : PeerStage → Bool
  | .greeting _ _ _ | .talking _ _ => true
  | _ => false

def gone : PeerStage → Bool
  | .ended _ => true
  | _ => false

end PeerStage

namespace PeerTask

def opener (config : PeerConfig) (handshake : Handshake) (o : IterOrder) : List Message.Sending :=
  if handshake.extensionProtocol then
    [(o, .extensionHandshake (sessionHandshake config.metadataSize))]
  else []

inductive Took (t : PeerTask) (s : PeerSignals) : PeerTask × List PeerAct → Prop
  | rest : Took t s (t, [])
  | screen (inbound : InboundPeer) : t.stage = .accepted inbound →
      TcpPeerConnector.admits t.config.infoHash inbound = true →
      Took t s ({ t with stage := .opening inbound.handshake inbound.stream }, [])
  | sleep (sleepFor delay attempts : Nat) : t.stage = .retrying delay attempts →
      s.cancelled = false → attempts < TcpPeerIo.maxAttempts → TcpPeerIo.Jittered delay sleepFor →
      Took t s ({ t with stage := .sleeping sleepFor delay (attempts + 1) }, [])
  | wake (sleepFor delay attempts : Nat) : t.stage = .sleeping sleepFor delay attempts →
      Took t s ({ t with stage := .connecting sleepFor delay attempts }, [])
  | connected (slept delay attempts : Nat) (reader : Bytes) (handshake : Handshake)
      (rest : Bytes) : t.stage = .connecting slept delay attempts →
      TcpPeerIo.connect t.config.infoHash t.config.clientId reader = .ok (handshake, rest) →
      Took t s ({ t with stage := .opening handshake rest }, [.dial slept true])
  | failed (slept delay attempts : Nat) : t.stage = .connecting slept delay attempts →
      Took t s ({ t with stage := .retrying (TcpPeerIo.nextDelay delay) attempts },
        [.dial slept false])
  | enter (handshake : Handshake) (reader : Bytes) (o : IterOrder) :
      t.stage = .opening handshake reader → s.cancelled = false →
      Took t s ({ t with
          stage := .greeting handshake reader (Message.stream (opener t.config handshake o)) },
        .start handshake reader :: (opener t.config handshake o).map .send)
  | greet (n : Nat) (handshake : Handshake) (reader writing : Bytes) :
      t.stage = .greeting handshake reader writing →
      Took t s ({ t with stage := .greeting handshake reader (writing.drop n) },
        [.wrote (writing.take n)])
  | flow (n : Nat) (reader writing : Bytes) : t.stage = .talking reader writing →
      Took t s ({ t with stage := .talking reader (writing.drop n) }, [.wrote (writing.take n)])
  | redial : t.stage.streaming = true → t.direction = .outbound →
      Took t s ({ t with stage := .retrying TcpPeerIo.reconnectDelay 0 }, [])
  | stop : t.stage.dialing = false → t.stage.gone = false → Took t s (t.finish (.ok ()))
  | cancel : t.stage.dialing = true → s.cancelled = true →
      Took t s (t.finish (.error .cancelled))
  | giveUp (delay attempts : Nat) : t.stage = .retrying delay attempts → s.cancelled = false →
      TcpPeerIo.maxAttempts ≤ attempts → Took t s (t.finish (.error .maxAttemptsExceeded))
  | announce (handshake : Handshake) (reader : Bytes) : t.stage = .greeting handshake reader [] →
      Took t s ({ t with stage := .talking reader [] },
        [.event (connectedEvent handshake t.direction)])
  | read (reader writing rest : Bytes) (message : Message) : t.stage = .talking reader writing →
      Message.readFrom reader = .ok (message, rest) →
      Took t s ({ t with stage := .talking rest writing }, [.event (.messageReceived message)])
  | take (reader : Bytes) (o : IterOrder) (message : Message) (commands : List Message) :
      t.stage = .talking reader [] → t.commands = message :: commands →
      Took t s ({ t with commands, stage := .talking reader (message.frame o) },
        [.take message, .send (o, message)])
  | keepAlive (reader : Bytes) (o : IterOrder) : t.stage = .talking reader [] →
      Took t s ({ t with stage := .talking reader (Message.keepAlive.frame o) },
        [.send (o, .keepAlive)])

variable {t : PeerTask} {s : PeerSignals}

theorem took_leave (exit : SessionExit) (h : t.stage.streaming = true) :
    Took t s (t.leave exit) := by
  have hdialing : t.stage.dialing = false := by
    cases hstage : t.stage <;> simp [hstage, PeerStage.streaming, PeerStage.dialing] at h ⊢
  have hover : t.stage.gone = false := by
    cases hstage : t.stage <;> simp [hstage, PeerStage.streaming, PeerStage.gone] at h ⊢
  cases exit with
  | stop => exact .stop hdialing hover
  | reconnect =>
    unfold leave
    dsimp only
    split
    · next hdirection => exact .redial h hdirection
    · exact .stop hdialing hover

theorem took_screen {inbound : InboundPeer} (h : t.stage = .accepted inbound) :
    Took t s (t.screen inbound) := by
  unfold screen
  split
  · next hadmits => exact .screen inbound h hadmits
  · exact .stop (by rw [h]; rfl) (by rw [h]; rfl)

theorem took_retry {delay attempts : Nat} (h : t.stage = .retrying delay attempts) (draw : Nat) :
    Took t s (t.retry s delay attempts draw) := by
  unfold retry
  split
  · next hcancelled => exact .cancel (by rw [h]; rfl) hcancelled
  · next hcancelled =>
    have hlive : s.cancelled = false := Bool.eq_false_iff.mpr hcancelled
    split
    · next hmax => exact .giveUp delay attempts h hlive hmax
    · next hmax =>
      have hjitter : TcpPeerIo.Jittered delay (TcpPeerIo.sleepFor delay draw) :=
        TcpPeerIo.exists_sleepFor_eq_iff.mp ⟨draw, rfl⟩
      exact .sleep _ delay attempts h hlive (Nat.lt_of_not_le hmax) hjitter

theorem took_dial {slept delay attempts : Nat} (h : t.stage = .connecting slept delay attempts)
    (reader : Option Bytes) : Took t s (t.dial slept delay attempts reader) := by
  unfold dial
  split
  · next handshake rest hconnect =>
    obtain ⟨bytes, rfl, hok⟩ := Option.map_eq_some_iff.mp hconnect
    exact .connected slept delay attempts bytes handshake rest h hok
  · exact .failed slept delay attempts h

theorem took_enter {handshake : Handshake} {reader : Bytes}
    (h : t.stage = .opening handshake reader) (o : IterOrder) :
      Took t s (t.enter s handshake reader o) := by
  unfold enter
  split
  · exact .stop (by rw [h]; rfl) (by rw [h]; rfl)
  · next hcancelled =>
    have hlive : s.cancelled = false := Bool.eq_false_iff.mpr hcancelled
    have hentered := Took.enter (t := t) (s := s) handshake reader o h hlive
    unfold opener at hentered
    split
    · next hextension =>
      rw [if_pos hextension] at hentered
      simpa [Message.stream] using hentered
    · next hextension =>
      rw [if_neg hextension] at hentered
      exact hentered

theorem took_read {reader writing : Bytes} (h : t.stage = .talking reader writing)
    (timely : Bool) : Took t s (t.read reader writing timely) := by
  unfold read
  split
  · next message rest hread => exact .read reader writing rest message h hread
  · exact took_leave _ (by rw [h]; rfl)

theorem took_receive {reader : Bytes} (h : t.stage = .talking reader []) (o : IterOrder) :
    Took t s (t.receive s reader o) := by
  unfold receive
  split
  · next message commands hcommands => exact .take reader o message commands h hcommands
  · split
    · exact took_leave _ (by rw [h]; rfl)
    · exact .rest

theorem took_notice (h : s.cancelled = true) : Took t s t.notice := by
  unfold notice
  split
  · next hstage => exact .cancel (by rw [hstage]; rfl) h
  · next hstage => exact .cancel (by rw [hstage]; rfl) h
  · next hstage => exact .cancel (by rw [hstage]; rfl) h
  · next hstage => exact took_leave _ (by rw [hstage]; rfl)
  · next hstage => exact took_leave _ (by rw [hstage]; rfl)
  · exact .rest

theorem took (t : PeerTask) (s : PeerSignals) (move : PeerMove) : Took t s (t.step s move) := by
  cases move with
  | check =>
    simp only [step]
    split
    · next hstage => exact took_screen hstage
    · next hstage => exact took_retry hstage _
    · exact .rest
  | notice =>
    simp only [step]
    split
    · next hcancelled => exact took_notice hcancelled
    · exact .rest
  | wake =>
    simp only [step]
    split
    · next hstage => exact .wake _ _ _ hstage
    · exact .rest
  | dial reader =>
    simp only [step]
    split
    · next hstage => exact took_dial hstage reader
    · exact .rest
  | enter o =>
    simp only [step]
    split
    · next hstage => exact took_enter hstage o
    · exact .rest
  | flow n =>
    simp only [step]
    split
    · next hstage => exact .greet n _ _ _ hstage
    · next hstage => exact .flow n _ _ hstage
    · exact .rest
  | breaks =>
    simp only [step]
    split
    · next hstage => exact took_leave _ (by rw [hstage]; rfl)
    · next hstage => exact took_leave _ (by rw [hstage]; rfl)
    · exact .rest
  | announce =>
    simp only [step]
    split
    · next hstage => exact .announce _ _ hstage
    · exact .rest
  | read timely =>
    simp only [step]
    split
    · next hstage => exact took_read hstage timely
    · exact .rest
  | receive o =>
    simp only [step]
    split
    · next hstage => exact took_receive hstage o
    · exact .rest
  | keepAlive o =>
    simp only [step]
    split
    · next hstage => exact .keepAlive _ o hstage
    · exact .rest

theorem Took.frame {r : PeerTask × List PeerAct} (h : Took t s r) :
    r.1.addr = t.addr ∧ r.1.config = t.config ∧ r.1.direction = t.direction := by
  cases h <;> exact ⟨rfl, rfl, rfl⟩

end PeerTask

end Tortue
