import Tortue.Adapters.PeerTurns
import Tortue.Collections.Refinement

namespace Tortue

open Collections

abbrev SessionFace := SocketAddr × ConnectionDirection × SessionState

def Session.face (s : Session) : SessionFace := (s.addr, s.direction, s.state)

def Session.step (s : Session) (move : SessionMove) : Session × List PeerEvent :=
  ((s.run move).1, (s.run move).2.toList)

def PeerTask.face (t : PeerTask) : SessionFace := (t.addr, t.direction, t.stage.session)

namespace PeerTask

variable {t : PeerTask} {s : PeerSignals} {session : Session}

theorem gone_session (h : t.stage.gone = false) : t.stage.session ≠ .ended := by
  cases hstage : t.stage <;> simp [hstage, PeerStage.gone, PeerStage.session] at h ⊢

theorem stays (h : session.face = t.face) {state : SessionState}
    (hstate : t.stage.session = state) :
    History.run Session.step session [] = ({ session with state }, []) := by
  obtain ⟨addr, direction, state', cancelled⟩ := session
  obtain ⟨-, -, hstate'⟩ : _ ∧ _ ∧ state' = t.stage.session := by
    simpa only [Session.face, face, Prod.mk.injEq] using h
  rw [hstate', hstate]
  rfl

theorem stops (h : session.face = t.face) (hover : t.stage.gone = false)
    (result : Except PeerTaskError Unit) : History.run Session.step session [.stop] =
      ({ session with state := (t.finish result).1.stage.session },
        (t.finish result).2.filterMap PeerAct.event?) := by
  obtain ⟨-, -, hstate⟩ : _ ∧ _ ∧ session.state = t.stage.session := by
    simpa only [Session.face, face, Prod.mk.injEq] using h
  have hlive : session.state ≠ .ended := hstate ▸ gone_session hover
  simp only [History.run, Session.step, Session.run, if_neg hlive]
  rfl

theorem Took.seen {r : PeerTask × List PeerAct} (hr : Took t s r) (h : session.face = t.face) :
    ∃ moves, History.run Session.step session moves =
      ({ session with state := r.1.stage.session }, r.2.filterMap PeerAct.event?) := by
  obtain ⟨-, hdirection, hstate⟩ : _ ∧ session.direction = t.direction ∧
      session.state = t.stage.session := by
    simpa only [Session.face, face, Prod.mk.injEq] using h
  cases hr with
  | rest => exact ⟨[], stays h rfl⟩
  | screen inbound hstage => exact ⟨[], stays h (by rw [hstage]; rfl)⟩
  | sleep slept delay attempts hstage => exact ⟨[], stays h (by rw [hstage]; rfl)⟩
  | wake slept delay attempts hstage => exact ⟨[], stays h (by rw [hstage]; rfl)⟩
  | connected slept delay attempts reader handshake rest hstage =>
    exact ⟨[], stays h (by rw [hstage]; rfl)⟩
  | failed slept delay attempts hstage => exact ⟨[], stays h (by rw [hstage]; rfl)⟩
  | enter handshake reader o hstage =>
    refine ⟨[], (stays h (congrArg PeerStage.session hstage)).trans ?_⟩
    have hquiet : ((opener t.config handshake o).map PeerAct.send).filterMap PeerAct.event? = [] :=
      by simp [PeerAct.event?]
    rw [List.filterMap_cons_none rfl, hquiet]
    rfl
  | greet n handshake reader writing hstage => exact ⟨[], stays h (by rw [hstage]; rfl)⟩
  | flow n reader writing hstage => exact ⟨[], stays h (by rw [hstage]; rfl)⟩
  | redial hstreaming houtbound =>
    cases hstage : t.stage with
    | greeting handshake reader writing => exact ⟨[], stays h (by rw [hstage]; rfl)⟩
    | talking reader writing =>
      have hconnected : session.state = .connected ∧ session.direction = .outbound :=
        ⟨by rw [hstate, hstage]; rfl, hdirection.trans houtbound⟩
      refine ⟨[.reconnect], ?_⟩
      simp only [History.run, Session.step, Session.run, if_pos hconnected]
      rfl
    | _ => simp [hstage, PeerStage.streaming] at hstreaming
  | stop hdialing hover => exact ⟨[.stop], stops h hover _⟩
  | cancel hdialing hcancelled =>
    refine ⟨[.stop], stops h ?_ _⟩
    cases hstage : t.stage <;> simp [hstage, PeerStage.dialing, PeerStage.gone] at hdialing ⊢
  | giveUp delay attempts hstage => exact ⟨[.stop], stops h (by rw [hstage]; rfl) _⟩
  | announce handshake reader hstage =>
    have hconnecting : session.state = .connecting := by rw [hstate, hstage]; rfl
    refine ⟨[.connect handshake.peerId ⟨handshake.dhtProtocol, handshake.fastExtension⟩], ?_⟩
    simp only [History.run, Session.step, Session.run, if_pos hconnecting, hdirection]
    rfl
  | read reader writing rest message hstage =>
    have hconnected : session.state = .connected := by rw [hstate, hstage]; rfl
    refine ⟨[.receive message], ?_⟩
    simp only [History.run, Session.step, Session.run, if_pos hconnected]
    obtain ⟨addr, direction, state, cancelled⟩ := session
    obtain rfl : state = .connected := hconnected
    rfl
  | take reader o message commands hstage => exact ⟨[], stays h (by rw [hstage]; rfl)⟩
  | keepAlive reader o hstage => exact ⟨[], stays h (by rw [hstage]; rfl)⟩

end PeerTask

namespace SwarmIo

variable {io : SwarmIo} {number : Nat} {session : Session}

theorem modify_of_get {α : Type} {l : List α} {k : Nat} {a : α} (h : l[k]? = some a) (f : α → α) :
    l.modify k f = l.set k (f a) := by
  obtain ⟨hlt, rfl⟩ := List.getElem?_eq_some_iff.mp h
  exact List.modify_eq_set_getElem? .. |>.trans (by simp [hlt])

theorem run_session (sha1 : Sha1) (env : Entropy) (moves : List SessionMove)
    (h : io.peerConnector.sessions[number]? = some session) :
    History.run (step sha1) io (moves.map fun move => (.session number move, env)) =
      ({ io with
          peerConnector := { io.peerConnector with
            sessions := io.peerConnector.sessions.set number
              (History.run Session.step session moves).1 }
          peerEvents := io.peerEvents ++
            (History.run Session.step session moves).2.map (number, session.addr, ·) }, []) := by
  induction moves generalizing io session with
  | nil =>
    have hset : io.peerConnector.sessions.set number session = io.peerConnector.sessions := by
      obtain ⟨hlt, rfl⟩ := List.getElem?_eq_some_iff.mp h
      exact List.set_getElem_self hlt
    simp only [List.map_nil, History.run, List.append_nil, hset]
  | cons move moves ih =>
    have hlt : number < io.peerConnector.sessions.length := (List.getElem?_eq_some_iff.mp h).1
    have hone : io.runSession number move = { io with
        peerConnector := { io.peerConnector with
          sessions := io.peerConnector.sessions.set number (session.run move).1 }
        peerEvents := io.peerEvents ++
          (session.run move).2.toList.map (number, session.addr, ·) } := by
      simp only [runSession, h]
    have hnext : (io.runSession number move).peerConnector.sessions[number]? =
        some (session.run move).1 := by
      rw [hone]
      exact List.getElem?_set_self hlt
    rw [List.map_cons, History.run, show step sha1 io (.session number move, env) =
      (io.runSession number move, []) from rfl, ih hnext, hone]
    simp only [History.run, Session.step, Session.run_addr, List.set_set, List.map_append,
      List.append_assoc, List.nil_append]

end SwarmIo

end Tortue
