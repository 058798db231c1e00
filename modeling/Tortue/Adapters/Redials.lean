import Tortue.Adapters.PeerLives

namespace Tortue

open Collections

namespace PeerAct

def failure? : PeerAct → Nat → Nat
  | .dial _ true, _ => 0
  | .dial _ false, n => n + 1
  | _, n => n

def connected? : PeerAct → Bool
  | .dial _ connected => connected
  | _ => false

def dials : PeerAct → Bool
  | .dial _ _ => true
  | _ => false

def starts : PeerAct → Bool
  | .start _ _ => true
  | _ => false

end PeerAct

namespace PeerTask

variable {t : PeerTask} {s : PeerSignals} {done newer : List PeerAct}

def failures (done : List PeerAct) : Nat := done.foldl (fun n a => a.failure? n) 0

def everConnected (done : List PeerAct) : Bool := done.any PeerAct.connected?

def pause : Bool → Nat → Nat
  | true, n => TcpPeerIo.reconnectDelay * 2 ^ n
  | false, 0 => 0
  | false, n + 1 => TcpPeerIo.reconnectDelay * 2 ^ n

theorem pause_next (again : Bool) {n : Nat} (h : n + 1 < TcpPeerIo.maxAttempts) :
    TcpPeerIo.nextDelay (pause again n) = pause again (n + 1) := by
  have hall : ∀ again : Bool, ∀ n < 4,
      TcpPeerIo.nextDelay (pause again n) = pause again (n + 1) := by decide
  exact hall again n (Nat.lt_of_succ_lt_succ h)

theorem pause_le (again : Bool) {n : Nat} (h : n < TcpPeerIo.maxAttempts) :
    pause again n ≤ TcpPeerIo.seconds 64 := by
  have hall : ∀ again : Bool, ∀ n < 5, pause again n ≤ TcpPeerIo.seconds 64 := by decide
  exact hall again n h

theorem failures_append (done newer : List PeerAct) :
    failures (done ++ newer) = newer.foldl (fun n a => a.failure? n) (failures done) :=
  List.foldl_append ..

theorem everConnected_append (done newer : List PeerAct) :
    everConnected (done ++ newer) = (everConnected done || everConnected newer) :=
  List.any_append ..

def Paced (done : List PeerAct) : Prop :=
  ∀ k slept connected, done[k]? = some (.dial slept connected) →
    failures (done.take k) < TcpPeerIo.maxAttempts ∧
      TcpPeerIo.Jittered (pause (everConnected (done.take k)) (failures (done.take k))) slept

def Counted (done : List PeerAct) : PeerStage → Prop
  | .accepted _ => True
  | .retrying delay attempts => attempts = failures done ∧ attempts ≤ TcpPeerIo.maxAttempts ∧
      (attempts < TcpPeerIo.maxAttempts → delay = pause (everConnected done) attempts)
  | .sleeping slept delay attempts | .connecting slept delay attempts =>
      attempts = failures done + 1 ∧ attempts ≤ TcpPeerIo.maxAttempts ∧
        delay = pause (everConnected done) (failures done) ∧ TcpPeerIo.Jittered delay slept
  | .ended result => result = .error .maxAttemptsExceeded →
      failures done = TcpPeerIo.maxAttempts
  | _ => True

structure Pursuing (t : PeerTask) (done : List PeerAct) : Prop where
  paced : Paced done
  counted : Counted done t.stage
  reached : t.direction = .outbound → t.stage.dialing = false → t.stage.gone = false →
    failures done = 0 ∧ everConnected done = true

theorem paced_append (h : Paced done) (hnewer : newer.all (fun a => !a.dials) = true) :
    Paced (done ++ newer) := by
  intro k slept connected hk
  rw [List.getElem?_append] at hk
  split_ifs at hk with hold
  · rw [List.take_append_of_le_length (Nat.le_of_lt hold)]
    exact h k slept connected hk
  · have hquiet := List.all_eq_true.mp hnewer _ (List.mem_of_getElem? hk)
    contradiction

theorem paced_dial (h : Paced done) (slept : Nat) (connected : Bool)
    (hfew : failures done < TcpPeerIo.maxAttempts)
    (hslept : TcpPeerIo.Jittered (pause (everConnected done) (failures done)) slept) :
    Paced (done ++ [.dial slept connected]) := by
  intro k slept' connected' hk
  rw [List.getElem?_append] at hk
  split_ifs at hk with hold
  · rw [List.take_append_of_le_length (Nat.le_of_lt hold)]
    exact h k slept' connected' hk
  · have hk' : k = done.length := by
      have hlt := (List.getElem?_eq_some_iff.mp hk).1
      rw [List.length_singleton] at hlt
      omega
    subst hk'
    rw [Nat.sub_self, List.getElem?_cons_zero, Option.some.injEq, PeerAct.dial.injEq] at hk
    rw [List.take_left, ← hk.1]
    exact ⟨hfew, hslept⟩

theorem quiet_counts (done : List PeerAct) (hnewer : newer.all (fun a => !a.dials) = true) :
    failures (done ++ newer) = failures done ∧
      everConnected (done ++ newer) = everConnected done := by
  induction newer generalizing done with
  | nil => rw [List.append_nil]; exact ⟨rfl, rfl⟩
  | cons a newer ih =>
    obtain ⟨ha, hnewer⟩ := (Bool.and_eq_true ..).mp hnewer
    have hone : failures (done ++ [a]) = failures done ∧
        everConnected (done ++ [a]) = everConnected done := by
      rw [failures_append, everConnected_append]
      cases a with
      | dial slept connected => contradiction
      | _ => exact ⟨rfl, Bool.or_false _⟩
    obtain ⟨hfailures, hconnected⟩ := ih (done ++ [a]) hnewer
    rw [List.append_assoc, List.singleton_append] at hfailures hconnected
    exact ⟨hfailures.trans hone.1, hconnected.trans hone.2⟩

theorem Pursuing.quiet (h : Pursuing t done) {t' : PeerTask}
    (hnewer : newer.all (fun a => !a.dials) = true) (hcounted : Counted done t'.stage)
    (hreached : t'.direction = .outbound → t'.stage.dialing = false → t'.stage.gone = false →
      failures done = 0 ∧ everConnected done = true) : Pursuing t' (done ++ newer) := by
  obtain ⟨hfailures, hconnected⟩ := quiet_counts done hnewer
  refine ⟨paced_append h.paced hnewer, ?_, fun hdirection hdialing hover => ?_⟩
  · cases hstage : t'.stage <;> simp only [hstage, Counted, hfailures, hconnected] at hcounted ⊢ <;>
      exact hcounted
  · rw [hfailures, hconnected]
    exact hreached hdirection hdialing hover

theorem Pursuing.took (h : Pursuing t done) {r : PeerTask × List PeerAct} (hr : t.Took s r) :
    Pursuing r.1 (done ++ r.2) := by
  have hcounted := h.counted
  have hreached := h.reached
  cases hr with
  | rest => exact h.quiet rfl hcounted hreached
  | screen inbound hstage =>
    rw [hstage] at hreached
    exact h.quiet rfl trivial hreached
  | sleep slept delay attempts hstage hlive hfew hjitter =>
    rw [hstage] at hcounted
    obtain ⟨hfailures, -, hdelay⟩ := hcounted
    refine h.quiet rfl ⟨congrArg (· + 1) hfailures, hfew, ?_, hjitter⟩
      fun _ hdialing => by contradiction
    rw [← hfailures]
    exact hdelay hfew
  | wake slept delay attempts hstage =>
    rw [hstage] at hcounted
    exact h.quiet rfl hcounted fun _ hdialing => by contradiction
  | connected slept delay attempts reader handshake rest hstage =>
    rw [hstage] at hcounted
    obtain ⟨hfailures, hfew, hdelay, hjitter⟩ := hcounted
    rw [hdelay] at hjitter
    refine ⟨paced_dial h.paced slept true (by omega) hjitter, trivial, fun _ _ _ => ?_⟩
    rw [failures_append, everConnected_append]
    exact ⟨rfl, Bool.or_true _⟩
  | failed slept delay attempts hstage =>
    rw [hstage] at hcounted
    obtain ⟨hfailures, hfew, hdelay, hjitter⟩ := hcounted
    rw [hdelay] at hjitter
    refine ⟨paced_dial h.paced slept false (by omega) hjitter, ?_,
      fun _ hdialing => by contradiction⟩
    rw [Counted, failures_append, everConnected_append]
    refine ⟨hfailures, hfew, fun hmore => ?_⟩
    rw [hdelay, pause_next _ (by omega), hfailures]
    exact congrArg (pause · _) (Bool.or_false _).symm
  | enter handshake reader o hstage =>
    rw [hstage] at hreached
    refine h.quiet ?_ trivial hreached
    simp [PeerAct.dials]
  | greet n handshake reader writing hstage =>
    rw [hstage] at hreached
    exact h.quiet rfl trivial hreached
  | flow n reader writing hstage =>
    rw [hstage] at hreached
    exact h.quiet rfl trivial hreached
  | redial hstreaming houtbound =>
    have hzero : failures done = 0 ∧ everConnected done = true := by
      refine hreached houtbound ?_ ?_ <;>
        cases hstage : t.stage <;> simp [hstage, PeerStage.streaming, PeerStage.dialing,
          PeerStage.gone] at hstreaming ⊢
    refine h.quiet rfl ⟨hzero.1.symm, Nat.zero_le _, fun _ => ?_⟩ fun _ hdialing => by contradiction
    rw [hzero.2]
    rfl
  | stop => exact h.quiet rfl (fun heq => by contradiction) fun _ _ hover => by contradiction
  | cancel => exact h.quiet rfl (fun heq => by contradiction) fun _ _ hover => by contradiction
  | giveUp delay attempts hstage hlive hmany =>
    rw [hstage] at hcounted
    obtain ⟨hfailures, hfew, -⟩ := hcounted
    exact h.quiet rfl (fun _ => by omega) fun _ _ hover => by contradiction
  | announce handshake reader hstage =>
    rw [hstage] at hreached
    exact h.quiet rfl trivial hreached
  | read reader writing rest message hstage =>
    rw [hstage] at hreached
    exact h.quiet rfl trivial hreached
  | take reader o message commands hstage =>
    rw [hstage] at hreached
    exact h.quiet rfl trivial hreached
  | keepAlive reader o hstage =>
    rw [hstage] at hreached
    exact h.quiet rfl trivial hreached

theorem Life.pursuing {spawned : PeerTask} {placed : List Message}
    (h : Life spawned placed done t) (hspawned : spawned.Spawned) : Pursuing t done := by
  induction h with
  | start =>
    obtain ⟨config, addr, rfl | ⟨inbound, rfl⟩⟩ := hspawned
    · exact ⟨fun k => by simp, ⟨rfl, Nat.zero_le _, fun _ => rfl⟩,
        fun _ hdialing => by contradiction⟩
    · exact ⟨fun k => by simp, trivial, fun houtbound => by contradiction⟩
  | deliver messages _ ih => exact ⟨ih.paced, ih.counted, ih.reached⟩
  | step _ htook ih => exact ih.took htook

end PeerTask

end Tortue
