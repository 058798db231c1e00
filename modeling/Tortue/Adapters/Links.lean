import Tortue.Adapters.PeerIo

namespace Tortue

open Collections

namespace Session

@[simp] theorem run_addr (s : Session) (move : SessionMove) : (s.run move).1.addr = s.addr := by
  cases move <;> simp only [run] <;> split_ifs <;> rfl

@[simp] theorem run_cancelled (s : Session) (move : SessionMove) :
    (s.run move).1.cancelled = s.cancelled := by
  cases move <;> simp only [run] <;> split_ifs <;> rfl

theorem run_ended {s : Session} (h : s.state = .ended) (move : SessionMove) :
    s.run move = (s, none) := by
  cases move <;> simp [run, h]

theorem run_running {s : Session} (h : s.state ≠ .ended) (move : SessionMove) :
    (s.run move).1.state = .ended ↔ (s.run move).2 = some .disconnected := by
  cases move with
  | connect peerId peerExtensions =>
    simp only [run]
    split_ifs <;> simp [h]
  | receive message =>
    simp only [run]
    split_ifs <;> simp [h]
  | reconnect =>
    simp only [run]
    split_ifs <;> simp [h]
  | stop => simp [run, h]

end Session

namespace TcpPeerConnector

variable (c : TcpPeerConnector)

theorem session_spawn (addr : SocketAddr) (direction : ConnectionDirection) (k : Nat) :
    (c.spawn addr direction).sessions[k]? =
      if k = c.sessions.length then some ⟨addr, direction, .connecting, false⟩
      else c.sessions[k]? := by
  simp only [spawn, List.getElem?_append]
  split_ifs with hlt heq heq
  · omega
  · rfl
  · simp [heq]
  · have hout : c.sessions.length ≤ k := by omega
    rw [List.getElem?_eq_none hout]
    exact List.getElem?_eq_none (by simp only [List.length_singleton]; omega)

theorem session_disconnect (addr : SocketAddr) (k : Nat) :
    (c.disconnect addr).sessions[k]? = c.sessions[k]?.map fun s =>
      if c.peerCancels.get addr = some k then { s with cancelled := true } else s := by
  unfold disconnect
  cases hget : c.peerCancels.get addr with
  | none => simp
  | some number =>
    simp only [List.getElem?_modify, Option.some.injEq]
    rfl

end TcpPeerConnector

structure Links where
  peerCmds : HashMap SocketAddr Nat
  peerEvents : List (Nat × SocketAddr × PeerEvent)
  peerConnector : TcpPeerConnector

namespace Links

inductive Action where
  | keep
  | spawn (addr : SocketAddr) (direction : ConnectionDirection)
  | disconnect (addr : SocketAddr)
  | run (number : Nat) (move : SessionMove)
  | receive

def spawn (l : Links) (addr : SocketAddr) (direction : ConnectionDirection) : Links where
  peerCmds := l.peerCmds.insert addr l.peerConnector.sessions.length
  peerEvents := l.peerEvents
  peerConnector := l.peerConnector.spawn addr direction

def disconnect (l : Links) (addr : SocketAddr) : Links where
  peerCmds := l.peerCmds.remove addr
  peerEvents := l.peerEvents
  peerConnector := l.peerConnector.disconnect addr

def run (l : Links) (number : Nat) (move : SessionMove) : Links :=
  match l.peerConnector.sessions[number]? with
  | none => l
  | some session =>
    { l with
      peerEvents := l.peerEvents ++
        (session.run move).2.toList.map fun event => (number, session.addr, event)
      peerConnector := { l.peerConnector with
        sessions := l.peerConnector.sessions.set number (session.run move).1 } }

def receive (l : Links) : Links :=
  match l.peerEvents with
  | [] => l
  | (_, addr, .disconnected) :: peerEvents =>
    { l with peerCmds := l.peerCmds.remove addr, peerEvents }
  | _ :: peerEvents => { l with peerEvents }

def apply (l : Links) : Action → Links
  | .keep => l
  | .spawn addr direction => l.spawn addr direction
  | .disconnect addr => l.disconnect addr
  | .run number move => l.run number move
  | .receive => l.receive

def Pending (l : Links) (addr : SocketAddr) (k : Nat) : Prop :=
  ∃ s ∈ l.peerConnector.sessions[k]?,
    s.addr = addr ∧ (s.state ≠ .ended ∨ (k, addr, .disconnected) ∈ l.peerEvents)

def Cancelled (l : Links) (k : Nat) : Prop :=
  ∃ s ∈ l.peerConnector.sessions[k]?, s.cancelled = true

instance (l : Links) (addr : SocketAddr) (k : Nat) : Decidable (l.Pending addr k) :=
  inferInstanceAs (Decidable (∃ s ∈ l.peerConnector.sessions[k]?, _))

instance (l : Links) (k : Nat) : Decidable (l.Cancelled k) :=
  inferInstanceAs (Decidable (∃ s ∈ l.peerConnector.sessions[k]?, _))

variable {l : Links} {x y : SocketAddr} {k j : Nat}

theorem Pending.lt (h : l.Pending x k) : k < l.peerConnector.sessions.length := by
  obtain ⟨s, hs, -⟩ := h
  exact (List.getElem?_eq_some_iff.mp hs).1

theorem Pending.same_addr (hx : l.Pending x k) (hy : l.Pending y k) : x = y := by
  obtain ⟨s, hs, rfl, -⟩ := hx
  obtain ⟨t, ht, rfl, -⟩ := hy
  rw [Option.mem_def] at hs ht
  rw [hs, Option.some.injEq] at ht
  rw [ht]

theorem pending_spawn {direction : ConnectionDirection} :
    (l.spawn x direction).Pending y k ↔
      l.Pending y k ∨ y = x ∧ k = l.peerConnector.sessions.length := by
  simp only [Pending, spawn, TcpPeerConnector.session_spawn, Option.mem_def]
  by_cases hk : k = l.peerConnector.sessions.length
  · subst hk
    simp [eq_comm]
  · simp [hk]

theorem pending_disconnect : (l.disconnect x).Pending y k ↔ l.Pending y k := by
  simp only [Pending, disconnect, TcpPeerConnector.session_disconnect, Option.mem_def,
    Option.map_eq_some_iff]
  constructor
  · rintro ⟨_, ⟨s, hs, rfl⟩, haddr, hpending⟩
    refine ⟨s, hs, ?_, ?_⟩
    · split_ifs at haddr <;> exact haddr
    · split_ifs at hpending <;> exact hpending
  · rintro ⟨s, hs, haddr, hpending⟩
    refine ⟨_, ⟨s, hs, rfl⟩, ?_, ?_⟩
    · split_ifs <;> exact haddr
    · split_ifs <;> exact hpending

theorem cancelled_disconnect :
    (l.disconnect x).Cancelled k ↔
      l.Cancelled k ∨ l.peerConnector.peerCancels.get x = some k ∧
        k < l.peerConnector.sessions.length := by
  simp only [Cancelled, disconnect, TcpPeerConnector.session_disconnect, Option.mem_def,
    Option.map_eq_some_iff]
  constructor
  · rintro ⟨_, ⟨s, hs, rfl⟩, hcancelled⟩
    split_ifs at hcancelled with hget
    · exact .inr ⟨hget, (List.getElem?_eq_some_iff.mp hs).1⟩
    · exact .inl ⟨s, hs, hcancelled⟩
  · rintro (⟨s, hs, hcancelled⟩ | ⟨hget, hlt⟩)
    · refine ⟨_, ⟨s, hs, rfl⟩, ?_⟩
      split_ifs
      · rfl
      · exact hcancelled
    · refine ⟨_, ⟨_, List.getElem?_eq_getElem hlt, rfl⟩, ?_⟩
      rw [if_pos hget]

theorem session_run {number : Nat} {move : SessionMove} :
    (l.run number move).peerConnector.sessions[k]? =
      l.peerConnector.sessions[k]?.map fun s => if number = k then (s.run move).1 else s := by
  unfold run
  split
  · next hnone =>
    by_cases hk : number = k
    · subst hk
      rw [hnone]
      rfl
    · simp [hk]
  · next s hs =>
    rw [List.getElem?_set]
    by_cases hk : number = k
    · subst hk
      have hlt := (List.getElem?_eq_some_iff.mp hs).1
      rw [if_pos rfl, if_pos hlt, hs]
      simp
    · simp [hk]

theorem mem_events_run {number : Nat} {move : SessionMove}
    {e : Nat × SocketAddr × PeerEvent} :
    e ∈ (l.run number move).peerEvents ↔ e ∈ l.peerEvents ∨
      ∃ s ∈ l.peerConnector.sessions[number]?, e.1 = number ∧ e.2.1 = s.addr ∧
        (s.run move).2 = some e.2.2 := by
  obtain ⟨n, z, event⟩ := e
  unfold run
  split
  · next hnone => simp [hnone]
  · next s hs =>
    simp only [List.mem_append, List.mem_map, Option.mem_toList, Option.mem_def, hs,
      Option.some.injEq, exists_eq_left', Prod.mk.injEq]
    refine or_congr_right ⟨?_, ?_⟩
    · rintro ⟨event, hevent, rfl, rfl, rfl⟩
      exact ⟨rfl, rfl, hevent⟩
    · rintro ⟨rfl, rfl, hevent⟩
      exact ⟨event, hevent, rfl, rfl, rfl⟩

theorem pending_run {number : Nat} {move : SessionMove} :
    (l.run number move).Pending y k ↔ l.Pending y k := by
  simp only [Pending, session_run, mem_events_run, Option.mem_def, Option.map_eq_some_iff]
  constructor
  · rintro ⟨_, ⟨s, hs, rfl⟩, haddr, hpending⟩
    by_cases hk : number = k
    · subst hk
      rw [if_pos rfl] at haddr hpending
      refine ⟨s, hs, (s.run_addr move).symm.trans haddr, ?_⟩
      by_cases hended : s.state = .ended
      · rw [Session.run_ended hended] at hpending
        rcases hpending with hrunning | hold | ⟨t, ht, -, -, hevent⟩
        · exact absurd hended hrunning
        · exact .inr hold
        · rw [hs, Option.some.injEq] at ht
          subst ht
          rw [Session.run_ended hended] at hevent
          contradiction
      · exact .inl hended
    · rw [if_neg hk] at haddr hpending
      refine ⟨s, hs, haddr, ?_⟩
      rcases hpending with hrunning | hold | ⟨_, -, hnumber, -⟩
      · exact .inl hrunning
      · exact .inr hold
      · exact absurd hnumber.symm hk
  · rintro ⟨s, hs, haddr, hpending⟩
    refine ⟨_, ⟨s, hs, rfl⟩, ?_, ?_⟩
    · split_ifs
      · rw [Session.run_addr, haddr]
      · exact haddr
    · by_cases hk : number = k
      · subst hk
        rw [if_pos rfl]
        by_cases hended : s.state = .ended
        · rw [Session.run_ended hended]
          exact .inr (.inl (hpending.resolve_left fun hrunning => hrunning hended))
        · by_cases hstop : (s.run move).2 = some .disconnected
          · exact .inr (.inr ⟨s, hs, rfl, haddr.symm, hstop⟩)
          · exact .inl fun hnow => hstop ((Session.run_running hended move).mp hnow)
      · rw [if_neg hk]
        exact hpending.imp_right .inl

theorem cancelled_run {number : Nat} {move : SessionMove} :
    (l.run number move).Cancelled k ↔ l.Cancelled k := by
  simp only [Cancelled, session_run, Option.mem_def, Option.map_eq_some_iff]
  constructor
  · rintro ⟨_, ⟨s, hs, rfl⟩, hcancelled⟩
    refine ⟨s, hs, ?_⟩
    split_ifs at hcancelled
    · rwa [Session.run_cancelled] at hcancelled
    · exact hcancelled
  · rintro ⟨s, hs, hcancelled⟩
    refine ⟨_, ⟨s, hs, rfl⟩, ?_⟩
    split_ifs
    · rw [Session.run_cancelled]
      exact hcancelled
    · exact hcancelled

theorem peerCmds_run {number : Nat} {move : SessionMove} :
    (l.run number move).peerCmds = l.peerCmds := by
  unfold run
  split <;> rfl

theorem peerCancels_run {number : Nat} {move : SessionMove} :
    (l.run number move).peerConnector.peerCancels = l.peerConnector.peerCancels := by
  unfold run
  split <;> rfl

theorem receive_eq {event : PeerEvent} {rest : List (Nat × SocketAddr × PeerEvent)}
    (h : l.peerEvents = (k, x, event) :: rest) :
    l.receive = ⟨if event = .disconnected then l.peerCmds.remove x else l.peerCmds, rest,
      l.peerConnector⟩ := by
  unfold receive
  cases event <;> simp [h]

structure Tracked (l : Links) : Prop where
  events : ∀ e ∈ l.peerEvents, l.Pending e.2.1 e.1
  last : l.peerEvents.Pairwise fun a b => a.2.2 = .disconnected → b.1 ≠ a.1
  ended : ∀ k y, (k, y, .disconnected) ∈ l.peerEvents →
    ∀ s ∈ l.peerConnector.sessions[k]?, s.state = .ended
  channel : ∀ y k, l.peerCmds.get y = some k →
    l.Pending y k ∧ l.peerConnector.peerCancels.get y = some k

namespace Tracked

theorem new : Tracked ⟨.empty, [], .new⟩ where
  events := by simp
  last := .nil
  ended := by simp
  channel := by simp

theorem spawn (h : Tracked l) (direction : ConnectionDirection) :
    Tracked (l.spawn x direction) where
  events e he := pending_spawn.mpr (.inl (h.events e he))
  last := h.last
  ended k y hin s hs := by
    have hlt : k < l.peerConnector.sessions.length := (h.events _ hin).lt
    simp only [Links.spawn, TcpPeerConnector.session_spawn, if_neg (Nat.ne_of_lt hlt)] at hs
    exact h.ended k y hin s hs
  channel y k hget := by
    simp only [Links.spawn, TcpPeerConnector.spawn, HashMap.get_insert] at hget ⊢
    by_cases hyx : y = x
    · rw [if_pos hyx, Option.some.injEq] at hget
      rw [if_pos hyx, hget]
      exact ⟨pending_spawn.mpr (.inr ⟨hyx, hget.symm⟩), rfl⟩
    · rw [if_neg hyx] at hget ⊢
      have hold := h.channel y k hget
      exact ⟨pending_spawn.mpr (.inl hold.1), hold.2⟩

theorem disconnect (h : Tracked l) : Tracked (l.disconnect x) where
  events e he := pending_disconnect.mpr (h.events e he)
  last := h.last
  ended k y hin s hs := by
    simp only [Links.disconnect, TcpPeerConnector.session_disconnect, Option.mem_def,
      Option.map_eq_some_iff] at hs
    obtain ⟨t, ht, rfl⟩ := hs
    have hended := h.ended k y hin t ht
    split_ifs <;> exact hended
  channel y k hget := by
    simp only [Links.disconnect, HashMap.get_remove] at hget
    split_ifs at hget with hyx
    obtain ⟨hpending, hcancel⟩ := h.channel y k hget
    refine ⟨pending_disconnect.mpr hpending, ?_⟩
    simp only [Links.disconnect, TcpPeerConnector.disconnect]
    split
    · exact hcancel
    · rw [HashMap.get_remove, if_neg hyx]
      exact hcancel

theorem run (h : Tracked l) (number : Nat) (move : SessionMove) :
    Tracked (l.run number move) := by
  refine ⟨fun e he => ?_, ?_, fun k y hin s hs => ?_, fun y k hget => ?_⟩
  · rw [pending_run]
    rcases mem_events_run.mp he with hold | ⟨s, hs, hnumber, haddr, hevent⟩
    · exact h.events e hold
    · rw [hnumber, haddr]
      refine ⟨s, hs, rfl, .inl fun hended => ?_⟩
      rw [Session.run_ended hended] at hevent
      contradiction
  · unfold Links.run
    split
    · exact h.last
    · next s hs =>
      refine List.pairwise_append.mpr ⟨h.last, ?_, fun a ha b hb hdisc hsame => ?_⟩
      · cases (s.run move).2 <;> simp
      · obtain ⟨event, hevent, rfl⟩ := List.mem_map.mp hb
        obtain ⟨n, z, event'⟩ := a
        subst hdisc
        subst hsame
        have hended : s.state = .ended := h.ended _ _ ha s hs
        rw [Session.run_ended hended] at hevent
        contradiction
  · rw [session_run, Option.mem_def, Option.map_eq_some_iff] at hs
    obtain ⟨t, ht, rfl⟩ := hs
    rcases mem_events_run.mp hin with hold | ⟨r, hr, hnumber, -, hevent⟩
    · have hended := h.ended k y hold t ht
      split_ifs
      · rw [Session.run_ended hended]
        exact hended
      · exact hended
    · obtain rfl : k = number := hnumber
      rw [Option.mem_def, ht, Option.some.injEq] at hr
      subst hr
      rw [if_pos rfl]
      by_cases hended : t.state = .ended
      · rw [Session.run_ended hended]
        exact hended
      · exact (Session.run_running hended move).mpr hevent
  · rw [peerCmds_run] at hget
    rw [peerCancels_run, pending_run]
    exact h.channel y k hget

theorem pending_receive (h : Tracked l) {event : PeerEvent}
    {rest : List (Nat × SocketAddr × PeerEvent)} (hevents : l.peerEvents = (k, x, event) :: rest) :
    l.receive.Pending y j ↔ l.Pending y j ∧ ¬ (event = .disconnected ∧ j = k) := by
  have hlast := h.last
  rw [hevents] at hlast
  have hhead := (List.pairwise_cons.mp hlast).1
  rw [receive_eq hevents]
  simp only [Pending, hevents, List.mem_cons, Prod.mk.injEq]
  constructor
  · rintro ⟨s, hs, haddr, hpending⟩
    refine ⟨⟨s, hs, haddr, hpending.imp_right .inr⟩, ?_⟩
    rintro ⟨rfl, rfl⟩
    rcases hpending with hrunning | hin
    · exact hrunning (h.ended j x (hevents ▸ List.mem_cons_self ..) s hs)
    · exact hhead _ hin rfl rfl
  · rintro ⟨⟨s, hs, haddr, hpending⟩, hstays⟩
    refine ⟨s, hs, haddr, hpending.imp_right fun hin => ?_⟩
    rcases hin with ⟨rfl, -, rfl⟩ | hin
    · exact absurd ⟨rfl, rfl⟩ hstays
    · exact hin

theorem receive (h : Tracked l) : Tracked l.receive := by
  cases hevents : l.peerEvents with
  | nil =>
    rw [Links.receive, hevents]
    exact h
  | cons e rest =>
    obtain ⟨k, x, event⟩ := e
    have hlast := h.last
    rw [hevents] at hlast
    obtain ⟨hhead, hrest⟩ := List.pairwise_cons.mp hlast
    rw [receive_eq hevents]
    refine ⟨fun e he => ?_, hrest, fun j y hin s hs => ?_, fun y j hget => ?_⟩
    · rw [← receive_eq hevents, h.pending_receive hevents]
      have hin : e ∈ l.peerEvents := hevents ▸ List.mem_cons_of_mem _ he
      exact ⟨h.events e hin, fun hgone => hhead e he hgone.1 hgone.2⟩
    · have hin' : (j, y, .disconnected) ∈ l.peerEvents := hevents ▸ List.mem_cons_of_mem _ hin
      exact h.ended j y hin' s hs
    · rw [← receive_eq hevents, h.pending_receive hevents]
      have hkeep : l.peerCmds.get y = some j ∧ (event = .disconnected → y ≠ x) := by
        by_cases hdisc : event = .disconnected
        · simp only [if_pos hdisc, HashMap.get_remove] at hget
          split_ifs at hget with hyx
          exact ⟨hget, fun _ => hyx⟩
        · simp only [if_neg hdisc] at hget
          exact ⟨hget, fun hd => absurd hd hdisc⟩
      obtain ⟨hpending, hcancel⟩ := h.channel y j hkeep.1
      refine ⟨⟨hpending, ?_⟩, receive_eq hevents ▸ hcancel⟩
      rintro ⟨hdisc, rfl⟩
      have hsender : l.Pending x j := h.events (j, x, event) (hevents ▸ List.mem_cons_self ..)
      exact hkeep.2 hdisc (hpending.same_addr hsender)

theorem apply (h : Tracked l) (a : Action) : Tracked (l.apply a) := by
  cases a with
  | keep => exact h
  | spawn addr direction => exact h.spawn direction
  | disconnect addr => exact h.disconnect
  | run number move => exact h.run number move
  | receive => exact h.receive

end Tracked

theorem Tracked.pending_apply (h : Tracked l) {a : Action} (hp : l.Pending y j)
    (hnot : a = .receive → l.peerEvents.head? ≠ some (j, y, .disconnected)) :
    (l.apply a).Pending y j := by
  cases a with
  | keep => exact hp
  | spawn addr direction => exact pending_spawn.mpr (.inl hp)
  | disconnect addr => exact pending_disconnect.mpr hp
  | run number move => exact pending_run.mpr hp
  | receive =>
    cases hevents : l.peerEvents with
    | nil =>
      simp only [Links.apply, Links.receive, hevents]
      exact hp
    | cons e rest =>
      obtain ⟨k, x, event⟩ := e
      refine (h.pending_receive hevents).mpr ⟨hp, ?_⟩
      rintro ⟨rfl, rfl⟩
      have hsender : l.Pending x j :=
        h.events (j, x, .disconnected) (hevents ▸ List.mem_cons_self ..)
      have hyx := hp.same_addr hsender
      exact hnot rfl (by rw [hevents, hyx]; rfl)

def Clear (l : Links) : Action → Prop
  | .spawn addr _ => ∀ k < l.peerConnector.sessions.length, l.Pending addr k → ¬ l.Cancelled k
  | _ => True

instance (l : Links) (a : Action) : Decidable (l.Clear a) :=
  match a with
  | .spawn addr _ => inferInstanceAs (Decidable
      (∀ k < l.peerConnector.sessions.length, l.Pending addr k → ¬ l.Cancelled k))
  | .keep | .disconnect _ | .run _ _ | .receive => .isTrue trivial

structure Alone (l : Links) : Prop where
  tracked : Tracked l
  single : ∀ y j k, l.Pending y j → l.Pending y k → j = k
  owned : ∀ y k, l.Pending y k → l.peerCmds.get y = some k ∨ l.Cancelled k

namespace Alone

theorem new : Alone ⟨.empty, [], .new⟩ where
  tracked := .new
  single := by simp [Pending, TcpPeerConnector.new]
  owned := by simp [Pending, TcpPeerConnector.new]

theorem spawn (h : Alone l) {direction : ConnectionDirection}
    (hfree : l.peerCmds.contains x = false) (hclear : l.Clear (.spawn x direction)) :
    Alone (l.spawn x direction) := by
  have hnone : ∀ k, ¬ l.Pending x k := by
    intro k hk
    rcases h.owned x k hk with hget | hcancelled
    · rw [HashMap.contains, hget] at hfree
      contradiction
    · exact hclear k hk.lt hk hcancelled
  refine ⟨h.tracked.spawn direction, fun y j k hj hk => ?_, fun y k hk => ?_⟩
  · rcases pending_spawn.mp hj with hj | ⟨rfl, rfl⟩ <;>
      rcases pending_spawn.mp hk with hk | ⟨hyx, rfl⟩
    · exact h.single y j k hj hk
    · exact absurd (hyx ▸ hj) (hnone j)
    · exact absurd hk (hnone k)
    · rfl
  · simp only [Links.spawn, HashMap.get_insert]
    rcases pending_spawn.mp hk with hk | ⟨rfl, rfl⟩
    · have hyx : y ≠ x := fun heq => hnone k (heq ▸ hk)
      rw [if_neg hyx]
      refine (h.owned y k hk).imp_right ?_
      rintro ⟨s, hs, hcancelled⟩
      refine ⟨s, ?_, hcancelled⟩
      simp only [TcpPeerConnector.session_spawn, if_neg (Nat.ne_of_lt hk.lt)]
      exact hs
    · exact .inl (if_pos rfl)

theorem disconnect (h : Alone l) : Alone (l.disconnect x) where
  tracked := h.tracked.disconnect
  single y j k hj hk := h.single y j k (pending_disconnect.mp hj) (pending_disconnect.mp hk)
  owned y k hk := by
    rw [pending_disconnect] at hk
    rw [cancelled_disconnect]
    rcases h.owned y k hk with hget | hcancelled
    · by_cases hyx : y = x
      · subst hyx
        exact .inr (.inr ⟨(h.tracked.channel y k hget).2, hk.lt⟩)
      · refine .inl ?_
        simp only [Links.disconnect, HashMap.get_remove, if_neg hyx]
        exact hget
    · exact .inr (.inl hcancelled)

theorem run (h : Alone l) (number : Nat) (move : SessionMove) : Alone (l.run number move) where
  tracked := h.tracked.run number move
  single y j k hj hk := h.single y j k (pending_run.mp hj) (pending_run.mp hk)
  owned y k hk := by
    rw [pending_run] at hk
    rw [cancelled_run, peerCmds_run]
    exact h.owned y k hk

theorem receive (h : Alone l) : Alone l.receive := by
  cases hevents : l.peerEvents with
  | nil =>
    rw [Links.receive, hevents]
    exact h
  | cons e rest =>
    obtain ⟨k, x, event⟩ := e
    have hpending := fun y j => h.tracked.pending_receive hevents (y := y) (j := j)
    refine ⟨h.tracked.receive, fun y i j hi hj => ?_, fun y j hj => ?_⟩
    · exact h.single y i j ((hpending y i).mp hi).1 ((hpending y j).mp hj).1
    · obtain ⟨hj, hstays⟩ := (hpending y j).mp hj
      rw [receive_eq hevents]
      refine (h.owned y j hj).imp (fun hget => ?_) id
      by_cases hdisc : event = .disconnected
      · have hyx : y ≠ x := by
          rintro rfl
          have hsender : l.Pending y k :=
            h.tracked.events (k, y, event) (hevents ▸ List.mem_cons_self ..)
          exact hstays ⟨hdisc, h.single y j k hj hsender⟩
        simp only [if_pos hdisc, HashMap.get_remove, if_neg hyx]
        exact hget
      · simp only [if_neg hdisc]
        exact hget

theorem apply (h : Alone l) {a : Action}
    (hfree : ∀ addr direction, a = .spawn addr direction → l.peerCmds.contains addr = false)
    (hclear : l.Clear a) : Alone (l.apply a) := by
  cases a with
  | keep => exact h
  | spawn addr direction => exact h.spawn (hfree addr direction rfl) hclear
  | disconnect addr => exact h.disconnect
  | run number move => exact h.run number move
  | receive => exact h.receive

end Alone

end Links

end Tortue
