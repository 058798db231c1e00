import Tortue.Adapters.PeerLives

namespace Tortue

open Collections

theorem readExact_extend {n : Nat} {reader bytes rest : Bytes}
    (h : readExact n reader = .ok (bytes, rest)) (tail : Bytes) :
    readExact n (reader ++ tail) = .ok (bytes, rest ++ tail) := by
  unfold readExact at h ⊢
  split_ifs at h with hshort
  have hlong : n ≤ reader.length := Nat.le_of_not_lt hshort
  rw [Except.ok.injEq, Prod.mk.injEq] at h
  rw [if_neg (by rw [List.length_append]; omega), List.take_append_of_le_length hlong,
    List.drop_append_of_le_length hlong, h.1, h.2]

namespace Message

theorem readFrom_eq_ok {reader rest : Bytes} {m : Message} :
    readFrom reader = .ok (m, rest) ↔ ∃ header body payload,
      readExact 4 reader = .ok (header, body) ∧ readU32 header 0 ≤ maxMessageSize ∧
        readExact (readU32 header 0) body = .ok (payload, rest) ∧ decode payload = .ok m := by
  simp only [readFrom, Except.bind_eq_ok]
  constructor
  · rintro ⟨⟨header, body⟩, hheader, h⟩
    dsimp only at h
    by_cases hsize : readU32 header 0 > maxMessageSize
    · rw [if_pos hsize] at h
      contradiction
    · rw [if_neg hsize] at h
      obtain ⟨⟨payload, body'⟩, hpayload, h⟩ := Except.bind_eq_ok.mp h
      dsimp only at h
      split at h
      · next message hdecode =>
        obtain ⟨rfl, rfl⟩ := Prod.mk.inj (Except.ok.inj h)
        exact ⟨header, body, payload, hheader, Nat.le_of_not_lt hsize, hpayload, hdecode⟩
      · contradiction
  · rintro ⟨header, body, payload, hheader, hsize, hpayload, hdecode⟩
    refine ⟨_, hheader, ?_⟩
    dsimp only
    rw [if_neg (Nat.not_lt.mpr hsize)]
    refine Except.bind_eq_ok.mpr ⟨_, hpayload, ?_⟩
    simp only [hdecode]
    rfl

theorem readFrom_extend {reader rest : Bytes} {m : Message} (h : readFrom reader = .ok (m, rest))
    (tail : Bytes) : readFrom (reader ++ tail) = .ok (m, rest ++ tail) := by
  obtain ⟨header, body, payload, hheader, hsize, hpayload, hdecode⟩ := readFrom_eq_ok.mp h
  exact readFrom_eq_ok.mpr ⟨header, body ++ tail, payload, readExact_extend hheader tail, hsize,
    readExact_extend hpayload tail, hdecode⟩

theorem readFrom_nil (r : Message × Bytes) : readFrom [] ≠ .ok r := by
  intro h
  obtain ⟨header, body, -, hheader, -⟩ := readFrom_eq_ok.mp h
  contradiction

theorem readMany_snoc {n : Nat} {reader middle rest : Bytes} {messages : List Message}
    {m : Message} (h : readMany n reader = .ok (messages, middle))
    (hm : readFrom middle = .ok (m, rest)) :
    readMany (n + 1) reader = .ok (messages ++ [m], rest) := by
  induction n generalizing reader messages with
  | zero =>
    rw [readMany, Except.ok.injEq, Prod.mk.injEq] at h
    obtain ⟨rfl, rfl⟩ := h
    simp only [readMany, Except.bind_eq_ok]
    exact ⟨_, hm, _, rfl, rfl⟩
  | succ n ih =>
    rw [readMany] at h
    obtain ⟨⟨first, reader'⟩, hfirst, h⟩ := Except.bind_eq_ok.mp h
    obtain ⟨⟨later, reader''⟩, hlater, h⟩ := Except.bind_eq_ok.mp h
    obtain ⟨rfl, rfl⟩ := Prod.mk.inj (Except.ok.inj h)
    rw [readMany]
    exact Except.bind_eq_ok.mpr ⟨_, hfirst, Except.bind_eq_ok.mpr ⟨_, ih hlater, rfl⟩⟩

theorem readMany_prefix {sent : List Sending} (hsent : ∀ x ∈ sent, Sendable x)
    {reader rest : Bytes} {n : Nat} {heard : List Message} (hreader : reader <+: stream sent)
    (h : readMany n reader = .ok (heard, rest)) :
    ∃ carried later, sent = carried ++ later ∧
      List.Forall₂ Same (carried.map Prod.snd) heard := by
  induction n generalizing sent reader heard with
  | zero =>
    rw [readMany, Except.ok.injEq, Prod.mk.injEq] at h
    obtain ⟨rfl, -⟩ := h
    exact ⟨[], sent, rfl, .nil⟩
  | succ n ih =>
    rw [readMany] at h
    obtain ⟨⟨m, reader'⟩, hfirst, h⟩ := Except.bind_eq_ok.mp h
    obtain ⟨⟨later, rest'⟩, hlater, h⟩ := Except.bind_eq_ok.mp h
    obtain ⟨rfl, rfl⟩ := Prod.mk.inj (Except.ok.inj h)
    obtain ⟨tail, htail⟩ := hreader
    cases sent with
    | nil =>
      obtain ⟨rfl, -⟩ := List.append_eq_nil_iff.mp htail
      exact absurd hfirst (readFrom_nil _)
    | cons x sent =>
      obtain ⟨hx, hsent⟩ := List.forall_mem_cons.mp hsent
      obtain ⟨m', hframe, hsame⟩ := readFrom_frame hx (stream sent)
      have hwhole := readFrom_extend hfirst tail
      rw [htail, show stream (x :: sent) = x.2.frame x.1 ++ stream sent from List.flatMap_cons ..,
        hframe, Except.ok.injEq, Prod.mk.injEq] at hwhole
      obtain ⟨rfl, hrest⟩ := hwhole
      obtain ⟨carried, later', rfl, hall⟩ := ih hsent ⟨tail, hrest.symm⟩ hlater
      exact ⟨x :: carried, later', rfl, .cons hsame hall⟩

end Message

structure Conversation where
  handshake : Handshake
  reader : Bytes
  written : Bytes
  said : List Message.Sending
  taken : List Message
  heard : List Message

namespace Conversation

def start (handshake : Handshake) (reader : Bytes) : Conversation :=
  ⟨handshake, reader, [], [], [], []⟩

def extend (c : Option Conversation) : PeerAct → Option Conversation
  | .start handshake reader => some (.start handshake reader)
  | .take m => c.map fun c => { c with taken := c.taken ++ [m] }
  | .send x => c.map fun c => { c with said := c.said ++ [x] }
  | .wrote bytes => c.map fun c => { c with written := c.written ++ bytes }
  | .event (.messageReceived m) => c.map fun c => { c with heard := c.heard ++ [m] }
  | _ => c

def latest (acts : List PeerAct) : Option Conversation := acts.foldl extend none

theorem latest_append (acts newer : List PeerAct) :
    latest (acts ++ newer) = newer.foldl extend (latest acts) := List.foldl_append ..

theorem extend_sends (c : Conversation) (sent : List Message.Sending) :
    (sent.map PeerAct.send).foldl extend (some c) = some { c with said := c.said ++ sent } := by
  induction sent generalizing c with
  | nil => rw [List.append_nil]; rfl
  | cons x sent ih =>
    rw [List.map_cons, List.foldl_cons, extend, Option.map_some, ih, List.append_assoc]
    rfl

def spoken (m : Message) : Bool := decide (m ≠ .keepAlive)

structure Faithful (config : PeerConfig) (c : Conversation) (reader writing : Bytes) : Prop where
  written : c.written ++ writing = Message.stream c.said
  heard : Message.readMany c.heard.length c.reader = .ok (c.heard, reader)
  said : ∃ o, (c.said.map Prod.snd).filter spoken =
    (PeerTask.opener config c.handshake o).map Prod.snd ++ c.taken.filter spoken

theorem opener_spoken (config : PeerConfig) (handshake : Handshake) (o : IterOrder) :
    ((PeerTask.opener config handshake o).map Prod.snd).filter spoken =
      (PeerTask.opener config handshake o).map Prod.snd := by
  unfold PeerTask.opener
  split_ifs <;> rfl

theorem faithful_start (config : PeerConfig) (handshake : Handshake) (reader : Bytes)
    (o : IterOrder) :
    Faithful config
      { start handshake reader with said := PeerTask.opener config handshake o } reader
      (Message.stream (PeerTask.opener config handshake o)) where
  written := rfl
  heard := rfl
  said := ⟨o, (opener_spoken config handshake o).trans (List.append_nil _).symm⟩

variable {config : PeerConfig} {c : Conversation} {reader writing rest : Bytes}

theorem Faithful.flow (h : Faithful config c reader writing) (n : Nat) :
    Faithful config { c with written := c.written ++ writing.take n } reader (writing.drop n) where
  written := by
    rw [List.append_assoc, List.take_append_drop]
    exact h.written
  heard := h.heard
  said := h.said

theorem Faithful.read (h : Faithful config c reader writing) {m : Message}
    (hread : Message.readFrom reader = .ok (m, rest)) :
    Faithful config { c with heard := c.heard ++ [m] } rest writing where
  written := h.written
  heard := by
    rw [List.length_append, List.length_singleton]
    exact Message.readMany_snoc h.heard hread
  said := h.said

theorem stream_snoc (sent : List Message.Sending) (x : Message.Sending) :
    Message.stream (sent ++ [x]) = Message.stream sent ++ x.2.frame x.1 := by
  rw [Message.stream, List.flatMap_append, List.flatMap_singleton]
  rfl

theorem Faithful.say (h : Faithful config c reader []) (x : Message.Sending)
    {taken : List Message} (htaken : taken.filter spoken = [x.2].filter spoken) :
    Faithful config { c with said := c.said ++ [x], taken := c.taken ++ taken } reader
      (x.2.frame x.1) where
  written := by
    have hwritten := h.written
    rw [List.append_nil] at hwritten
    rw [stream_snoc, hwritten]
  heard := h.heard
  said := by
    obtain ⟨o, hsaid⟩ := h.said
    refine ⟨o, ?_⟩
    rw [List.map_append, List.filter_append, hsaid, List.filter_append, htaken,
      List.append_assoc]
    rfl

end Conversation

namespace PeerStage

def stream? : PeerStage → Option (Bytes × Bytes)
  | .greeting _ reader writing | .talking reader writing => some (reader, writing)
  | _ => none

end PeerStage

namespace PeerTask

open Conversation

variable {t : PeerTask} {s : PeerSignals} {done : List PeerAct}

structure Conversing (t : PeerTask) (done : List PeerAct) : Prop where
  past : ∀ c, latest done = some c → ∃ reader writing, Faithful t.config c reader writing
  present : ∀ reader writing, t.stage.stream? = some (reader, writing) →
    ∃ c, latest done = some c ∧ Faithful t.config c reader writing

theorem Conversing.quiet (h : Conversing t done) {t' : PeerTask} {newer : List PeerAct}
    (hconfig : t'.config = t.config) (hnewer : ∀ c, newer.foldl extend c = c)
    (hstage : t'.stage.stream? = none ∨ t'.stage.stream? = t.stage.stream?) :
    Conversing t' (done ++ newer) where
  past c hc := by
    rw [latest_append, hnewer] at hc
    rw [hconfig]
    exact h.past c hc
  present reader writing hstream := by
    rw [latest_append, hnewer, hconfig]
    rcases hstage with hnone | hsame
    · rw [hnone] at hstream
      contradiction
    · exact h.present reader writing (hsame ▸ hstream)

theorem Conversing.now {t' : PeerTask} {newer : List PeerAct} {c : Conversation}
    {reader writing : Bytes} (hlatest : latest newer = some c)
    (hstage : t'.stage.stream? = some (reader, writing))
    (hfaithful : Faithful t'.config c reader writing) : Conversing t' newer where
  past c' hc' := by
    rw [hlatest, Option.some.injEq] at hc'
    exact hc' ▸ ⟨reader, writing, hfaithful⟩
  present reader' writing' hstream := by
    rw [hstage, Option.some.injEq, Prod.mk.injEq] at hstream
    obtain ⟨rfl, rfl⟩ := hstream
    exact ⟨c, hlatest, hfaithful⟩

theorem Conversing.took (h : Conversing t done) {r : PeerTask × List PeerAct}
    (hr : t.Took s r) : Conversing r.1 (done ++ r.2) := by
  cases hr with
  | rest => exact h.quiet rfl (fun c => rfl) (.inr rfl)
  | screen inbound hstage => exact h.quiet rfl (fun c => rfl) (.inl rfl)
  | sleep slept delay attempts hstage => exact h.quiet rfl (fun c => rfl) (.inl rfl)
  | wake slept delay attempts hstage => exact h.quiet rfl (fun c => rfl) (.inl rfl)
  | connected slept delay attempts reader handshake rest hstage =>
    exact h.quiet rfl (fun c => rfl) (.inl rfl)
  | failed slept delay attempts hstage => exact h.quiet rfl (fun c => rfl) (.inl rfl)
  | enter handshake reader o hstage =>
    refine .now ?_ rfl (faithful_start t.config handshake reader o)
    rw [latest_append, List.foldl_cons, extend, extend_sends]
    rfl
  | greet n handshake reader writing hstage =>
    obtain ⟨c, hc, hfaithful⟩ := h.present reader writing (by rw [hstage]; rfl)
    refine .now ?_ rfl (hfaithful.flow n)
    rw [latest_append, hc]
    rfl
  | flow n reader writing hstage =>
    obtain ⟨c, hc, hfaithful⟩ := h.present reader writing (by rw [hstage]; rfl)
    refine .now ?_ rfl (hfaithful.flow n)
    rw [latest_append, hc]
    rfl
  | redial => exact h.quiet rfl (fun c => rfl) (.inl rfl)
  | stop => exact h.quiet rfl (fun c => rfl) (.inl rfl)
  | cancel => exact h.quiet rfl (fun c => rfl) (.inl rfl)
  | giveUp => exact h.quiet rfl (fun c => rfl) (.inl rfl)
  | announce handshake reader hstage =>
    exact h.quiet rfl (fun c => rfl) (.inr (by rw [hstage]; rfl))
  | read reader writing rest message hstage hread =>
    obtain ⟨c, hc, hfaithful⟩ := h.present reader writing (by rw [hstage]; rfl)
    refine .now ?_ rfl (hfaithful.read hread)
    rw [latest_append, hc]
    rfl
  | take reader o message commands hstage hcommands =>
    obtain ⟨c, hc, hfaithful⟩ := h.present reader [] (by rw [hstage]; rfl)
    refine .now ?_ rfl (hfaithful.say (o, message) rfl)
    rw [latest_append, hc]
    rfl
  | keepAlive reader o hstage =>
    obtain ⟨c, hc, hfaithful⟩ := h.present reader [] (by rw [hstage]; rfl)
    refine .now ?_ rfl (hfaithful.say (o, .keepAlive) (show [].filter spoken = _ from rfl))
    rw [latest_append, hc, List.append_nil]
    rfl

theorem Life.conversing {spawned : PeerTask} {placed : List Message}
    (h : Life spawned placed done t) (hspawned : spawned.Spawned) : Conversing t done := by
  induction h with
  | start =>
    refine ⟨fun c hc => by contradiction, fun reader writing hstream => ?_⟩
    obtain ⟨config, addr, rfl | ⟨inbound, rfl⟩⟩ := hspawned <;> contradiction
  | deliver messages _ ih => exact ⟨ih.past, ih.present⟩
  | step _ htook ih => exact ih.took htook

theorem extend_taken {before : Option Conversation} {a : PeerAct} {c : Conversation}
    (h : extend before a = some c) :
    c.taken = [] ∧ PeerAct.take? a = none ∨
      ∃ c', before = some c' ∧ c.taken = c'.taken ++ (PeerAct.take? a).toList := by
  cases a with
  | start handshake reader =>
    rw [extend, Option.some.injEq] at h
    exact .inl ⟨h ▸ rfl, rfl⟩
  | take m =>
    obtain ⟨c', hbefore, rfl⟩ := Option.map_eq_some_iff.mp h
    exact .inr ⟨c', hbefore, rfl⟩
  | send x =>
    obtain ⟨c', hbefore, rfl⟩ := Option.map_eq_some_iff.mp h
    exact .inr ⟨c', hbefore, (List.append_nil _).symm⟩
  | wrote bytes =>
    obtain ⟨c', hbefore, rfl⟩ := Option.map_eq_some_iff.mp h
    exact .inr ⟨c', hbefore, (List.append_nil _).symm⟩
  | dial slept connected => exact .inr ⟨c, h, (List.append_nil _).symm⟩
  | event e =>
    cases e with
    | messageReceived m =>
      obtain ⟨c', hbefore, rfl⟩ := Option.map_eq_some_iff.mp h
      exact .inr ⟨c', hbefore, (List.append_nil _).symm⟩
    | _ => exact .inr ⟨c, h, (List.append_nil _).symm⟩

theorem latest_taken {c : Conversation} (h : latest done = some c) :
    ∃ earlier, done.filterMap PeerAct.take? = earlier ++ c.taken := by
  induction done using List.reverseRecOn generalizing c with
  | nil => contradiction
  | append_singleton done a ih =>
    rw [latest_append, List.foldl_cons, List.foldl_nil] at h
    have hone : [a].filterMap PeerAct.take? = (PeerAct.take? a).toList := by
      rw [List.filterMap_cons]
      cases PeerAct.take? a <;> rfl
    rw [List.filterMap_append, hone]
    rcases extend_taken h with ⟨htaken, hnone⟩ | ⟨c', hc', htaken⟩
    · exact ⟨done.filterMap PeerAct.take?, by rw [htaken, hnone]; rfl⟩
    · obtain ⟨earlier, hearlier⟩ := ih hc'
      exact ⟨earlier, by rw [htaken, hearlier, List.append_assoc]⟩

end PeerTask

end Tortue
