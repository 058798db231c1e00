import Tortue.Adapters.Turns
import Tortue.Domain.Swarm.Adverts

namespace Tortue

open Collections

def Message.greets : Message → Bool
  | .bitfield _ | .haveAll | .haveNone => true
  | _ => false

namespace SwarmIo

variable {sha1 : Sha1} {clientId : PeerId} {metainfo : Metainfo} {io : SwarmIo}

abbrev Log := List (Event SwarmIo (Move × Entropy) Effect)

def messagesOn (k : Nat) (log : Log) : List Message :=
  (log.reverse.flatMap Event.outputs).filterMap (Effect.messageOn k)

def GreetsFirst (log : Log) : Prop :=
  ∀ k pre i post, messagesOn k log = pre ++ .havePiece i :: post → ∃ m ∈ pre, m.greets = true

def Greeted (k : Nat) (log : Log) : Prop := ∃ m ∈ messagesOn k log, m.greets = true

variable {log : Log} {e : Event SwarmIo (Move × Entropy) Effect} {k : Nat}

theorem messagesOn_cons (k : Nat) (e : Event SwarmIo (Move × Entropy) Effect) (log : Log) :
    messagesOn k (e :: log) = messagesOn k log ++ e.outputs.filterMap (Effect.messageOn k) := by
  unfold messagesOn
  rw [List.reverse_cons, List.flatMap_append, List.filterMap_append, List.flatMap_singleton]

theorem greeted_older (h : Greeted k log) : Greeted k (e :: log) := by
  obtain ⟨m, hm, hgreets⟩ := h
  rw [Greeted, messagesOn_cons]
  exact ⟨m, List.mem_append_left _ hm, hgreets⟩

theorem greeted_newest {x : SocketAddr} {m : Message} (hsent : .sent k x m ∈ e.outputs)
    (hgreets : m.greets = true) : Greeted k (e :: log) := by
  rw [Greeted, messagesOn_cons]
  exact ⟨m, List.mem_append_right _ (mem_messageOn.mpr ⟨x, hsent⟩), hgreets⟩

theorem greetsFirst_nil : GreetsFirst [] := by
  intro k pre i post h
  simp [messagesOn] at h

theorem greetsFirst_cons (h : GreetsFirst log)
    (he : ∀ k x i, .sent k x (.havePiece i) ∈ e.outputs → Greeted k log) :
    GreetsFirst (e :: log) := by
  intro k pre i post hsplit
  rw [messagesOn_cons] at hsplit
  rcases List.append_eq_append_iff.mp hsplit with ⟨mid, hpre, hlate⟩ | ⟨mid, holder, hmid⟩
  · have hsent : .havePiece i ∈ e.outputs.filterMap (Effect.messageOn k) := by
      rw [hlate]
      simp
    obtain ⟨x, hsent⟩ := mem_messageOn.mp hsent
    obtain ⟨m, hm, hgreets⟩ := he k x i hsent
    exact ⟨m, hpre ▸ List.mem_append_left _ hm, hgreets⟩
  · cases mid with
    | nil =>
      have hsent : .havePiece i ∈ e.outputs.filterMap (Effect.messageOn k) := by
        rw [List.nil_append] at hmid
        rw [← hmid]
        exact List.mem_cons_self ..
      obtain ⟨x, hsent⟩ := mem_messageOn.mp hsent
      obtain ⟨m, hm, hgreets⟩ := he k x i hsent
      rw [holder, List.append_nil] at hm
      exact ⟨m, hm, hgreets⟩
    | cons m mid =>
      rw [List.cons_append, List.cons.injEq] at hmid
      rw [← hmid.1] at holder
      exact h k pre i mid holder

def harmless : Output → Bool
  | .broadcast _ | .connectPeer _ => false
  | _ => true

def Owed (x : SocketAddr) (outputs : List Output) : Prop :=
  .disconnectPeer x ∈ outputs ∨ ∃ m, m.greets = true ∧ .sendToPeer x m ∈ outputs

def Met (log : Log) (io : SwarmIo) (x : SocketAddr) : Prop :=
  ∃ k, io.peerCmds.get x = some k ∧ Greeted k log

structure Orderly (log : Log) (io : SwarmIo) : Prop where
  introduced : ∀ x, io.swarm.peerRegistry.containsAddr x = true →
    Met log io x ∨ (Owed x io.outputs ∧ ∀ o ∈ io.outputs, harmless o = true)
  targeted : ∀ x i, .sendToPeer x (.havePiece i) ∉ io.outputs
  idle : Idle io

theorem owed_cons {x : SocketAddr} {o : Output} {rest : List Output} (h : Owed x (o :: rest)) :
    Owed x rest ∨ o = .disconnectPeer x ∨ ∃ m, m.greets = true ∧ o = .sendToPeer x m := by
  rcases h with hdrop | ⟨m, hgreets, hsend⟩
  · rcases List.mem_cons.mp hdrop with heq | hin
    · exact .inr (.inl heq.symm)
    · exact .inl (.inl hin)
  · rcases List.mem_cons.mp hsend with heq | hin
    · exact .inr (.inr ⟨m, hgreets, heq.symm⟩)
    · exact .inl (.inr ⟨m, hgreets, hin⟩)

theorem owed_later {x : SocketAddr} {outputs pushed : List Output} (h : Owed x outputs) :
    Owed x (pushed ++ outputs) := by
  rcases h with hdrop | ⟨m, hgreets, hsend⟩
  · exact .inl (List.mem_append_right _ hdrop)
  · exact .inr ⟨m, hgreets, List.mem_append_right _ hsend⟩

theorem availability_greets (s : Swarm) (ext : PeerExtensions) :
    (s.availabilityMessage ext).greets = true := by
  unfold Swarm.availabilityMessage
  split_ifs <;> rfl

theorem introduced_accepted {i : Input × Entropy} {x : SocketAddr} {ext : PeerExtensions}
    (haccept : io.swarm.Accepts x ext i.1) :
    Owed x (io.swarm.step sha1 i).2 ∧ ∀ o ∈ (io.swarm.step sha1 i).2, harmless o = true := by
  obtain ⟨cancelled, rest, hout, -⟩ := Swarm.accepts_step sha1 haccept
  refine ⟨.inr ⟨_, availability_greets io.swarm ext, ?_⟩, fun o ho => ?_⟩
  · rw [hout]
    exact List.mem_append_right _ (List.mem_cons_self ..)
  · rcases Swarm.accepts_outputs haccept o ho with rfl | rfl | ⟨y, rfl⟩ | ⟨id, rfl⟩ <;> rfl

theorem step_targeted (s : Swarm) (i : Input × Entropy) (x : SocketAddr) (j : Nat) :
    .sendToPeer x (.havePiece j) ∉ (s.step sha1 i).2 := by
  intro hin
  obtain ⟨y, ext, -, heq⟩ := Swarm.advert_step hin rfl
  have hgreets := availability_greets s ext
  rw [← (Output.sendToPeer.inj heq).2] at hgreets
  contradiction

section

variable {io' : SwarmIo} {x : SocketAddr}

theorem met_older (h : Met log io x) (hget : io'.peerCmds.get x = io.peerCmds.get x) :
    Met (e :: log) io' x := by
  obtain ⟨k, hk, hgreeted⟩ := h
  exact ⟨k, hget.trans hk, greeted_older hgreeted⟩

theorem met_when_done (h : Orderly log io) (hdone : io.outputs = [])
    (hx : io.swarm.peerRegistry.containsAddr x = true) : Met log io x := by
  rcases h.introduced x hx with hmet | ⟨howed, -⟩
  · exact hmet
  · rw [hdone] at howed
    simp [Owed] at howed

theorem met_when_idle (h : Orderly log io) (hphase : io.phase = .selecting)
    (hx : io.swarm.peerRegistry.containsAddr x = true) : Met log io x :=
  met_when_done h (h.idle hphase) hx

theorem met_before {o : Output} {rest : List Output} (h : Orderly log io)
    (hout : io.outputs = o :: rest) (ho : harmless o = false)
    (hx : io.swarm.peerRegistry.containsAddr x = true) : Met log io x := by
  rcases h.introduced x hx with hmet | ⟨-, hharmless⟩
  · exact hmet
  · have htrue := hharmless o (hout ▸ List.mem_cons_self ..)
    rw [ho] at htrue
    contradiction

theorem introduced_popped (pushed : List Output) {o : Output} {rest : List Output}
    (h : Orderly log io) (hout : io.outputs = o :: rest) (hnext : io'.outputs = pushed ++ rest)
    (hget : io'.peerCmds.get x = io.peerCmds.get x)
    (hpushed : ∀ o ∈ pushed, harmless o = true)
    (howed : o = .disconnectPeer x ∨ (∃ m, m.greets = true ∧ o = .sendToPeer x m) →
      Met (e :: log) io' x ∨ Owed x io'.outputs)
    (hx : io.swarm.peerRegistry.containsAddr x = true) :
    Met (e :: log) io' x ∨ (Owed x io'.outputs ∧ ∀ o ∈ io'.outputs, harmless o = true) := by
  rcases h.introduced x hx with hmet | ⟨hx, hharmless⟩
  · exact .inl (met_older hmet hget)
  · have hall : ∀ o ∈ io'.outputs, harmless o = true := by
      intro q hq
      rw [hnext] at hq
      rcases List.mem_append.mp hq with hq | hq
      · exact hpushed q hq
      · exact hharmless q (hout ▸ List.mem_cons_of_mem _ hq)
    rw [hout] at hx
    rcases owed_cons hx with hrest | hnow
    · rw [hnext] at hall ⊢
      exact .inr ⟨owed_later hrest, hall⟩
    · exact (howed hnow).imp_right fun h => ⟨h, hall⟩

theorem introduced_turn {i : Move × Entropy} {effects : List Effect} (h : Orderly log io)
    (ht : Turn sha1 io i io' effects) (hx : io'.swarm.peerRegistry.containsAddr x = true) :
    Met (⟨io, i, effects⟩ :: log) io' x ∨
      (Owed x io'.outputs ∧ ∀ o ∈ io'.outputs, harmless o = true) := by
  cases ht with
  | rest hstill hout _ =>
    rw [hstill.swarm] at hx
    rw [hout]
    exact (h.introduced x hx).imp_left fun hmet => met_older hmet (by rw [hstill.peerCmds])
  | input input hphase hswarm hout hcmds _ =>
    rw [hswarm] at hx
    rw [hout]
    rcases Swarm.step_contains hx with ⟨ext, haccept⟩ | ⟨hold, hother⟩
    · exact .inr (introduced_accepted haccept)
    · refine .inl (met_older (met_when_idle h hphase hold) ?_)
      rcases hcmds with hcmds | ⟨y, rfl, hcmds⟩
      · rw [hcmds]
      · have hxy : x ≠ y := fun heq => hother (by rw [heq])
        rw [hcmds, HashMap.get_remove, if_neg hxy]
  | spawn y k hfree hswarm hcmds hfrom _ =>
    rw [hswarm] at hx
    have hmet : Met log io x := by
      rcases hfrom with ⟨hphase, -⟩ | hout
      · exact met_when_idle h hphase hx
      · exact met_before h hout rfl hx
    refine .inl (met_older hmet ?_)
    obtain ⟨j, hget, -⟩ := hmet
    have hxy : x ≠ y := by
      rintro rfl
      rw [HashMap.contains, hget] at hfree
      contradiction
    rw [hcmds, HashMap.get_insert, if_neg hxy]
  | pass o hout hdrop hsend hstill _ =>
    rw [hstill.swarm] at hx
    refine introduced_popped [] h hout rfl (by rw [hstill.peerCmds]) (by simp) ?_ hx
    rintro (rfl | ⟨m, -, rfl⟩)
    · exact absurd rfl (hdrop x)
    · exact absurd rfl (hsend x m)
  | disconnect y rest hout hswarm hcmds hnext _ =>
    rw [hswarm] at hx
    rcases Swarm.step_contains hx with ⟨ext, id, d, hconnect, -⟩ | ⟨hold, hother⟩
    · contradiction
    · have hxy : x ≠ y := fun heq => hother (by rw [heq])
      refine introduced_popped _ h hout hnext ?_ (fun o ho => ?_) ?_ hold
      · rw [hcmds, HashMap.get_remove, if_neg hxy]
      · obtain ⟨id, rfl⟩ := Swarm.onDisconnected_outputs i.2 io.swarm y o ho
        rfl
      · rintro (heq | ⟨m, -, heq⟩)
        · exact absurd (Output.disconnectPeer.inj heq).symm hxy
        · contradiction
  | send y m k hout hget hstill hsent =>
    rw [hstill.swarm] at hx
    refine introduced_popped [] h hout rfl (by rw [hstill.peerCmds]) (by simp) ?_ hx
    rintro (heq | ⟨m', hgreets, heq⟩)
    · contradiction
    · obtain ⟨rfl, rfl⟩ := Output.sendToPeer.inj heq
      refine .inl ⟨k, by rw [hstill.peerCmds, hget], greeted_newest (x := y) ?_ hgreets⟩
      rw [hsent]
      exact List.mem_singleton_self _
  | refuse y m rest hout hnext hstill _ =>
    rw [hstill.swarm] at hx
    refine introduced_popped [.disconnectPeer y] h hout hnext
      (by rw [hstill.peerCmds]) (by simp [harmless]) ?_ hx
    rintro (heq | ⟨m', -, heq⟩)
    · contradiction
    · rw [hnext, (Output.sendToPeer.inj heq).1]
      exact .inr (.inl (List.mem_cons_self ..))
  | broadcast accepts m rest failed _ _ hout hnext hstill _ =>
    rw [hstill.swarm] at hx
    exact .inl (met_older (met_before h hout rfl hx) (by rw [hstill.peerCmds]))

theorem targeted_turn {i : Move × Entropy} {effects : List Effect} (h : Orderly log io)
    (ht : Turn sha1 io i io' effects) (j : Nat) : .sendToPeer x (.havePiece j) ∉ io'.outputs := by
  have hpopped : ∀ {o rest} (pushed : List Output), io.outputs = o :: rest →
      .sendToPeer x (.havePiece j) ∉ pushed → .sendToPeer x (.havePiece j) ∉ pushed ++ rest := by
    intro o rest pushed hout hpushed hin
    rcases List.mem_append.mp hin with hin | hin
    · exact hpushed hin
    · exact h.targeted x j (hout ▸ List.mem_cons_of_mem _ hin)
  cases ht with
  | rest _ hout _ =>
    rw [hout]
    exact h.targeted x j
  | input input _ _ hout _ _ =>
    rw [hout]
    exact step_targeted io.swarm _ x j
  | spawn _ _ _ _ _ hfrom _ =>
    rcases hfrom with ⟨-, hout⟩ | hout
    · rw [hout]
      exact h.targeted x j
    · exact hpopped [] hout (by simp)
  | pass o hout _ _ _ _ => exact hpopped [] hout (by simp)
  | disconnect y rest hout _ _ hnext _ =>
    rw [hnext]
    exact hpopped _ hout (step_targeted io.swarm _ x j)
  | send _ _ _ hout _ _ _ => exact hpopped [] hout (by simp)
  | refuse y _ rest hout hnext _ _ =>
    rw [hnext]
    exact hpopped [.disconnectPeer y] hout (by simp)
  | broadcast _ _ rest failed _ _ hout hnext _ _ =>
    rw [hnext]
    exact hpopped _ hout (by simp)

end

theorem orderly_step (h : Orderly log io) (i : Move × Entropy) :
    Orderly (⟨io, i, (io.step sha1 i).2⟩ :: log) (io.step sha1 i).1 where
  introduced _ hx := introduced_turn h (turn_step sha1 io i) hx
  targeted _ j := targeted_turn h (turn_step sha1 io i) j
  idle := idle_step sha1 io i h.idle

theorem orderly_started (h : Started sha1 clientId metainfo io) : Orderly [] io := by
  obtain ⟨-, houtputs, hregistry⟩ := started_frame h
  refine ⟨fun x hx => ?_, fun x j hin => ?_, fun _ => houtputs⟩
  · rw [hregistry] at hx
    contradiction
  · rw [houtputs] at hin
    contradiction

theorem history_orderly (hist : History (step sha1) (Started sha1 clientId metainfo) log io) :
    Orderly log io := by
  induction hist with
  | start hio => exact orderly_started hio
  | next i _ ih => exact orderly_step ih i

end SwarmIo

end Tortue
