import Tortue.Adapters.TransferBlocks

namespace Tortue

open Collections

namespace Message

def asked : Message → Option BlockRange
  | .request b => some b
  | _ => none

def brought : Message → Option BlockRange
  | .piece b _ => some b
  | _ => none

def reply : Message → List Message
  | .bitfield _ | .havePiece _ | .haveAll | .suggestPiece _ | .allowedFast _ => [.interested]
  | .interested => [.unchoke]
  | _ => []

def weight : Message → Nat
  | .bitfield _ | .havePiece _ | .haveAll | .suggestPiece _ | .allowedFast _ | .request _ => 3
  | .interested => 2
  | .extension _ _ => 0
  | _ => 1

def toll (message : Message) : Nat := if message.isExtension then 0 else 1

theorem reply_weight (message : Message) :
    (message.reply.map weight).sum + message.toll ≤ message.weight := by
  cases message <;> simp [reply, weight, toll, isExtension]

end Message

namespace Transfer

def weigh (l : List Message.Sending) : Nat := (l.map fun x => x.2.weight).sum

def asks (l : List Message.Sending) : List BlockRange := l.filterMap fun x => x.2.asked

def brings (l : List Message.Sending) : List BlockRange := l.filterMap fun x => x.2.brought

def sent (o : IterOrder) (x : SocketAddr) (outputs : List Output) : List Message.Sending :=
  outputs.filterMap (sentTo o x)

variable {o : IterOrder} {x y : SocketAddr} {l r : List Message.Sending} {s : Swarm}
  {env : Entropy}

@[simp] theorem weigh_append (l r : List Message.Sending) : weigh (l ++ r) = weigh l + weigh r := by
  simp [weigh]

@[simp] theorem asks_append (l r : List Message.Sending) : asks (l ++ r) = asks l ++ asks r :=
  List.filterMap_append

@[simp] theorem brings_append (l r : List Message.Sending) :
    brings (l ++ r) = brings l ++ brings r := List.filterMap_append

@[simp] theorem sent_append (o : IterOrder) (x : SocketAddr) (as bs : List Output) :
    sent o x (as ++ bs) = sent o x as ++ sent o x bs := List.filterMap_append

@[simp] theorem sent_nil (o : IterOrder) (x : SocketAddr) : sent o x [] = [] := rfl

theorem sent_replies_self (o : IterOrder) (x : SocketAddr) (messages : List Message) :
    sent o x (messages.map (.sendToPeer x)) = messages.map (Prod.mk o) := by
  unfold sent
  rw [List.filterMap_map, ← List.filterMap_eq_map]
  refine List.filterMap_congr fun message _ => ?_
  simp [sentTo]

theorem sent_replies_other (o : IterOrder) (h : y ≠ x) (messages : List Message) :
    sent o x (messages.map (.sendToPeer y)) = [] := by
  unfold sent
  rw [List.filterMap_map, List.filterMap_eq_nil_iff]
  intro message _
  simp [sentTo, h]

theorem disconnects_sends (x : SocketAddr) (messages : List Message) :
    disconnects (messages.map (.sendToPeer x)) = [] := by
  refine disconnects_eq_nil fun out hout y => ?_
  obtain ⟨message, -, rfl⟩ := List.mem_map.mp hout
  exact nofun

theorem mem_sent {outputs : List Output} {message : Message.Sending} :
    message ∈ sent o x outputs ↔ message.1 = o ∧
      (.sendToPeer x message.2 ∈ outputs ∨ .broadcast message.2 ∈ outputs) := by
  obtain ⟨o', body⟩ := message
  unfold sent
  rw [List.mem_filterMap]
  constructor
  · rintro ⟨out, hin, hsent⟩
    cases out with
    | sendToPeer a content =>
      simp only [sentTo, Option.ite_none_right_eq_some, Option.some.injEq, Prod.mk.injEq] at hsent
      obtain ⟨rfl, rfl, rfl⟩ := hsent
      exact ⟨rfl, .inl hin⟩
    | broadcast content =>
      simp only [sentTo, Option.some.injEq, Prod.mk.injEq] at hsent
      obtain ⟨rfl, rfl⟩ := hsent
      exact ⟨rfl, .inr hin⟩
    | _ => contradiction
  · rintro ⟨rfl, hin | hin⟩
    · exact ⟨_, hin, by simp [sentTo]⟩
    · exact ⟨_, hin, rfl⟩

theorem asks_sent (o : IterOrder) (x : SocketAddr) {outputs : List Output}
    (h : ∀ message, .broadcast message ∉ outputs) :
    asks (sent o x outputs) =
      ((requestsOf outputs).filter fun q => q.1 = x).map Prod.snd := by
  induction outputs with
  | nil => rfl
  | cons out outputs ih =>
    have hrest := ih fun message hin => h message (List.mem_cons_of_mem _ hin)
    have hsplit : sent o x (out :: outputs) = sent o x [out] ++ sent o x outputs :=
      sent_append o x [out] outputs
    have hrequests : requestsOf (out :: outputs) = requestsOf [out] ++ requestsOf outputs :=
      requestsOf_append [out] outputs
    have hone : asks (sent o x [out]) =
        ((requestsOf [out]).filter fun q => q.1 = x).map Prod.snd := by
      cases out with
      | broadcast message => exact absurd (List.mem_cons_self ..) (h message)
      | sendToPeer a message =>
        by_cases ha : a = x
        · subst ha
          cases message <;>
            simp [asks, sent, sentTo, requestsOf, Message.asked]
        · cases message <;>
            simp [asks, sent, sentTo, requestsOf, ha]
      | _ => rfl
    rw [hsplit, hrequests, asks_append, List.filter_append, List.map_append, hone, hrest]

theorem plan_quiet (env : Entropy) (s : Swarm) (message : Message) :
    .broadcast message ∉ (s.plan env).2 := by
  intro hin
  obtain ⟨x, h | ⟨b, h⟩⟩ := (Swarm.plan_granted env s).messages _ hin
  · contradiction
  · contradiction

theorem plan_stays (env : Entropy) (s : Swarm) : disconnects (s.plan env).2 = [] := by
  refine disconnects_eq_nil fun out hout y => ?_
  obtain ⟨x, rfl | ⟨b, rfl⟩⟩ := (Swarm.plan_granted env s).messages out hout
  · exact nofun
  · exact nofun

theorem mem_plan_asks {b : BlockRange} :
    b ∈ asks (sent o x (s.plan env).2) ↔ (x, b) ∈ requestsOf (s.plan env).2 := by
  rw [asks_sent o x (plan_quiet env s)]
  simp

theorem plan_asks_nodup : (asks (sent o x (s.plan env).2)).Nodup := by
  rw [asks_sent o x (plan_quiet env s)]
  refine ((Swarm.plan_granted env s).nodup.filter _).map_on fun p hp q hq heq => ?_
  have hfirst := of_decide_eq_true (List.mem_filter.mp hp).2
  have hsecond := of_decide_eq_true (List.mem_filter.mp hq).2
  exact Prod.ext (hfirst.trans hsecond.symm) heq

theorem weigh_requestOutputs (r : PeerRegistry) (b : BlockRange) :
    weigh (sent o x (Swarm.requestOutputs r y b)) ≤
      5 * (asks (sent o x (Swarm.requestOutputs r y b))).length := by
  unfold Swarm.requestOutputs
  by_cases hy : y = x
  · subst hy
    rcases Swarm.declareInterest_eq r y with h | h <;> rw [h] <;>
      simp [sent, sentTo, weigh, asks, Message.weight, Message.asked]
  · rcases Swarm.declareInterest_eq r y with h | h <;> rw [h] <;>
      simp [sent, sentTo, weigh, asks, hy]

theorem plan_weigh (env : Entropy) (s : Swarm) : weigh (sent o x (s.plan env).2) ≤
    5 * (asks (sent o x (s.plan env).2)).length := by
  have hstable : Swarm.Stable s.peerRegistry s.plannedBlocks fun p =>
      weigh (sent o x p.outputs) ≤ 5 * (asks (sent o x p.outputs)).length := by
    refine ⟨fun _ _ h => h, fun _ h => h, fun p b a _ _ _ h => ?_⟩
    have hgrant := weigh_requestOutputs (o := o) (x := x) (y := a) s.peerRegistry b
    simp only [Swarm.Plan.grant, sent_append, weigh_append, asks_append, List.length_append]
    omega
  unfold Swarm.plan
  split_ifs
  · exact Nat.zero_le _
  · exact Nat.zero_le _
  · exact hstable.planLoop _ (Nat.zero_le _)

def unasked (s : Swarm) (x : SocketAddr) : Finset BlockRange :=
  s.plannedBlocks.toFinset.filter fun b => s.blockAssignments.isHolder b x = false

theorem mem_unasked {b : BlockRange} :
    b ∈ unasked s x ↔ b ∈ s.plannedBlocks ∧ s.blockAssignments.isHolder b x = false := by
  simp [unasked]

theorem plan_plannedBlocks (env : Entropy) (s : Swarm) :
    (s.plan env).1.plannedBlocks = s.plannedBlocks := by
  obtain ⟨a, ha⟩ := Swarm.plan_fst env s
  rw [ha]
  rfl

theorem plan_unasked (o : IterOrder) (env : Entropy) (s : Swarm) (x : SocketAddr) :
    (unasked (s.plan env).1 x).card + (asks (sent o x (s.plan env).2)).length =
      (unasked s x).card := by
  have hgranted := Swarm.plan_granted env s
  have hsub : (asks (sent o x (s.plan env).2)).toFinset ⊆ unasked s x := by
    intro b hb
    have hrequest := mem_plan_asks.mp (List.mem_toFinset.mp hb)
    exact mem_unasked.mpr ⟨(hgranted.eligible x b hrequest).1, hgranted.fresh x b hrequest⟩
  have hdiff : unasked (s.plan env).1 x =
      unasked s x \ (asks (sent o x (s.plan env).2)).toFinset := by
    ext b
    rw [Finset.mem_sdiff, List.mem_toFinset, mem_unasked, mem_unasked, mem_plan_asks,
      plan_plannedBlocks, ← Bool.not_eq_true, ← Bool.not_eq_true, hgranted.holders, not_or,
      and_assoc]
  rw [hdiff, ← List.toFinset_card_of_nodup plan_asks_nodup, Finset.card_sdiff_add_card_eq_card hsub]

end Transfer

end Tortue
