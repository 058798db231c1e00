import Tortue.Domain.Swarm.Outputs

namespace Tortue

open Collections

def Message.Releases (b : BlockRange) : Message → Prop
  | .choke => True
  | .piece range _ => b = range
  | .rejectRequest range => b = range
  | _ => False

namespace Swarm

open BlockAssignments

variable {r : PeerRegistry} {env : Entropy} {s : Swarm}

theorem declareInterest_eq (r : PeerRegistry) (x : SocketAddr) :
    r.declareInterest x = none ∨ r.declareInterest x = some .interested := by
  unfold PeerRegistry.declareInterest
  split
  · exact .inr rfl
  · exact .inl rfl

theorem mem_requestOutputs {x : SocketAddr} {b : BlockRange} {o : Output}
    (h : o ∈ requestOutputs r x b) :
    o = .sendToPeer x .interested ∨ o = .sendToPeer x (.request b) := by
  unfold requestOutputs at h
  rcases declareInterest_eq r x with hi | hi <;> rw [hi] at h
  · exact .inr (by simpa using h)
  · simpa using h

@[simp] theorem requestsOf_requestOutputs (r : PeerRegistry) (x : SocketAddr) (b : BlockRange) :
    requestsOf (requestOutputs r x b) = [(x, b)] := by
  unfold requestOutputs
  rcases declareInterest_eq r x with h | h <;> rw [h] <;> rfl

theorem mem_candidates {a : BlockAssignments} {b : BlockRange} {x : SocketAddr} :
    x ∈ candidates r a b ↔ r.availability.has b.pieceIndex x = true ∧
      r.canServe x b.pieceIndex = true ∧ 0 < a.freeSlotsFor x ∧ a.isHolder b x = false := by
  unfold candidates PeerRegistry.peersWith
  simp [PieceAvailability.mem_peersFor, and_assoc]

theorem pickPeer_mem {a : BlockAssignments} {b : BlockRange} {draw : Nat} {x : SocketAddr}
    (h : pickPeer r a b draw = some x) : x ∈ candidates r a b :=
  List.mem_of_getElem? h

theorem pickPeer_none {a : BlockAssignments} {b : BlockRange} {draw : Nat}
    (h : pickPeer r a b draw = none) : candidates r a b = [] := by
  by_contra hne
  have hlt : draw % (candidates r a b).length < (candidates r a b).length :=
    Nat.mod_lt _ (List.length_pos_of_ne_nil hne)
  rw [pickPeer, List.getElem?_eq_getElem hlt] at h
  contradiction

theorem pickPeer_of_mem {a : BlockAssignments} {b : BlockRange} {x : SocketAddr}
    (h : x ∈ candidates r a b) : ∃ draw, pickPeer r a b draw = some x := by
  obtain ⟨draw, hlt, hget⟩ := List.mem_iff_getElem.mp h
  refine ⟨draw, ?_⟩
  rw [pickPeer, Nat.mod_eq_of_lt hlt, List.getElem?_eq_getElem hlt, hget]

theorem planBlock_cases (k : Nat) (p : Plan) (b : BlockRange) :
    ((p.budget = 0 ∨ p.holders.getD b 0 ≠ k) ∧ planBlock r k p b = p) ∨
    (0 < p.budget ∧ p.holders.getD b 0 = k ∧ candidates r p.assignments b = [] ∧
      planBlock r k p b = { p with rng := p.rng.tail }) ∨
    (∃ x ∈ candidates r p.assignments b, 0 < p.budget ∧ p.holders.getD b 0 = k ∧
      planBlock r k p b = p.grant r b x) := by
  unfold planBlock
  split_ifs with hbudget hholders
  · exact .inl ⟨.inl hbudget, rfl⟩
  · exact .inl ⟨.inr hholders, rfl⟩
  · have hpos : 0 < p.budget := Nat.pos_of_ne_zero hbudget
    have hk : p.holders.getD b 0 = k := not_not.mp hholders
    cases hpick : pickPeer r p.assignments b p.rng.head with
    | none => exact .inr (.inl ⟨hpos, hk, pickPeer_none hpick, rfl⟩)
    | some x => exact .inr (.inr ⟨x, pickPeer_mem hpick, hpos, hk, rfl⟩)

theorem planSweep_first (r : PeerRegistry) (blocks : List BlockRange) (n : Nat) (p : Plan) :
    planSweep r blocks n p = ((List.range n).map Nat.succ).foldl (planDepth r blocks)
      (planDepth r blocks { p with progressed := false } 0) := by
  unfold planSweep
  rw [List.range_succ_eq_map, List.foldl_cons]

theorem finalPlan_eq (env : Entropy) {s : Swarm} {n : Nat} (hn : s.budget = n + 1) :
    s.finalPlan env = planLoop s.peerRegistry s.plannedBlocks
      s.peerRegistry.unchoked.length n
        (planSweep s.peerRegistry s.plannedBlocks s.peerRegistry.unchoked.length
          (s.initialPlan env)) := by
  have hpos : 0 < s.budget := hn ▸ Nat.succ_pos n
  unfold finalPlan
  rw [hn, planLoop, if_pos ⟨hpos, rfl⟩]

structure Stable (r : PeerRegistry) (blocks : List BlockRange) (P : Plan → Prop) : Prop where
  progress : ∀ p b, P p → P { p with progressed := b }
  draw : ∀ p, P p → P { p with rng := p.rng.tail }
  grant : ∀ p b x, b ∈ blocks → x ∈ candidates r p.assignments b → 0 < p.budget → P p →
    P (p.grant r b x)

namespace Stable

variable {blocks : List BlockRange} {P : Plan → Prop}

theorem planBlock (h : Stable r blocks P) {k : Nat} {p : Plan} {b : BlockRange} (hb : b ∈ blocks)
    (hp : P p) : P (planBlock r k p b) := by
  rcases planBlock_cases k p b with ⟨-, hs⟩ | ⟨-, -, -, hs⟩ | ⟨x, hx, hpos, -, hs⟩ <;> rw [hs]
  · exact hp
  · exact h.draw p hp
  · exact h.grant p b x hb hx hpos hp

theorem planDepth (h : Stable r blocks P) {k : Nat} {p : Plan} (hp : P p) :
    P (planDepth r blocks p k) :=
  List.foldlRecOn blocks _ hp fun _ hq _ hb => h.planBlock hb hq

theorem planSweep (h : Stable r blocks P) {n : Nat} {p : Plan} (hp : P p) :
    P (planSweep r blocks n p) :=
  List.foldlRecOn _ _ (h.progress p false hp) fun _ hq _ _ => h.planDepth hq

theorem planLoop (h : Stable r blocks P) {n : Nat} (fuel : Nat) {p : Plan} (hp : P p) :
    P (planLoop r blocks n fuel p) := by
  induction fuel generalizing p with
  | zero => exact hp
  | succ fuel ih =>
    unfold Swarm.planLoop
    split
    · exact ih (h.planSweep hp)
    · exact hp

theorem finalPlan (env : Entropy) {s : Swarm} {P : Plan → Prop}
    (h : Stable s.peerRegistry s.plannedBlocks P) (hbudget : s.budget ≠ 0)
    (hfirst : P (Swarm.planDepth s.peerRegistry s.plannedBlocks
      { s.initialPlan env with progressed := false } 0)) : P (s.finalPlan env) := by
  obtain ⟨n, hn⟩ := Nat.exists_eq_succ_of_ne_zero hbudget
  rw [finalPlan_eq env hn, planSweep_first]
  exact h.planLoop n (List.foldlRecOn _ _ hfirst fun _ hq _ _ => h.planDepth hq)

end Stable

structure Granted (s : Swarm) (a : BlockAssignments) (outputs : List Output) : Prop where
  holders : ∀ b x, a.isHolder b x = true ↔
    s.blockAssignments.isHolder b x = true ∨ (x, b) ∈ requestsOf outputs
  fresh : ∀ x b, (x, b) ∈ requestsOf outputs → s.blockAssignments.isHolder b x = false
  nodup : (requestsOf outputs).Nodup
  eligible : ∀ x b, (x, b) ∈ requestsOf outputs → b ∈ s.plannedBlocks ∧
    s.peerRegistry.availability.has b.pieceIndex x = true ∧
    s.peerRegistry.canServe x b.pieceIndex = true
  room : (∀ y, s.blockAssignments.inFlight y ≤ maxInFlightPerPeer) →
    ∀ y, a.inFlight y ≤ maxInFlightPerPeer
  messages : ∀ o ∈ outputs, ∃ x, o = .sendToPeer x .interested ∨
    ∃ b, o = .sendToPeer x (.request b)

namespace Granted

theorem nothing (s : Swarm) : Granted s s.blockAssignments [] where
  holders := by simp [requestsOf]
  fresh := by simp [requestsOf]
  nodup := List.nodup_nil
  eligible := by simp [requestsOf]
  room h := h
  messages := by simp

theorem grant {p : Plan} (h : Granted s p.assignments p.outputs) {b : BlockRange} {x : SocketAddr}
    (hb : b ∈ s.plannedBlocks) (hx : x ∈ candidates s.peerRegistry p.assignments b) :
    Granted s (p.grant s.peerRegistry b x).assignments (p.grant s.peerRegistry b x).outputs := by
  obtain ⟨hhas, hserve, hfree, hnew⟩ := mem_candidates.mp hx
  have hnot : ¬ (s.blockAssignments.isHolder b x = true ∨ (x, b) ∈ requestsOf p.outputs) := by
    rw [← h.holders, hnew]
    exact Bool.false_ne_true
  have hrequests : ∀ y c, (y, c) ∈ requestsOf (p.grant s.peerRegistry b x).outputs ↔
      (y, c) ∈ requestsOf p.outputs ∨ (y = x ∧ c = b) := by
    intro y c
    simp [Plan.grant, requestsOf_append]
  refine ⟨fun c y => ?_, fun y c hyc => ?_, ?_, fun y c hyc => ?_, fun hroom y => ?_, ?_⟩
  · rw [hrequests]
    simp only [Plan.grant, isHolder_assign, h.holders]
    constructor
    · rintro (⟨rfl, rfl⟩ | hold | hreq)
      · exact .inr (.inr ⟨rfl, rfl⟩)
      · exact .inl hold
      · exact .inr (.inl hreq)
    · rintro (hold | hreq | ⟨rfl, rfl⟩)
      · exact .inr (.inl hold)
      · exact .inr (.inr hreq)
      · exact .inl ⟨rfl, rfl⟩
  · rcases (hrequests y c).mp hyc with hreq | ⟨rfl, rfl⟩
    · exact h.fresh y c hreq
    · exact Bool.eq_false_iff.mpr fun hold => hnot (.inl hold)
  · simp only [Plan.grant, requestsOf_append, requestsOf_requestOutputs]
    refine List.nodup_append.mpr ⟨h.nodup, List.nodup_singleton _, fun c hc d hd heq => ?_⟩
    rw [List.mem_singleton] at hd
    exact hnot (.inr (hd ▸ heq ▸ hc))
  · rcases (hrequests y c).mp hyc with hreq | ⟨rfl, rfl⟩
    · exact h.eligible y c hreq
    · exact ⟨hb, hhas, hserve⟩
  · have hle := h.room hroom y
    have hassign := inFlight_assign_le p.assignments b x y
    simp only [Plan.grant]
    unfold freeSlotsFor at hfree
    by_cases hyx : y = x
    · subst hyx
      rw [if_pos rfl] at hassign
      omega
    · rw [if_neg hyx] at hassign
      omega
  · intro o ho
    rcases List.mem_append.mp ho with ho | ho
    · exact h.messages o ho
    · rcases mem_requestOutputs ho with rfl | rfl
      · exact ⟨x, .inl rfl⟩
      · exact ⟨x, .inr ⟨b, rfl⟩⟩

theorem stable (s : Swarm) :
    Stable s.peerRegistry s.plannedBlocks fun p => Granted s p.assignments p.outputs where
  progress _ _ h := h
  draw _ h := h
  grant _ _ _ hb hx _ h := h.grant hb hx

end Granted

theorem plan_granted (env : Entropy) (s : Swarm) :
    Granted s (s.plan env).1.blockAssignments (s.plan env).2 := by
  unfold plan
  split_ifs
  · exact Granted.nothing s
  · exact Granted.nothing s
  · exact (Granted.stable s).planLoop _ (Granted.nothing s)

theorem handleMessage_isHolder (sha1 : Sha1) (env : Entropy) (s : Swarm) (x : SocketAddr)
    (m : Message) (b : BlockRange) (y : SocketAddr) :
    (s.handleMessage sha1 env x m).1.blockAssignments.isHolder b y = true ↔
      s.blockAssignments.isHolder b y = true ∧ ¬ (y = x ∧ m.Releases b) := by
  cases m with
  | choke =>
    simp [handleMessage, Message.Releases, isHolder_releasePeer]
  | rejectRequest range =>
    simp [handleMessage, Message.Releases, isHolder_unassign]
  | piece range data =>
    rcases onMessagePiece_fst sha1 env s x range data with ⟨hnot, hs⟩ | ⟨-, _, hs⟩
    · simp only [handleMessage, hs, Message.Releases]
      refine ⟨fun h => ⟨h, ?_⟩, fun h => h.1⟩
      rintro ⟨rfl, rfl⟩
      rw [hnot] at h
      contradiction
    · simp only [handleMessage, hs, Message.Releases]
      exact isHolder_unassign s.blockAssignments range b x y
  | request range =>
    obtain ⟨_, _, hs⟩ := onMessageRequest_fst s x range
    simp only [handleMessage, hs, Message.Releases, and_false, not_false_eq_true, and_true]
  | cancel range =>
    obtain ⟨_, hs⟩ := cancelUpload_fst s x range
    simp only [handleMessage, hs, Message.Releases, and_false, not_false_eq_true, and_true]
  | _ => simp [handleMessage, Message.Releases]

end Swarm

end Tortue
