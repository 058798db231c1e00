import Tortue.Collections.StableSort
import Tortue.Domain.Swarm.Passes

namespace Tortue

open Collections

namespace BlockAssignments

def holdersOf (a : BlockAssignments) (b : BlockRange) : Nat := a.holderCounts.getD b 0

theorem holdersOf_eq_weight (a : BlockAssignments) (c : BlockRange) :
    a.holdersOf c = a.byPeer.weight fun blocks => blocks.keys.count c := by
  unfold holdersOf holderCounts
  rw [tally_getD, List.count_flatMap]
  rfl

theorem holdersOf_assign {a : BlockAssignments} {b : BlockRange} {x : SocketAddr}
    (h : a.isHolder b x = false) (c : BlockRange) :
    (a.assign b x).holdersOf c = a.holdersOf c + if b = c then 1 else 0 := by
  rw [isHolder_eq_blocksOf] at h
  have hnone : (a.blocksOf x).get b = none := by
    simpa [HashMap.contains] using h
  have hkeys : ((a.blocksOf x).add b).keys = b :: (a.blocksOf x).keys := by
    have hkept := HashMap.remove_of_get_none hnone
    simp only [HashSet.add, HashMap.keys, HashMap.insert, List.map_cons, hkept]
  have hsplit : a.byPeer.weight (fun blocks => blocks.keys.count c) =
      (a.blocksOf x).keys.count c +
        (a.byPeer.remove x).weight fun blocks => blocks.keys.count c := by
    unfold blocksOf HashMap.getD
    cases hget : a.byPeer.get x with
    | none =>
      rw [HashMap.remove_of_get_none hget]
      simp [HashMap.keys, HashMap.empty]
    | some blocks => exact HashMap.weight_remove _ hget
  rw [holdersOf_eq_weight, holdersOf_eq_weight, assign, HashMap.weight_insert, hkeys, hsplit,
    List.count_cons]
  simp only [beq_iff_eq]
  omega

end BlockAssignments

namespace Swarm

open BlockAssignments

variable {s : Swarm}

def replay (a : BlockAssignments) (requests : List (SocketAddr × BlockRange)) : BlockAssignments :=
  requests.foldl (fun a request => a.assign request.2 request.1) a

def moments (a : BlockAssignments) :
    List (SocketAddr × BlockRange) → List (BlockAssignments × BlockRange)
  | [] => []
  | (x, b) :: requests => (a, b) :: moments (a.assign b x) requests

theorem moments_append (a : BlockAssignments) (requests : List (SocketAddr × BlockRange))
    (x : SocketAddr) (b : BlockRange) : moments a (requests ++ [(x, b)]) =
      moments a requests ++ [(replay a requests, b)] := by
  induction requests generalizing a with
  | nil => rfl
  | cons request requests ih =>
    simp only [List.cons_append, moments, ih]
    rfl

theorem replay_append (a : BlockAssignments) (requests : List (SocketAddr × BlockRange))
    (x : SocketAddr) (b : BlockRange) :
    replay a (requests ++ [(x, b)]) = (replay a requests).assign b x := by
  unfold replay
  rw [List.foldl_append]
  rfl

structure Eligible (s : Swarm) (a : BlockAssignments) (b : BlockRange) (x : SocketAddr) : Prop where
  known : x ∈ s.peerRegistry.peersWith b.pieceIndex
  serves : s.peerRegistry.canServe x b.pieceIndex = true
  room : 0 < a.freeSlotsFor x
  other : a.isHolder b x = false

theorem eligible_iff {a : BlockAssignments} {b : BlockRange} {x : SocketAddr} :
    Eligible s a b x ↔ x ∈ candidates s.peerRegistry a b := by
  rw [mem_candidates]
  constructor
  · rintro ⟨hknown, hserves, hroom, hother⟩
    exact ⟨(PieceAvailability.mem_peersFor _ _ _).mp hknown, hserves, hroom, hother⟩
  · rintro ⟨hknown, hserves, hroom, hother⟩
    exact ⟨(PieceAvailability.mem_peersFor _ _ _).mpr hknown, hserves, hroom, hother⟩

def FairAt (s : Swarm) (a : BlockAssignments) (b : BlockRange) : Prop :=
  ∀ i ∈ s.pieces.neededPieces, ∀ c ∈ s.pieces.unreceivedBlocks i,
    a.holdersOf c < a.holdersOf b → ∀ x, ¬ Eligible s a c x

def blockKey (s : Swarm) (b : BlockRange) :
    Lex (Lex (Bool × Lex (Bool × Nat)) × Lex (Nat × Nat)) :=
  toLex (s.pieceKey b.pieceIndex, toLex (b.pieceIndex, b.pieceOffset))

def requestKey (s : Swarm) (k : Nat) (b : BlockRange) :
    Lex (Nat × Lex (Lex (Bool × Lex (Bool × Nat)) × Lex (Nat × Nat))) :=
  toLex (k, s.blockKey b)

theorem unreceivedBlocks_ascending (pm : PieceManager) (i : Nat) :
    (pm.unreceivedBlocks i).Pairwise fun b c => b.pieceOffset ≤ c.pieceOffset := by
  unfold PieceManager.unreceivedBlocks
  split
  · exact .nil
  · next p _ =>
    have hascending : p.unreceivedBlocks.Pairwise (· < ·) := by
      unfold Piece.unreceivedBlocks
      split
      · exact List.pairwise_lt_range.filter _
      · exact .nil
    refine List.pairwise_map.mpr (hascending.imp fun {j k} hjk => ?_)
    exact Nat.mul_le_mul_right _ hjk.le

theorem plannedBlocks_sorted (s : Swarm) :
    s.plannedBlocks.Pairwise fun b c => s.blockKey b ≤ s.blockKey c := by
  unfold plannedBlocks
  refine List.pairwise_flatMap.mpr ⟨fun i _ => ?_, ?_⟩
  · refine List.Pairwise.imp_of_mem (fun {b c} hb hc hbc => ?_)
      (unreceivedBlocks_ascending s.pieces i)
    have hindex := (mem_unreceivedBlocks_index hb).trans (mem_unreceivedBlocks_index hc).symm
    refine Prod.Lex.toLex_le_toLex.mpr (.inr ⟨by rw [hindex], ?_⟩)
    exact Prod.Lex.toLex_le_toLex.mpr (.inr ⟨hindex, hbc⟩)
  · have hneeded : s.pieces.neededPieces.Pairwise (· < ·) := List.pairwise_lt_range.filter _
    have hnodup :
        (s.pieces.neededPieces.insertionSort fun a b => s.pieceKey a ≤ s.pieceKey b).Nodup :=
      (List.perm_insertionSort _ _).nodup_iff.mpr (List.nodup_range.filter _)
    refine ((insertionSort_pairwise s.pieceKey hneeded).and hnodup).imp
      fun {i j} hij b hb c hc => ?_
    rw [blockKey, blockKey, mem_unreceivedBlocks_index hb, mem_unreceivedBlocks_index hc]
    rcases Prod.Lex.toLex_le_toLex.mp hij.1 with hlt | ⟨heq, hle⟩
    · exact Prod.Lex.toLex_le_toLex.mpr (.inl hlt)
    · have hlt : i < j := lt_of_le_of_ne hle hij.2
      exact Prod.Lex.toLex_le_toLex.mpr (.inr ⟨heq, Prod.Lex.toLex_le_toLex.mpr (.inl hlt)⟩)

structure Swept (s : Swarm) (p : Plan) (k : Nat) (done rest : List BlockRange) : Prop where
  counted : ∀ b, p.holders.getD b 0 = p.assignments.holdersOf b
  replayed : p.assignments = replay s.blockAssignments (requestsOf p.outputs)
  settled : 0 < p.budget → ∀ c ∈ s.plannedBlocks,
    (p.assignments.holdersOf c < k ∨ c ∈ done ∧ p.assignments.holdersOf c = k) →
      candidates s.peerRegistry p.assignments c = []
  fair : ∀ g ∈ moments s.blockAssignments (requestsOf p.outputs), s.FairAt g.1 g.2
  sorted : (moments s.blockAssignments (requestsOf p.outputs)).Pairwise fun g h =>
    s.requestKey (g.1.holdersOf g.2) g.2 ≤ s.requestKey (h.1.holdersOf h.2) h.2
  bounded : ∀ g ∈ moments s.blockAssignments (requestsOf p.outputs), g.1.holdersOf g.2 ≤ k ∧
    ∀ b ∈ rest, s.requestKey (g.1.holdersOf g.2) g.2 ≤ s.requestKey k b

theorem candidates_assign {r : PeerRegistry} {a : BlockAssignments} {b c : BlockRange}
    {x : SocketAddr} (hx : x ∈ candidates r a b) (h : candidates r a c = []) :
    candidates r (a.assign b x) c = [] := by
  obtain ⟨-, -, -, hnew⟩ := mem_candidates.mp hx
  refine List.eq_nil_iff_forall_not_mem.mpr fun y hy => ?_
  obtain ⟨hhas, hserve, hfree, hother⟩ := mem_candidates.mp hy
  have hold : y ∈ candidates r a c := by
    refine mem_candidates.mpr ⟨hhas, hserve, ?_, Bool.eq_false_iff.mpr fun hheld => ?_⟩
    · have hassign := inFlight_assign_new a hnew y
      unfold freeSlotsFor at hfree ⊢
      split_ifs at hassign <;> omega
    · have hkept : (a.assign b x).isHolder c y = true := (isHolder_assign ..).mpr (.inr hheld)
      rw [hother] at hkept
      contradiction
  rw [h] at hold
  contradiction

theorem requestsOf_grant (r : PeerRegistry) (p : Plan) (b : BlockRange) (x : SocketAddr) :
    requestsOf (p.grant r b x).outputs = requestsOf p.outputs ++ [(x, b)] := by
  rw [Plan.grant, requestsOf_append, requestsOf_requestOutputs]

namespace Swept

variable {p : Plan} {k : Nat} {b : BlockRange} {done rest : List BlockRange}

theorem skip (h : Swept s p k done (b :: rest))
    (hb : 0 < p.budget → p.assignments.holdersOf b = k →
      candidates s.peerRegistry p.assignments b = []) : Swept s p k (done ++ [b]) rest where
  counted := h.counted
  replayed := h.replayed
  settled hpos c hc hcount := by
    rcases hcount with hlt | ⟨hin, heq⟩
    · exact h.settled hpos c hc (.inl hlt)
    · rcases List.mem_append.mp hin with hin | hin
      · exact h.settled hpos c hc (.inr ⟨hin, heq⟩)
      · obtain rfl := List.mem_singleton.mp hin
        exact hb hpos heq
  fair := h.fair
  sorted := h.sorted
  bounded g hg := ⟨(h.bounded g hg).1, fun c hc => (h.bounded g hg).2 c (List.mem_cons_of_mem _ hc)⟩

theorem grant (h : Swept s p k done (b :: rest)) {x : SocketAddr}
    (hx : x ∈ candidates s.peerRegistry p.assignments b) (hpos : 0 < p.budget)
    (hk : p.assignments.holdersOf b = k) (hrest : ∀ c ∈ rest, s.blockKey b ≤ s.blockKey c) :
    Swept s (p.grant s.peerRegistry b x) k (done ++ [b]) rest := by
  obtain ⟨-, -, -, hnew⟩ := mem_candidates.mp hx
  have hcount := holdersOf_assign hnew
  have hmoments : moments s.blockAssignments
      (requestsOf (p.grant s.peerRegistry b x).outputs) =
        moments s.blockAssignments (requestsOf p.outputs) ++ [(p.assignments, b)] := by
    rw [requestsOf_grant, moments_append, ← h.replayed]
  refine ⟨fun c => ?_, ?_, fun _ c hc hsettled => ?_, ?_, ?_, ?_⟩
  · change (p.holders.insert b (p.holders.getD b 0 + 1)).getD c 0 =
      (p.assignments.assign b x).holdersOf c
    rw [hcount, ← h.counted c]
    by_cases hcb : c = b
    · subst hcb
      simp [HashMap.getD]
    · simp [HashMap.getD, HashMap.get_insert, hcb, Ne.symm hcb]
  · rw [requestsOf_grant, replay_append, ← h.replayed]
    rfl
  · change candidates s.peerRegistry (p.assignments.assign b x) c = []
    change (p.assignments.assign b x).holdersOf c < k ∨
      c ∈ done ++ [b] ∧ (p.assignments.assign b x).holdersOf c = k at hsettled
    rw [hcount] at hsettled
    have hcb : b ≠ c := by
      rintro rfl
      rw [if_pos rfl] at hsettled
      omega
    rw [if_neg hcb, Nat.add_zero] at hsettled
    refine candidates_assign hx (h.settled hpos c hc ?_)
    rcases hsettled with hlt | ⟨hin, heq⟩
    · exact .inl hlt
    · refine .inr ⟨(List.mem_append.mp hin).resolve_right fun hin => ?_, heq⟩
      exact hcb (List.mem_singleton.mp hin).symm
  · rw [hmoments]
    intro g hg
    rcases List.mem_append.mp hg with hg | hg
    · exact h.fair g hg
    · obtain rfl := List.mem_singleton.mp hg
      intro i hi c hc hfewer y hy
      have hnone := h.settled hpos c (mem_plannedBlocks.mpr ⟨i, hi, hc⟩) (.inl (hk ▸ hfewer))
      rw [eligible_iff, hnone] at hy
      contradiction
  · rw [hmoments]
    refine List.pairwise_append.mpr ⟨h.sorted, List.pairwise_singleton .., fun g hg g' hg' => ?_⟩
    obtain rfl := List.mem_singleton.mp hg'
    rw [hk]
    exact (h.bounded g hg).2 b (List.mem_cons_self ..)
  · rw [hmoments]
    intro g hg
    rcases List.mem_append.mp hg with hg | hg
    · exact ⟨(h.bounded g hg).1, fun c hc => (h.bounded g hg).2 c (List.mem_cons_of_mem _ hc)⟩
    · obtain rfl := List.mem_singleton.mp hg
      refine ⟨hk.le, fun c hc => ?_⟩
      exact Prod.Lex.toLex_le_toLex.mpr (.inr ⟨hk, hrest c hc⟩)

theorem planBlock (h : Swept s p k done (b :: rest))
    (hrest : ∀ c ∈ rest, s.blockKey b ≤ s.blockKey c) :
    Swept s (planBlock s.peerRegistry k p b) k (done ++ [b]) rest := by
  rcases planBlock_cases (r := s.peerRegistry) k p b with
    ⟨hskip, hs⟩ | ⟨hpos, hk, hnone, hs⟩ | ⟨x, hx, hpos, hk, hs⟩ <;> rw [hs]
  · refine h.skip fun hpos hcount => ?_
    rw [h.counted] at hskip
    omega
  · have hnext := h.skip fun _ _ => hnone
    exact ⟨hnext.counted, hnext.replayed, hnext.settled, hnext.fair, hnext.sorted, hnext.bounded⟩
  · exact h.grant hx hpos (h.counted b ▸ hk) hrest

theorem planDepth (h : Swept s p k [] s.plannedBlocks) :
    Swept s (planDepth s.peerRegistry s.plannedBlocks p k) k s.plannedBlocks [] := by
  have hrun : ∀ rest p done, Swept s p k done rest →
      rest.Pairwise (fun b c => s.blockKey b ≤ s.blockKey c) →
      Swept s (Swarm.planDepth s.peerRegistry rest p k) k (done ++ rest) [] := by
    intro rest
    induction rest with
    | nil =>
      intro p done hp _
      rw [List.append_nil]
      exact hp
    | cons b rest ih =>
      intro p done hp hsorted
      obtain ⟨hb, hsorted⟩ := List.pairwise_cons.mp hsorted
      have hnext := ih _ _ (hp.planBlock hb) hsorted
      rw [List.append_assoc] at hnext
      exact hnext
  exact hrun _ p [] h (plannedBlocks_sorted s)

theorem deeper (h : Swept s p k s.plannedBlocks []) : Swept s p (k + 1) [] s.plannedBlocks where
  counted := h.counted
  replayed := h.replayed
  settled hpos c hc hcount := by
    refine h.settled hpos c hc ?_
    rcases hcount with hlt | ⟨hin, -⟩
    · rcases Nat.lt_or_eq_of_le (Nat.le_of_lt_succ hlt) with hlt | heq
      · exact .inl hlt
      · exact .inr ⟨hc, heq⟩
    · contradiction
  fair := h.fair
  sorted := h.sorted
  bounded g hg := by
    have hle := (h.bounded g hg).1
    refine ⟨by omega, fun b _ => ?_⟩
    exact Prod.Lex.toLex_le_toLex.mpr (.inl (Nat.lt_succ_of_le hle))

theorem depths (h : Swept s p 0 [] s.plannedBlocks) (n : Nat) :
    Swept s ((List.range n).foldl (Swarm.planDepth s.peerRegistry s.plannedBlocks) p) n []
      s.plannedBlocks := by
  induction n with
  | zero => exact h
  | succ n ih =>
    rw [List.range_succ, List.foldl_append]
    exact ih.planDepth.deeper

end Swept

def Stuck (s : Swarm) (n : Nat) (p : Plan) : Prop :=
  p.budget = 0 ∨ ∀ c ∈ s.plannedBlocks, p.holders.getD c 0 ≤ n →
    candidates s.peerRegistry p.assignments c = []

structure SameRequests (p q : Plan) : Prop where
  budget : q.budget = p.budget
  holders : q.holders = p.holders
  assignments : q.assignments = p.assignments
  outputs : q.outputs = p.outputs

theorem SameRequests.trans {p q q' : Plan} (h : SameRequests p q) (h' : SameRequests q q') :
    SameRequests p q' :=
  ⟨h'.budget.trans h.budget, h'.holders.trans h.holders, h'.assignments.trans h.assignments,
    h'.outputs.trans h.outputs⟩

theorem Stuck.of_same {n : Nat} {p q : Plan} (h : Stuck s n p) (hsame : SameRequests p q) :
    Stuck s n q := by
  unfold Stuck
  rw [hsame.budget, hsame.holders, hsame.assignments]
  exact h

theorem planBlock_passed {r : PeerRegistry} {k : Nat} {p : Plan} {b : BlockRange}
    (h : p.budget = 0 ∨ p.holders.getD b 0 ≠ k ∨ candidates r p.assignments b = []) :
    SameRequests p (planBlock r k p b) := by
  rcases planBlock_cases (r := r) k p b with
    ⟨-, hs⟩ | ⟨-, -, -, hs⟩ | ⟨x, hx, hpos, hcount, -⟩
  · rw [hs]
    exact ⟨rfl, rfl, rfl, rfl⟩
  · rw [hs]
    exact ⟨rfl, rfl, rfl, rfl⟩
  · rcases h with hspent | hother | hnone
    · omega
    · contradiction
    · rw [hnone] at hx
      contradiction

theorem stuck_planBlock {n k : Nat} {p : Plan} {b : BlockRange} (h : Stuck s n p) (hk : k ≤ n)
    (hb : b ∈ s.plannedBlocks) : SameRequests p (planBlock s.peerRegistry k p b) := by
  refine planBlock_passed ?_
  rcases h with hspent | hnone
  · exact .inl hspent
  · by_cases hcount : p.holders.getD b 0 = k
    · exact .inr (.inr (hnone b hb (hcount ▸ hk)))
    · exact .inr (.inl hcount)

theorem stuck_planDepth {n k : Nat} {p : Plan} (h : Stuck s n p) (hk : k ≤ n) :
    SameRequests p (planDepth s.peerRegistry s.plannedBlocks p k) :=
  List.foldlRecOn (motive := SameRequests p) s.plannedBlocks _ ⟨rfl, rfl, rfl, rfl⟩
    fun _ hq _ hb => hq.trans (stuck_planBlock (h.of_same hq) hk hb)

theorem stuck_planSweep {n : Nat} {p : Plan} (h : Stuck s n p) :
    SameRequests p (planSweep s.peerRegistry s.plannedBlocks n p) :=
  List.foldlRecOn (motive := SameRequests p) (List.range (n + 1)) _ ⟨rfl, rfl, rfl, rfl⟩
    fun _ hq _ hk =>
      hq.trans (stuck_planDepth (h.of_same hq) (Nat.le_of_lt_succ (List.mem_range.mp hk)))

theorem stuck_planLoop {n : Nat} (fuel : Nat) {p : Plan} (h : Stuck s n p) :
    SameRequests p (planLoop s.peerRegistry s.plannedBlocks n fuel p) := by
  induction fuel generalizing p with
  | zero => exact ⟨rfl, rfl, rfl, rfl⟩
  | succ fuel ih =>
    unfold planLoop
    split_ifs
    · have hsweep := stuck_planSweep h
      exact hsweep.trans (ih (h.of_same hsweep))
    · exact ⟨rfl, rfl, rfl, rfl⟩

theorem initial_swept (env : Entropy) (s : Swarm) :
    Swept s { s.initialPlan env with progressed := false } 0 [] s.plannedBlocks where
  counted _ := rfl
  replayed := rfl
  settled _ c _ hcount := by
    rcases hcount with hlt | ⟨hin, -⟩
    · omega
    · contradiction
  fair g hg := by contradiction
  sorted := .nil
  bounded g hg := by contradiction

theorem finalPlan_swept (env : Entropy) {s : Swarm} (hbudget : s.budget ≠ 0) :
    Swept s (s.finalPlan env) (s.peerRegistry.unchoked.length + 1) [] s.plannedBlocks := by
  obtain ⟨n, hn⟩ := Nat.exists_eq_succ_of_ne_zero hbudget
  have hsweep : Swept s (planSweep s.peerRegistry s.plannedBlocks s.peerRegistry.unchoked.length
      (s.initialPlan env)) (s.peerRegistry.unchoked.length + 1) [] s.plannedBlocks :=
    (initial_swept env s).depths _
  have hstuck : Stuck s s.peerRegistry.unchoked.length (planSweep s.peerRegistry s.plannedBlocks
      s.peerRegistry.unchoked.length (s.initialPlan env)) := by
    rcases Nat.eq_zero_or_pos (planSweep s.peerRegistry s.plannedBlocks
      s.peerRegistry.unchoked.length (s.initialPlan env)).budget with hspent | hpos
    · exact .inl hspent
    · refine .inr fun c hc hcount => hsweep.settled hpos c hc (.inl ?_)
      rw [← hsweep.counted]
      exact Nat.lt_succ_of_le hcount
  have hsame := stuck_planLoop n hstuck
  rw [← finalPlan_eq env hn] at hsame
  refine ⟨?_, ?_, ?_, ?_, ?_, ?_⟩
  · rw [hsame.holders, hsame.assignments]
    exact hsweep.counted
  · rw [hsame.assignments, hsame.outputs]
    exact hsweep.replayed
  · rw [hsame.budget, hsame.assignments]
    exact hsweep.settled
  · rw [hsame.outputs]
    exact hsweep.fair
  · rw [hsame.outputs]
    exact hsweep.sorted
  · rw [hsame.outputs]
    exact hsweep.bounded

theorem plan_fair_and_ordered (env : Entropy) (s : Swarm) :
    (s.plan env).1.blockAssignments =
        replay s.blockAssignments (requestsOf (s.plan env).2) ∧
      (∀ g ∈ moments s.blockAssignments (requestsOf (s.plan env).2), s.FairAt g.1 g.2) ∧
      (moments s.blockAssignments (requestsOf (s.plan env).2)).Pairwise fun g h =>
        s.requestKey (g.1.holdersOf g.2) g.2 ≤ s.requestKey (h.1.holdersOf h.2) h.2 := by
  have hnothing : s.blockAssignments = replay s.blockAssignments (requestsOf []) ∧
      (∀ g ∈ moments s.blockAssignments (requestsOf []), s.FairAt g.1 g.2) ∧
      (moments s.blockAssignments (requestsOf [])).Pairwise fun g h =>
        s.requestKey (g.1.holdersOf g.2) g.2 ≤ s.requestKey (h.1.holdersOf h.2) h.2 :=
    ⟨rfl, fun g hg => by contradiction, .nil⟩
  unfold plan
  split_ifs with hdown hbudget
  · exact hnothing
  · exact hnothing
  · have hswept := finalPlan_swept env hbudget
    exact ⟨hswept.replayed, hswept.fair, hswept.sorted⟩

end Swarm

end Tortue
