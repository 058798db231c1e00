import Tortue.Collections.Allotment
import Tortue.Domain.Swarm.Planning

namespace Tortue

open Collections

namespace Swarm

open BlockAssignments

variable {s : Swarm} {env : Entropy}

def Open (s : Swarm) (b : BlockRange) (x : SocketAddr) : Prop :=
  s.peerRegistry.availability.has b.pieceIndex x = true ∧
    s.peerRegistry.canServe x b.pieceIndex = true ∧
      ∀ y, s.blockAssignments.isHolder b y = false

structure Idle (s : Swarm) (b : BlockRange) (x : SocketAddr) : Prop where
  needed : ∃ i ∈ s.pieces.neededPieces, b ∈ s.pieces.unreceivedBlocks i
  holderless : ∀ y, s.blockAssignments.isHolder b y = false
  known : x ∈ s.peerRegistry.peersWith b.pieceIndex
  serves : s.peerRegistry.canServe x b.pieceIndex = true
  room : 0 < s.blockAssignments.freeSlotsFor x

theorem mem_plannedBlocks {b : BlockRange} : b ∈ s.plannedBlocks ↔
    ∃ i ∈ s.pieces.neededPieces, b ∈ s.pieces.unreceivedBlocks i := by
  unfold plannedBlocks
  simp [List.mem_flatMap, List.mem_insertionSort]

theorem mem_unreceivedBlocks_index {pm : PieceManager} {i : Nat} {b : BlockRange}
    (hb : b ∈ pm.unreceivedBlocks i) : b.pieceIndex = i := by
  unfold PieceManager.unreceivedBlocks at hb
  split at hb
  · contradiction
  · obtain ⟨k, -, rfl⟩ := List.mem_map.mp hb
    rfl

theorem unreceivedBlocks_nodup (pm : PieceManager) (i : Nat) : (pm.unreceivedBlocks i).Nodup := by
  unfold PieceManager.unreceivedBlocks
  split
  · exact List.nodup_nil
  · next p _ =>
    have hnodup : p.unreceivedBlocks.Nodup := by
      unfold Piece.unreceivedBlocks
      split
      · exact List.nodup_range.filter _
      · exact List.nodup_nil
    refine hnodup.map fun j k hjk => ?_
    simp only [BlockRange.mk.injEq] at hjk
    exact Nat.eq_of_mul_eq_mul_right (by decide : 0 < blockSize) hjk.2.1

theorem plannedBlocks_nodup (s : Swarm) : s.plannedBlocks.Nodup := by
  unfold plannedBlocks
  refine List.nodup_flatMap.mpr ⟨fun i _ => unreceivedBlocks_nodup s.pieces i, ?_⟩
  have hnodup :
      (s.pieces.neededPieces.insertionSort fun a b => s.pieceKey a ≤ s.pieceKey b).Nodup :=
    (List.perm_insertionSort _ _).nodup_iff.mpr (List.nodup_range.filter _)
  refine hnodup.imp fun {i j} hij b hbi hbj => ?_
  exact hij ((mem_unreceivedBlocks_index hbi).symm.trans (mem_unreceivedBlocks_index hbj))

structure Pass (p q : Plan) (ps : List (BlockRange × SocketAddr)) : Prop where
  budget : q.budget + ps.length = p.budget
  room : ∀ x, q.assignments.freeSlotsFor x + (ps.map Prod.snd).count x =
    p.assignments.freeSlotsFor x
  held : ∀ b y, q.assignments.isHolder b y = true ↔
    p.assignments.isHolder b y = true ∨ (b, y) ∈ ps

theorem pass_none (p : Plan) : Pass p p [] := by
  refine ⟨rfl, fun x => rfl, fun b y => ?_⟩
  simp

def Tracks (s : Swarm) (p : Plan) (l : List BlockRange) : Prop :=
  ∀ b ∈ l, (p.holders.getD b 0 = 0 ↔ ∀ y, s.blockAssignments.isHolder b y = false) ∧
    ∀ y, p.assignments.isHolder b y = s.blockAssignments.isHolder b y

theorem tracks_tail {p : Plan} {b : BlockRange} {l : List BlockRange} (h : Tracks s p (b :: l)) :
    Tracks s p l := fun c hc => h c (List.mem_cons_of_mem _ hc)

theorem tracks_grant {p : Plan} {b : BlockRange} {l : List BlockRange} (h : Tracks s p (b :: l))
    (hb : b ∉ l) (x : SocketAddr) : Tracks s (p.grant s.peerRegistry b x) l := by
  intro c hc
  obtain ⟨hcount, hheld⟩ := h c (List.mem_cons_of_mem _ hc)
  have hcb : c ≠ b := by
    rintro rfl
    exact hb hc
  refine ⟨?_, fun y => ?_⟩
  · simp only [Plan.grant, HashMap.getD, HashMap.get_insert, if_neg hcb]
    exact hcount
  · rw [← hheld y, Bool.eq_iff_iff]
    simp [Plan.grant, isHolder_assign, hcb]

theorem room_grant {p : Plan} {b : BlockRange} {x : SocketAddr}
    (hx : x ∈ candidates s.peerRegistry p.assignments b) :
    (p.grant s.peerRegistry b x).assignments.freeSlotsFor =
      spend p.assignments.freeSlotsFor x := by
  obtain ⟨-, -, -, hnew⟩ := mem_candidates.mp hx
  funext y
  have hassign := inFlight_assign_new p.assignments hnew y
  change maxInFlightPerPeer - (p.assignments.assign b x).inFlight y =
    if y = x then maxInFlightPerPeer - p.assignments.inFlight y - 1
    else maxInFlightPerPeer - p.assignments.inFlight y
  split at hassign
  · rw [if_pos ‹_›]
    omega
  · rw [if_neg ‹_›]
    omega

theorem pass_grant {p q : Plan} {b : BlockRange} {x : SocketAddr}
    {ps : List (BlockRange × SocketAddr)} (hx : x ∈ candidates s.peerRegistry p.assignments b)
    (hpos : 0 < p.budget) (h : Pass (p.grant s.peerRegistry b x) q ps) :
    Pass p q ((b, x) :: ps) := by
  obtain ⟨-, -, hfree, -⟩ := mem_candidates.mp hx
  refine ⟨?_, fun y => ?_, fun c y => ?_⟩
  · have hbudget := h.budget
    simp only [Plan.grant] at hbudget
    rw [List.length_cons]
    omega
  · have hroom := h.room y
    rw [room_grant hx] at hroom
    rw [List.map_cons, List.count_cons]
    unfold spend at hroom
    by_cases hyx : y = x
    · subst hyx
      rw [if_pos rfl] at hroom
      simp only [beq_self_eq_true, if_true]
      omega
    · rw [if_neg hyx] at hroom
      simpa [Ne.symm hyx] using hroom
  · rw [h.held]
    simp only [Plan.grant, isHolder_assign, List.mem_cons, Prod.mk.injEq]
    tauto

theorem open_candidate {p : Plan} {b : BlockRange} {l : List BlockRange}
    (ht : Tracks s p (b :: l)) {x : SocketAddr} (hx : x ∈ candidates s.peerRegistry p.assignments b)
    (hholders : p.holders.getD b 0 = 0) : Open s b x ∧ 0 < p.assignments.freeSlotsFor x := by
  obtain ⟨hhas, hserve, hfree, -⟩ := mem_candidates.mp hx
  exact ⟨⟨hhas, hserve, (ht b (List.mem_cons_self ..)).1.mp hholders⟩, hfree⟩

theorem candidate_of_open {p : Plan} {b : BlockRange} {l : List BlockRange}
    (ht : Tracks s p (b :: l)) {x : SocketAddr} (hx : Open s b x)
    (hfree : 0 < p.assignments.freeSlotsFor x) :
    x ∈ candidates s.peerRegistry p.assignments b ∧ p.holders.getD b 0 = 0 := by
  obtain ⟨hcount, hheld⟩ := ht b (List.mem_cons_self ..)
  refine ⟨mem_candidates.mpr ⟨hx.1, hx.2.1, hfree, ?_⟩, hcount.mpr hx.2.2⟩
  rw [hheld]
  exact hx.2.2 x

theorem pass_greedy {l : List BlockRange} {p : Plan} (hnodup : l.Nodup) (ht : Tracks s p l) :
    ∃ ps, Greedy (Open s) p.assignments.freeSlotsFor p.budget l ps ∧
      Pass p (planDepth s.peerRegistry l p 0) ps := by
  induction l generalizing p with
  | nil => exact ⟨[], .nil, pass_none p⟩
  | cons b l ih =>
    obtain ⟨hb, hnodup⟩ := List.nodup_cons.mp hnodup
    simp only [planDepth, List.foldl_cons]
    rcases planBlock_cases 0 p b with ⟨hskip, hs⟩ | ⟨-, -, hnone, hs⟩ | ⟨x, hx, hpos, hzero, hs⟩ <;>
      rw [hs]
    · obtain ⟨ps, hrun, hpass⟩ := ih hnodup (tracks_tail ht)
      refine ⟨ps, ?_, hpass⟩
      rcases hskip with hbudget | hholders
      · rw [hbudget] at hrun ⊢
        rw [hrun.of_spent]
        exact .spent
      · refine .skip (fun x hx => ?_) hrun
        exact absurd ((ht b (List.mem_cons_self ..)).1.mpr hx.2.2) hholders
    · obtain ⟨ps, hrun, hpass⟩ := ih (p := { p with rng := p.rng.tail }) hnodup (tracks_tail ht)
      refine ⟨ps, .skip (fun x hx => ?_) hrun, hpass.budget, hpass.room, hpass.held⟩
      by_contra hfree
      have hcand := (candidate_of_open ht hx (Nat.pos_of_ne_zero hfree)).1
      rw [hnone] at hcand
      contradiction
    · obtain ⟨ps, hrun, hpass⟩ := ih hnodup (tracks_grant ht hb x)
      obtain ⟨hopen, hfree⟩ := open_candidate ht hx hzero
      rw [room_grant hx] at hrun
      refine ⟨(b, x) :: ps, ?_, pass_grant hx hpos hpass⟩
      obtain ⟨n, hn⟩ : ∃ n, p.budget = n + 1 := Nat.exists_eq_succ_of_ne_zero hpos.ne'
      simp only [Plan.grant, hn, Nat.add_sub_cancel] at hrun
      rw [hn]
      exact .pick hopen hfree hrun

theorem planDepth_spent {r : PeerRegistry} {k : Nat} {p : Plan} (h : p.budget = 0)
    (l : List BlockRange) : planDepth r l p k = p := by
  induction l with
  | nil => rfl
  | cons b l ih =>
    have hblock : planBlock r k p b = p := by
      unfold planBlock
      rw [if_pos h]
    simp only [planDepth, List.foldl_cons, hblock]
    exact ih

theorem initial_tracks (env : Entropy) (s : Swarm) :
    Tracks s { s.initialPlan env with progressed := false } s.plannedBlocks :=
  fun b _ => ⟨holderCounts_eq_zero_iff s.blockAssignments b, fun _ => rfl⟩

def IdleIn (s : Swarm) (a : BlockAssignments) : Prop :=
  ∃ b ∈ s.plannedBlocks, (∀ y, a.isHolder b y = false) ∧ ∃ x,
    s.peerRegistry.availability.has b.pieceIndex x = true ∧
      s.peerRegistry.canServe x b.pieceIndex = true ∧ 0 < a.freeSlotsFor x

theorem idle_plan_iff (env : Entropy) (s : Swarm) :
    (∃ b x, Idle (s.plan env).1 b x) ↔ IdleIn s (s.plan env).1.blockAssignments := by
  constructor
  · rintro ⟨b, x, h⟩
    have hneeded := h.needed
    have hknown := h.known
    have hserves := h.serves
    simp only [plan_pieces, plan_peerRegistry] at hneeded hknown hserves
    refine ⟨b, mem_plannedBlocks.mpr hneeded, h.holderless, x, ?_, hserves, h.room⟩
    exact (PieceAvailability.mem_peersFor _ _ _).mp hknown
  · rintro ⟨b, hb, hfree, x, hhas, hserve, hroom⟩
    refine ⟨b, x, ?_, hfree, ?_, ?_, hroom⟩
    · simp only [plan_pieces]
      exact mem_plannedBlocks.mp hb
    · simp only [plan_peerRegistry]
      exact (PieceAvailability.mem_peersFor _ _ _).mpr hhas
    · simp only [plan_peerRegistry]
      exact hserve

theorem idleIn_pass_iff {p q : Plan} {ps : List (BlockRange × SocketAddr)} (h : Pass p q ps)
    (hp : p.assignments = s.blockAssignments) : IdleIn s q.assignments ↔
      Leftover (Open s) s.blockAssignments.freeSlotsFor s.plannedBlocks ps := by
  have hheld : ∀ b, (∀ y, q.assignments.isHolder b y = false) ↔
      (∀ y, s.blockAssignments.isHolder b y = false) ∧ b ∉ ps.map Prod.fst := by
    intro b
    simp only [Bool.eq_false_iff, ne_eq, h.held, hp, not_or, forall_and, List.mem_map,
      Prod.exists, exists_and_right, exists_eq_right, not_exists]
  have hroom : ∀ x, 0 < q.assignments.freeSlotsFor x ↔
      (ps.map Prod.snd).count x < s.blockAssignments.freeSlotsFor x := by
    intro x
    have hsum := h.room x
    rw [hp] at hsum
    omega
  constructor
  · rintro ⟨b, hb, hfree, x, hhas, hserve, hx⟩
    obtain ⟨hold, hnew⟩ := (hheld b).mp hfree
    exact ⟨b, hb, hnew, x, ⟨hhas, hserve, hold⟩, (hroom x).mp hx⟩
  · rintro ⟨b, hb, hnew, x, ⟨hhas, hserve, hold⟩, hx⟩
    exact ⟨b, hb, (hheld b).mpr ⟨hold, hnew⟩, x, hhas, hserve, (hroom x).mpr hx⟩

theorem not_idleIn_stable (s : Swarm) :
    Stable s.peerRegistry s.plannedBlocks fun p => ¬ IdleIn s p.assignments where
  progress _ _ h := h
  draw _ h := h
  grant p b x _ hx _ h := by
    rintro ⟨c, hc, hfree, y, hhas, hserve, hroom⟩
    refine h ⟨c, hc, fun z => ?_, y, hhas, hserve, ?_⟩
    · refine Bool.eq_false_iff.mpr fun hz => ?_
      have hkept : (p.grant s.peerRegistry b x).assignments.isHolder c z = true :=
        (isHolder_assign ..).mpr (.inr hz)
      rw [hfree z] at hkept
      contradiction
    · rw [room_grant hx] at hroom
      unfold spend at hroom
      split at hroom
      · omega
      · exact hroom

theorem foldl_spent {r : PeerRegistry} {blocks : List BlockRange} {p : Plan} (h : p.budget = 0)
    (depths : List Nat) : depths.foldl (planDepth r blocks) p = p := by
  induction depths with
  | nil => rfl
  | cons k depths ih =>
    rw [List.foldl_cons, planDepth_spent h]
    exact ih

theorem planLoop_spent {r : PeerRegistry} {blocks : List BlockRange} {n : Nat} {p : Plan}
    (h : p.budget = 0) (fuel : Nat) : planLoop r blocks n fuel p = p := by
  cases fuel with
  | zero => rfl
  | succ fuel =>
    unfold planLoop
    rw [if_neg (by omega)]

theorem finalPlan_idle_iff (env : Entropy) {s : Swarm} (hbudget : 0 < s.budget)
    {ps : List (BlockRange × SocketAddr)}
    (hpass : Pass { s.initialPlan env with progressed := false }
      (planDepth s.peerRegistry s.plannedBlocks { s.initialPlan env with progressed := false } 0)
      ps)
    (hrun : Greedy (Open s) s.blockAssignments.freeSlotsFor s.budget s.plannedBlocks ps) :
    IdleIn s (s.finalPlan env).assignments ↔
      Leftover (Open s) s.blockAssignments.freeSlotsFor s.plannedBlocks ps := by
  have hfirst := idleIn_pass_iff (s := s) hpass rfl
  rcases Nat.eq_zero_or_pos (planDepth s.peerRegistry s.plannedBlocks
    { s.initialPlan env with progressed := false } 0).budget with hspent | hleft
  · obtain ⟨n, hn⟩ := Nat.exists_eq_succ_of_ne_zero hbudget.ne'
    rw [finalPlan_eq env hn, planSweep_first, foldl_spent hspent, planLoop_spent hspent]
    exact hfirst
  · have hlt : ps.length < s.budget := by
      have hsum := hpass.budget
      change _ + ps.length = s.budget at hsum
      omega
    have hnone := hrun.maximal hlt
    refine iff_of_false ((not_idleIn_stable s).finalPlan env hbudget.ne' ?_) hnone
    rw [hfirst]
    exact hnone

theorem plan_assignments (env : Entropy) {s : Swarm} (hd : s.status.download = true) :
    (s.plan env).1.blockAssignments =
      if s.budget = 0 then s.blockAssignments else (s.finalPlan env).assignments := by
  unfold plan
  rw [if_neg (by simp [hd])]
  split <;> rfl

theorem plan_leftover (env : Entropy) {s : Swarm} (hd : s.status.download = true) :
    ∃ ps, Greedy (Open s) s.blockAssignments.freeSlotsFor s.budget s.plannedBlocks ps ∧
      (IdleIn s (s.plan env).1.blockAssignments ↔
        Leftover (Open s) s.blockAssignments.freeSlotsFor s.plannedBlocks ps) := by
  rw [plan_assignments env hd]
  split
  · next hzero =>
    refine ⟨[], hzero ▸ .spent, ?_⟩
    exact idleIn_pass_iff (pass_none (s.initialPlan env)) rfl
  · next hpos =>
    obtain ⟨ps, hrun, hpass⟩ := pass_greedy (plannedBlocks_nodup s) (initial_tracks env s)
    exact ⟨ps, hrun, finalPlan_idle_iff env (Nat.pos_of_ne_zero hpos) hpass hrun⟩

end Swarm

end Tortue
