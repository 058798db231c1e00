import Tortue.Domain.Swarm.Passes

namespace Tortue

open Collections

namespace Swarm

open BlockAssignments

variable {s : Swarm} {env : Entropy}

theorem planBlock_granted {r : PeerRegistry} {p : Plan} {b : BlockRange} {x : SocketAddr}
    (hpos : 0 < p.budget) (hzero : p.holders.getD b 0 = 0)
    (hx : pickPeer r p.assignments b p.rng.head = some x) : planBlock r 0 p b = p.grant r b x := by
  unfold planBlock
  rw [if_neg hpos.ne', if_neg (not_not.mpr hzero), hx]

theorem skip_pass {l : List BlockRange} {p : Plan} {ps : List (BlockRange × SocketAddr)}
    {b : BlockRange} (ht : Tracks s p (b :: l)) (hpos : 0 < p.budget)
    (hnone : ∀ x, Open s b x → p.assignments.freeSlotsFor x = 0) {rng : Stream' Nat}
    (hpass : Pass p (planDepth s.peerRegistry l { p with rng } 0) ps) :
    ∃ rng, Pass p (planDepth s.peerRegistry (b :: l) { p with rng } 0) ps := by
  have hempty : p.holders.getD b 0 = 0 → candidates s.peerRegistry p.assignments b = [] := by
    intro hzero
    refine List.eq_nil_iff_forall_not_mem.mpr fun x hx => ?_
    obtain ⟨hopen, hfree⟩ := open_candidate ht hx hzero
    have hfull := hnone x hopen
    omega
  by_cases hzero : p.holders.getD b 0 = 0
  · refine ⟨Stream'.cons 0 rng, ?_⟩
    simp only [planDepth, List.foldl_cons]
    rcases planBlock_cases (r := s.peerRegistry) 0 { p with rng := Stream'.cons 0 rng } b with
      ⟨hskip, -⟩ | ⟨-, -, -, hs⟩ | ⟨x, hx, -⟩
    · rcases hskip with h | h
      · exact absurd h hpos.ne'
      · exact absurd hzero h
    · rw [hs]
      exact hpass
    · rw [hempty hzero] at hx
      contradiction
  · refine ⟨rng, ?_⟩
    have hsame : planBlock s.peerRegistry 0 { p with rng } b = { p with rng } := by
      unfold planBlock
      rw [if_neg hpos.ne', if_pos hzero]
    simp only [planDepth, List.foldl_cons, hsame]
    exact hpass

theorem greedy_pass {l : List BlockRange} {p : Plan} {ps : List (BlockRange × SocketAddr)}
    (hnodup : l.Nodup) (ht : Tracks s p l)
    (hrun : Greedy (Open s) p.assignments.freeSlotsFor p.budget l ps) :
    ∃ rng, Pass p (planDepth s.peerRegistry l { p with rng } 0) ps := by
  induction l generalizing p ps with
  | nil =>
    have hnil : ps = [] := by
      cases ps with
      | nil => rfl
      | cons c ps => exact absurd (hrun.subset c.1 (by simp)) (by simp)
    rw [hnil]
    exact ⟨p.rng, pass_none p⟩
  | cons b l ih =>
    obtain ⟨hb, hnodup⟩ := List.nodup_cons.mp hnodup
    rcases Nat.eq_zero_or_pos p.budget with hbudget | hpos
    · rw [hbudget] at hrun
      rw [hrun.of_spent]
      refine ⟨p.rng, ?_⟩
      rw [planDepth_spent hbudget]
      exact pass_none p
    · obtain ⟨n, hn⟩ : ∃ n, p.budget = n + 1 := Nat.exists_eq_succ_of_ne_zero hpos.ne'
      rw [hn] at hrun
      cases hrun with
      | skip hnone hrest =>
        rw [← hn] at hrest
        obtain ⟨rng, hpass⟩ := ih hnodup (tracks_tail ht) hrest
        exact skip_pass ht hpos hnone hpass
      | @pick _ _ _ x _ ps hopen hfree hrest =>
        obtain ⟨hx, hzero⟩ := candidate_of_open ht hopen hfree
        have hgrant : (p.grant s.peerRegistry b x).budget = n := by
          simp [Plan.grant, hn]
        rw [← room_grant hx, ← hgrant] at hrest
        obtain ⟨rng, hpass⟩ := ih hnodup (tracks_grant ht hb x) hrest
        obtain ⟨draw, hdraw⟩ := pickPeer_of_mem hx
        refine ⟨Stream'.cons draw rng, pass_grant hx hpos ?_⟩
        have hblock : planBlock s.peerRegistry 0 { p with rng := Stream'.cons draw rng } b =
            Plan.grant s.peerRegistry { p with rng := Stream'.cons draw rng } b x :=
          planBlock_granted hpos hzero hdraw
        simp only [planDepth, List.foldl_cons, hblock]
        exact hpass

theorem leftover_plan {s : Swarm} (hd : s.status.download = true)
    {ps : List (BlockRange × SocketAddr)}
    (hrun : Greedy (Open s) s.blockAssignments.freeSlotsFor s.budget s.plannedBlocks ps)
    (hleft : Leftover (Open s) s.blockAssignments.freeSlotsFor s.plannedBlocks ps) :
    ∃ env, IdleIn s (s.plan env).1.blockAssignments := by
  simp only [plan_assignments _ hd]
  split
  · next hzero =>
    rw [hzero] at hrun
    rw [hrun.of_spent] at hleft
    let env : Entropy := ⟨fun _ => 0, .insertion⟩
    exact ⟨env, (idleIn_pass_iff (pass_none (s.initialPlan env)) rfl).mpr hleft⟩
  · next hpos =>
    obtain ⟨rng, hpass⟩ := greedy_pass (plannedBlocks_nodup s)
      (initial_tracks ⟨fun _ => 0, .insertion⟩ s) hrun
    refine ⟨⟨rng, .insertion⟩, ?_⟩
    refine (finalPlan_idle_iff ⟨rng, .insertion⟩ (Nat.pos_of_ne_zero hpos) ?_ hrun).mpr hleft
    exact ⟨hpass.budget, hpass.room, hpass.held⟩

def Overcommitted (s : Swarm) : Prop :=
  ∃ f, Allots (Open s) s.blockAssignments.freeSlotsFor s.plannedBlocks f ∧
    s.budget < (s.plannedBlocks.filterMap f).length

theorem work_conserving_iff {s : Swarm} (hd : s.status.download = true) :
    (∀ env b x, ¬ Idle (s.plan env).1 b x) ↔ ¬ Overcommitted s := by
  unfold Overcommitted
  rw [← greedy_leftover_iff (plannedBlocks_nodup s)]
  constructor
  · rintro hall ⟨ps, hrun, hleft⟩
    obtain ⟨env, hidle⟩ := leftover_plan hd hrun hleft
    obtain ⟨b, x, h⟩ := (idle_plan_iff env s).mpr hidle
    exact hall env b x h
  · intro hnot env b x h
    obtain ⟨ps, hrun, hiff⟩ := plan_leftover env hd
    exact hnot ⟨ps, hrun, hiff.mp ((idle_plan_iff env s).mp ⟨b, x, h⟩)⟩

end Swarm

namespace Sample

def bothRejecting : List (Input × Entropy) :=
  pairRequesting ++ [message 80 (.rejectRequest ⟨0, 16384, 16384⟩),
    message 81 (.rejectRequest ⟨1, 0, 7232⟩)]

def bothRejected : Swarm := (History.run (Swarm.step sha1) pair bothRejecting).1

end Sample

namespace Swarm

open BlockAssignments

theorem rejected_blocks_not_idle :
    Open Sample.bothRejected ⟨0, 16384, 16384⟩ (Sample.addr 80) ∧
      Open Sample.bothRejected ⟨1, 0, 7232⟩ (Sample.addr 81) ∧
      ∀ env b x, ¬ Idle (Sample.bothRejected.plan env).1 b x := by
  have hd : Sample.bothRejected.status.download = true := by decide +kernel
  refine ⟨⟨by decide +kernel, by decide +kernel, ?_⟩, ⟨by decide +kernel, by decide +kernel, ?_⟩,
    (work_conserving_iff hd).mpr ?_⟩
  · exact (holderCounts_eq_zero_iff _ _).mp (by decide +kernel)
  · exact (holderCounts_eq_zero_iff _ _).mp (by decide +kernel)
  · rintro ⟨f, -, hsize⟩
    have hfew := List.length_filterMap_le f Sample.bothRejected.plannedBlocks
    have hbudget : Sample.bothRejected.plannedBlocks.length ≤ Sample.bothRejected.budget := by
      decide +kernel
    omega

theorem allowed_fast_block_idle :
    ¬ ∀ sha1 clientId metainfo s, Reachable sha1 clientId metainfo s →
      s.status.download = true → ∀ env b x, ¬ Idle (s.plan env).1 b x := by
  intro hall
  have hr := ((Sample.swarm_reachable.next (Sample.connect 2 .outbound 80)).next
    (Sample.message 80 (.havePiece 0))).next (Sample.message 80 (.allowedFast 0))
  refine hall _ _ _ _ hr rfl Sample.env ⟨0, 0, 2⟩ (Sample.addr 80) ⟨⟨0, ?_, ?_⟩, ?_, ?_, ?_, ?_⟩
  · decide +kernel
  · decide +kernel
  · refine (holderCounts_eq_zero_iff _ _).mp ?_
    decide +kernel
  · decide +kernel
  · decide +kernel
  · decide +kernel

end Swarm

end Tortue
