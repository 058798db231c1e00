import Tortue.Domain.Swarm.Passes

namespace Collections

variable {π : Type} [DecidableEq π]

theorem length_le_capacity {cap : π → Nat} {l peers : List π} (hmem : ∀ p ∈ l, p ∈ peers)
    (hcount : ∀ p, l.count p ≤ cap p) : l.length ≤ (peers.map cap).sum := by
  induction peers generalizing l with
  | nil =>
    rw [List.eq_nil_iff_forall_not_mem.mpr fun p hp => List.not_mem_nil (hmem p hp)]
    rfl
  | cons q peers ih =>
    have hrest : (l.filter fun p => p ≠ q).length ≤ (peers.map cap).sum := by
      refine ih (fun p hp => ?_) fun p => (List.filter_sublist.count_le p).trans (hcount p)
      obtain ⟨hin, hne⟩ := List.mem_filter.mp hp
      exact (List.mem_cons.mp (hmem p hin)).resolve_left (of_decide_eq_true hne)
    have hsplit := List.length_eq_countP_add_countP (fun p => decide (p ≠ q)) (l := l)
    have hq : l.countP (fun p => ¬ decide (p ≠ q) = true) = l.count q := by
      refine List.countP_congr fun p _ => ?_
      simp
    have hcap := hcount q
    rw [List.map_cons, List.sum_cons, hsplit, List.countP_eq_length_filter, hq]
    omega

end Collections

namespace Tortue

open Collections

namespace Swarm

variable {s : Swarm}

theorem mem_unchoked {r : PeerRegistry} {x : SocketAddr} :
    x ∈ r.unchoked ↔ ∃ p, r.peers.get x = some p ∧ p.peerChoking = false := by
  unfold PeerRegistry.unchoked
  simp only [List.mem_map, List.mem_filter, Prod.exists, exists_and_right, exists_eq_right,
    HashMap.mem_entries_iff, Bool.not_eq_true']

theorem plan_saturates (env : Entropy) (hd : s.status.download = true)
    (hserve : ∀ x i, s.peerRegistry.canServe x i = true → x ∈ s.peerRegistry.unchoked) :
    ¬ IdleIn s (s.plan env).1.blockAssignments := by
  obtain ⟨ps, hgreedy, hidle⟩ := plan_leftover env hd
  intro hin
  obtain ⟨f, hallots, hlt⟩ :=
    allotment_of_leftover hgreedy (plannedBlocks_nodup s) (hidle.mp hin)
  have hle : (s.plannedBlocks.filterMap f).length ≤ s.budget := by
    refine length_le_capacity (fun x hx => ?_) hallots.within
    obtain ⟨b, hb, hf⟩ := List.mem_filterMap.mp hx
    obtain ⟨-, hcan, -⟩ := hallots.allowed b hb x hf
    exact hserve x _ hcan
  omega

end Swarm

end Tortue
