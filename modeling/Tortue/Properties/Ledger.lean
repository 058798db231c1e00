import Tortue.Domain.Swarm.Ledger

namespace Tortue

open Collections

namespace Swarm

open PeerRegistry BlockAssignments

variable {sha1 : Sha1} {s : Swarm}

theorem request_ledger_exact {clientId : PeerId} {metainfo : Metainfo} {h : Trace}
    (hist : History (step sha1) (Started clientId metainfo) h s) :
    (∀ x b, s.blockAssignments.isHolder b x = true ↔ Outstanding h x b) ∧
    (∀ x b, s.blockAssignments.isHolder b x = true → s.peerRegistry.containsAddr x = true) ∧
    (∀ x, s.blockAssignments.inFlight x ≤ 32) ∧
    (∀ newer e older, h = newer ++ e :: older → (requestsOf e.outputs).Nodup ∧
      ∀ x b, (x, b) ∈ requestsOf e.outputs →
        ¬ (Outstanding older x b ∧ ¬ Released e.before x b e.input.1)) ∧
    (∀ newer e older, h = newer ++ e :: older → ∀ x b data,
      e.input.1 = .messageReceived x (.piece b data) →
        (step sha1 e.before e.input).1.pieces ≠ e.before.pieces → Outstanding older x b) := by
  refine ⟨held_iff_outstanding hist,
    fun x b => (reachable_accounted ⟨_, hist⟩).registered_holder, held_room hist, ?_, ?_⟩
  · intro newer e older hh
    obtain ⟨hbefore, hout⟩ := hist.event_before hh
    have hbal := step_balanced sha1 (reachable_accounted ⟨_, hbefore⟩) e.input
    rw [hout]
    refine ⟨hbal.nodup, fun x b hb => ?_⟩
    rw [← held_iff_outstanding hbefore]
    exact hbal.fresh b x hb
  · intro newer e older hh x b data hinput hchanged
    obtain ⟨hbefore, -⟩ := hist.event_before hh
    have he : e.input = (.messageReceived x (.piece b data), e.input.2) := by rw [← hinput]
    rw [he] at hchanged
    rw [← held_iff_outstanding hbefore]
    exact piece_changes_only_if_held hchanged

theorem request_outstanding_after_unchoke :
    Outstanding (History.events (step Sample.sha1) Sample.swarm Sample.requesting)
      (Sample.addr 80) ⟨0, 0, 2⟩ := by
  refine ((request_ledger_exact (Sample.history Sample.requesting)).1 _ _).mp ?_
  decide +kernel

end Swarm

end Tortue
