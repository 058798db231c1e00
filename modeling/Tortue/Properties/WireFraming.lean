import Tortue.Adapters.Framing

namespace Tortue

open Collections

namespace Message

theorem frames_read_back (sent : List Sending) (h : ∀ x ∈ sent, Sendable x) (rest : Bytes) :
    ∃ received, readMany sent.length (stream sent ++ rest) = .ok (received, rest) ∧
      List.Forall₂ Same (sent.map Prod.snd) received := by
  induction sent with
  | nil => exact ⟨[], rfl, .nil⟩
  | cons x sent ih =>
    obtain ⟨m, hread, hsame⟩ := readFrom_frame (h x (List.mem_cons_self ..)) (stream sent ++ rest)
    obtain ⟨received, hmany, hall⟩ := ih fun y hy => h y (List.mem_cons_of_mem _ hy)
    refine ⟨m :: received, ?_, .cons hsame hall⟩
    simp only [stream, List.flatMap_cons, List.append_assoc, List.length_cons, readMany,
      Except.bind_eq_ok]
    exact ⟨_, hread, _, hmany, rfl⟩

end Message

namespace Sample

def exchanged : List Message.Sending :=
  [(.insertion, .keepAlive), (.insertion, .request ⟨0, 0, 2⟩),
    (.insertion, .piece ⟨0, 0, 2⟩ [7, 9]), (.insertion, .extension 3 [1])]

end Sample

namespace Message

theorem sample_frames_read_back : ∃ received,
    readMany 4 (stream Sample.exchanged ++ [5, 0]) = .ok (received, [5, 0]) ∧
      List.Forall₂ Same (Sample.exchanged.map Prod.snd) received := by
  refine frames_read_back Sample.exchanged ?_ [5, 0]
  simp only [Sample.exchanged, List.forall_mem_cons, List.not_mem_nil, false_imp_iff,
    implies_true, and_true]
  exact ⟨⟨trivial, by decide⟩, ⟨⟨by decide, by decide, by decide⟩, by decide⟩,
    ⟨⟨by decide, by decide, rfl⟩, by decide⟩, ⟨show (3 : UInt8) ≠ 0 by decide, by decide⟩⟩

end Message

end Tortue
