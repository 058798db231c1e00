import Tortue.Adapters.PeerIo
import Tortue.Domain.RoundTrip
import Tortue.Domain.Swarm.Frame

namespace Tortue

open Collections

theorem readExact_append {n : Nat} {bytes : Bytes} (h : bytes.length = n) (rest : Bytes) :
    readExact n (bytes ++ rest) = .ok (bytes, rest) := by
  rw [readExact, if_neg (by rw [List.length_append]; omega), List.take_left' h,
    List.drop_left' h]

namespace Message

-- A message as one side sends it: the order in which a handshake's names are written is open.
abbrev Sending := IterOrder × Message

structure Sendable (x : Sending) : Prop where
  fits : x.2.Fits
  size : (x.2.encode x.1).length ≤ maxMessageSize

theorem readFrom_frame {x : Sending} (h : Sendable x) (rest : Bytes) :
    ∃ m, readFrom (x.2.frame x.1 ++ rest) = .ok (m, rest) ∧ Same x.2 m := by
  have hsize : (x.2.encode x.1).length ≤ 2 ^ 20 := h.size
  obtain ⟨m, hdecode, hsame⟩ := decode_encode (o := x.1) h.fits (by omega)
  have hlen : readU32 (u32Bytes (x.2.encode x.1).length) 0 = (x.2.encode x.1).length :=
    readU32_u32Bytes (by omega) [] []
  refine ⟨m, ?_, hsame⟩
  simp only [readFrom, frame, List.append_assoc, Except.bind_eq_ok]
  refine ⟨_, readExact_append (length_u32Bytes _) _, ?_⟩
  rw [hlen, if_neg (Nat.not_lt.mpr h.size)]
  simp only [Except.bind_eq_ok]
  refine ⟨_, readExact_append rfl rest, ?_⟩
  simp only [hdecode]
  rfl

def readMany : Nat → Bytes → Except PeerIoError (List Message × Bytes)
  | 0, reader => .ok ([], reader)
  | n + 1, reader => do
    let (message, reader) ← readFrom reader
    let (messages, reader) ← readMany n reader
    return (message :: messages, reader)

def stream (sent : List Sending) : Bytes := sent.flatMap fun x => x.2.frame x.1

end Message

end Tortue
