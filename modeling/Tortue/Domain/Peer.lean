import Tortue.Domain.Primitive

namespace Tortue

inductive SocketAddr where
  | v4 (ip : Octets 4) (port : UInt16)
  | v6 (ip : Octets 16) (port : UInt16) (flowinfo scopeId : UInt32)
  deriving DecidableEq

structure PeerId where
  bytes : Octets 20
  deriving DecidableEq

-- `as_ref()` compares two identifiers as slices: lexicographically, byte by byte.
def PeerId.gt (a b : PeerId) : Bool := decide (b.bytes.val < a.bytes.val)

inductive ConnectionDirection where
  | inbound
  | outbound
  deriving DecidableEq, Repr

structure PeerExtensions where
  dht : Bool
  fast : Bool
  deriving DecidableEq, Repr

theorem PeerId.gt_asymm {a b : PeerId} (h : a ≠ b) : a.gt b = !b.gt a := by
  have hne : a.bytes.val ≠ b.bytes.val := by
    intro he
    refine h ?_
    cases a
    cases b
    simp_all [Subtype.ext_iff]
  unfold PeerId.gt
  by_cases hlt : a.bytes.val < b.bytes.val
  · have hnot : ¬ b.bytes.val < a.bytes.val := List.lt_asymm hlt
    simp [hlt, hnot]
  · have hgt : b.bytes.val < a.bytes.val := by
      by_contra hnot
      exact hne (List.le_antisymm (List.not_lt.mp hnot) (List.not_lt.mp hlt))
    simp [hlt, hgt]

end Tortue
