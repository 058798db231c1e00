import Tortue.Domain.Swarm.Frame
import Tortue.Domain.UtPex

namespace Tortue

open Collections

namespace UtMetadataMessage

theorem ut_metadata_read_back {m : UtMetadataMessage} (h : m.Sized) (hknown : m ≠ .unimplemented) :
    decode m.encode = .ok m := by
  cases m with
  | request piece => exact decode_request h
  | data piece totalSize block => exact decode_data block h.1 h.2
  | reject piece => exact decode_reject h
  | unimplemented => exact absurd rfl hknown

theorem decode_nested_data :
    decode (data (2 ^ 64 - 1) (2 ^ 63) (ByteStr "d5:piecei0ee")).encode =
      .ok (data (2 ^ 64 - 1) (2 ^ 63) (ByteStr "d5:piecei0ee")) :=
  ut_metadata_read_back ⟨by decide, by decide⟩ (by simp)

end UtMetadataMessage

namespace UtPexMessage

def RoundTrips (o : IterOrder) (m : UtPexMessage) : Prop :=
  ∃ m', decode (m.encode o) = .ok m' ∧ ∀ a, m'.addrs.contains a = m.addrs.contains a

theorem v4_of_roundTrips {o : IterOrder} {m : UtPexMessage} (h : RoundTrips o m) :
    ∀ a, m.addrs.contains a = true → a.isV4 = true := by
  obtain ⟨m', hdecode, hsame⟩ := h
  intro a ha
  exact decoded_v4 hdecode a ((hsame a).trans ha)

theorem exchange_round_trips_iff (o : IterOrder) {m : UtPexMessage} (hne : m.addrs.keys ≠ []) :
    RoundTrips o m ↔ ∀ a, m.addrs.contains a = true → a.isV4 = true := by
  refine ⟨v4_of_roundTrips, fun hv4 => decode_encode_v4 o hne fun a ha => hv4 a ?_⟩
  exact HashMap.mem_keys_iff.mp ha

theorem one_v4_round_trips :
    RoundTrips .insertion ⟨HashSet.add .empty (Sample.addr 80)⟩ := by
  refine (exchange_round_trips_iff .insertion (by decide +kernel)).mpr fun a ha => ?_
  rw [HashSet.contains_add] at ha
  have ha : a = Sample.addr 80 := by simpa using ha
  rw [ha]
  rfl

end UtPexMessage

namespace Sample

def addr6 (n : UInt16) : SocketAddr := .v6 ⟨List.replicate 15 0 ++ [1], rfl⟩ n 0 0

end Sample

namespace UtPexMessage

theorem v6_address_lost : ¬ ∀ o m, m.addrs.keys ≠ [] →
    (∀ ip port flowinfo scopeId, m.addrs.contains (.v6 ip port flowinfo scopeId) = true →
      flowinfo = 0 ∧ scopeId = 0) → RoundTrips o m := by
  intro hall
  have hround := hall .insertion ⟨HashSet.add .empty (Sample.addr6 80)⟩ (List.cons_ne_nil _ _) ?_
  · have hv4 := v4_of_roundTrips hround (Sample.addr6 80) (by simp)
    contradiction
  · intro ip port flowinfo scopeId h
    rw [HashSet.contains_add] at h
    have h : SocketAddr.v6 ip port flowinfo scopeId = Sample.addr6 80 := by simpa using h
    injection h with _ _ hflow hscope
    exact ⟨hflow, hscope⟩

end UtPexMessage

end Tortue
