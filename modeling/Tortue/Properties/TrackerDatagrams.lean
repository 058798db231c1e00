import Tortue.Adapters.Datagrams
import Tortue.Domain.UtPex

namespace Tortue

open Collections

namespace UdpTransport

structure SameAnnounce (req req' : AnnounceRequest) : Prop where
  infoHash : req.infoHash = req'.infoHash
  peerId : req.peerId = req'.peerId
  downloaded : req.stats.downloaded % 2 ^ 64 = req'.stats.downloaded % 2 ^ 64
  left : req.stats.left % 2 ^ 64 = req'.stats.left % 2 ^ 64
  uploaded : req.stats.uploaded % 2 ^ 64 = req'.stats.uploaded % 2 ^ 64
  event : req.event = req'.event
  port : req.port = req'.port

variable {connectionId connectionId' : UInt64} {txId txId' key key' : UInt32}
  {req req' : AnnounceRequest}

theorem u32Bytes_inj {n m : UInt32} (h : u32Bytes n.toNat = u32Bytes m.toNat) : n = m := by
  have hvalue := congrArg BigEndian.decode h
  rw [u32Bytes_eq, u32Bytes_eq, BigEndian.decode_encode, BigEndian.decode_encode] at hvalue
  have hn : n.toNat < 256 ^ 4 := n.toNat_lt
  have hm : m.toNat < 256 ^ 4 := m.toNat_lt
  rw [Nat.mod_eq_of_lt hn, Nat.mod_eq_of_lt hm] at hvalue
  exact UInt32.toNat_inj.mp hvalue

theorem u64Bytes_eq_iff {n m : Nat} : u64Bytes n = u64Bytes m ↔ n % 2 ^ 64 = m % 2 ^ 64 := by
  constructor
  · intro h
    have hvalue := congrArg BigEndian.decode h
    rwa [u64Bytes, u64Bytes, BigEndian.decode_encode, BigEndian.decode_encode] at hvalue
  · intro h
    have hbytes : ∀ k, u64Bytes k = BigEndian.encode 8 (k % 2 ^ 64) := by
      intro k
      have hsplit := BigEndian.encode_add 8 (k / 256 ^ 8) (k % 256 ^ 8)
      rw [Nat.div_add_mod'] at hsplit
      exact hsplit
    rw [hbytes, hbytes m, h]

theorem u64Bytes_inj {n m : UInt64} (h : u64Bytes n.toNat = u64Bytes m.toNat) : n = m := by
  have hvalue := u64Bytes_eq_iff.mp h
  rw [Nat.mod_eq_of_lt n.toNat_lt, Nat.mod_eq_of_lt m.toNat_lt] at hvalue
  exact UInt64.toNat_inj.mp hvalue

theorem asUdpCode_inj {event event' : AnnounceEvent}
    (h : u32Bytes event.asUdpCode = u32Bytes event'.asUdpCode) : event = event' := by
  cases event <;> cases event' <;> first | rfl | (revert h; decide)

theorem u16ToBe_inj {n m : UInt16} (h : u16ToBe n = u16ToBe m) : n = m := by
  simp only [u16ToBe, List.cons.injEq, and_true] at h
  rw [← u16OfBe_toBe n, ← u16OfBe_toBe m, h.1, h.2]

theorem announceRequest_inj (h : buildAnnounceRequest connectionId txId key req =
    buildAnnounceRequest connectionId' txId' key' req') :
    connectionId = connectionId' ∧ txId = txId' ∧ key = key' ∧ SameAnnounce req req' := by
  have hfields := layout_announceRequest connectionId txId key req
  rw [h, layout_announceRequest] at hfields
  simp only [announceFields, List.cons.injEq, and_true] at hfields
  obtain ⟨hconnection, -, htx, hinfoHash, hpeerId, hdownloaded, hleft, huploaded, hevent, -, hkey,
    -, hport⟩ := hfields
  exact ⟨(u64Bytes_inj hconnection).symm, (u32Bytes_inj htx).symm, (u32Bytes_inj hkey).symm, {
    infoHash := (Subtype.ext hinfoHash).symm
    peerId := congrArg PeerId.mk (Subtype.ext hpeerId).symm
    downloaded := (u64Bytes_eq_iff.mp hdownloaded).symm
    left := (u64Bytes_eq_iff.mp hleft).symm
    uploaded := (u64Bytes_eq_iff.mp huploaded).symm
    event := (asUdpCode_inj hevent).symm
    port := (u16ToBe_inj hport).symm }⟩

theorem announceRequest_congr (h : SameAnnounce req req') :
    buildAnnounceRequest connectionId txId key req =
      buildAnnounceRequest connectionId txId key req' := by
  simp only [buildAnnounceRequest, announceFields, h.infoHash, h.peerId, h.event, h.port,
    u64Bytes_eq_iff.mpr h.downloaded, u64Bytes_eq_iff.mpr h.left, u64Bytes_eq_iff.mpr h.uploaded]

theorem datagrams_laid_out :
    (∀ connectionId txId key req,
      (buildAnnounceRequest connectionId txId key req).length = 98 ∧
        layout (buildAnnounceRequest connectionId txId key req) 0
          [8, 4, 4, 20, 20, 8, 8, 8, 4, 4, 4, 4, 2] = announceFields connectionId txId key req) ∧
    (∀ connectionId connectionId' txId txId' key key' req req',
      buildAnnounceRequest connectionId txId key req =
        buildAnnounceRequest connectionId' txId' key' req' ↔
          connectionId = connectionId' ∧ txId = txId' ∧ key = key' ∧ SameAnnounce req req') ∧
    (∀ bytes txId connectionId, parseConnectResponse bytes txId = .ok connectionId ↔ ∃ rest, bytes =
      [u32Bytes actionConnect, u32Bytes txId.toNat, u64Bytes connectionId.toNat].flatten ++
        rest) ∧
    ∀ bytes txId resp, parseAnnounceResponse bytes txId = .ok resp ↔
      ∃ (leechers seeders : Octets 4) (rest : Bytes),
        bytes = [u32Bytes actionAnnounce, u32Bytes txId.toNat, u32Bytes resp.interval.toNat,
          leechers.val, seeders.val].flatten ++ rest ∧
            parseSocketAddrs rest = .ok resp.peers := by
  refine ⟨fun connectionId txId key req => ⟨?_, layout_announceRequest connectionId txId key req⟩,
    fun connectionId connectionId' txId txId' key key' req req' => ⟨announceRequest_inj, ?_⟩,
    fun _ _ _ => parseConnectResponse_eq_ok, fun _ _ _ => parseAnnounceResponse_eq_ok⟩
  · rw [buildAnnounceRequest, List.length_flatten, length_announceFields]
    rfl
  · rintro ⟨rfl, rfl, rfl, hsame⟩
    exact announceRequest_congr hsame

end UdpTransport

end Tortue
