import Tortue.Adapters.UdpTransport
import Tortue.Domain.RoundTrip

namespace Tortue

open Collections

namespace UdpTransport

open TrackerIo (Error)

@[simp] theorem length_u64Bytes (n : Nat) : (u64Bytes n).length = 8 :=
  BigEndian.length_encode 8 n

theorem u32Bytes_eq (n : Nat) : u32Bytes n = BigEndian.encode 4 n := by
  simp [u32Bytes, BigEndian.encode]

theorem readU32_eq (bytes : Bytes) (offset : Nat) :
    readU32 bytes offset = BigEndian.decode (window bytes offset 4) := rfl

theorem readU32_eq_iff {bytes : Bytes} {offset n : Nat} (hlen : offset + 4 ≤ bytes.length)
    (hn : n < 2 ^ 32) : readU32 bytes offset = n ↔ window bytes offset 4 = u32Bytes n := by
  rw [readU32_eq, u32Bytes_eq]
  constructor
  · rintro rfl
    exact (BigEndian.encode_decode (length_window hlen)).symm
  · intro h
    rw [h, BigEndian.decode_encode]
    exact Nat.mod_eq_of_lt hn

theorem readU64_eq_iff {bytes : Bytes} {offset : Nat} {n : UInt64}
    (hlen : offset + 8 ≤ bytes.length) :
    readU64 bytes offset = n ↔ window bytes offset 8 = u64Bytes n.toNat := by
  have hlt : BigEndian.decode (window bytes offset 8) < 2 ^ 64 := by
    have hlt := BigEndian.decode_lt (window bytes offset 8)
    rwa [length_window hlen] at hlt
  rw [readU64, u64Bytes, ← UInt64.toNat_inj, Nat.toUInt64, UInt64.toNat_ofNat',
    Nat.mod_eq_of_lt hlt]
  constructor
  · intro h
    rw [← h]
    exact (BigEndian.encode_decode (length_window hlen)).symm
  · intro h
    rw [h, BigEndian.decode_encode]
    exact Nat.mod_eq_of_lt n.toNat_lt

theorem parseHeader_eq_ok {exchange : String} {size action : Nat} {bytes : Bytes} {txId : UInt32}
    (hsize : 8 ≤ size) (haction : action < 2 ^ 32) :
    parseHeader exchange size action bytes txId = .ok () ↔ size ≤ bytes.length ∧
      window bytes 0 4 = u32Bytes action ∧ window bytes 4 4 = u32Bytes txId.toNat := by
  unfold parseHeader
  split_ifs with hshort hact htx
  · simp only [false_iff, not_and]
    omega
  · simp only [false_iff, not_and]
    intro hlong h
    exact absurd ((readU32_eq_iff (by omega) haction).mpr h) hact
  · simp only [false_iff, not_and]
    intro hlong _ h
    exact htx ((readU32_eq_iff (by omega) txId.toNat_lt).mpr h)
  · simp only [true_iff]
    rw [not_ne_iff] at hact htx
    have hlong : size ≤ bytes.length := Nat.le_of_not_lt hshort
    exact ⟨hlong, (readU32_eq_iff (by omega) haction).mp hact,
      (readU32_eq_iff (by omega) txId.toNat_lt).mp htx⟩

theorem window_interval {bytes : Bytes} (hlen : 20 ≤ bytes.length) :
    window bytes 8 4 = u32Bytes (readU32 bytes 8).toUInt32.toNat := by
  have hlt : readU32 bytes 8 < 2 ^ 32 := by
    have hlt := BigEndian.decode_lt (window bytes 8 4)
    rwa [length_window (by omega)] at hlt
  rw [Nat.toUInt32, UInt32.toNat_ofNat', Nat.mod_eq_of_lt hlt]
  exact (readU32_eq_iff (by omega) hlt).mp rfl

theorem parseConnectResponse_eq_ok {bytes : Bytes} {txId : UInt32} {connectionId : UInt64} :
    parseConnectResponse bytes txId = .ok connectionId ↔ ∃ rest, bytes =
      [u32Bytes actionConnect, u32Bytes txId.toNat, u64Bytes connectionId.toNat].flatten ++
        rest := by
  have hlayout : parseConnectResponse bytes txId = .ok connectionId ↔ 16 ≤ bytes.length ∧
      layout bytes 0 [4, 4, 8] =
        [u32Bytes actionConnect, u32Bytes txId.toNat, u64Bytes connectionId.toNat] := by
    simp only [parseConnectResponse, Except.bind_eq_ok, layout, List.cons.injEq, and_true]
    constructor
    · rintro ⟨⟨⟩, hheader, hread⟩
      obtain ⟨hlen, haction, htx⟩ := (parseHeader_eq_ok (by decide) (by decide)).mp hheader
      exact ⟨hlen, haction, htx, (readU64_eq_iff (by omega)).mp (Except.ok.inj hread)⟩
    · rintro ⟨hlen, haction, htx, hread⟩
      exact ⟨(), (parseHeader_eq_ok (by decide) (by decide)).mpr ⟨hlen, haction, htx⟩,
        congrArg Except.ok ((readU64_eq_iff (by omega)).mpr hread)⟩
  rw [hlayout]
  constructor
  · rintro ⟨-, hfields⟩
    exact ⟨_, eq_flatten_append hfields⟩
  · rintro ⟨rest, rfl⟩
    have hlengths : [u32Bytes actionConnect, u32Bytes txId.toNat,
        u64Bytes connectionId.toNat].map List.length = [4, 4, 8] := by
      simp [length_u32Bytes]
    refine ⟨?_, layout_append hlengths rest⟩
    rw [List.length_append, List.length_flatten, hlengths]
    exact Nat.le_add_right 16 rest.length

section AnnounceResponse

variable {bytes : Bytes} {txId : UInt32} {resp : TrackerResponse}

theorem parseAnnounceResponse_of_header
    (h : parseHeader "announce" 20 actionAnnounce bytes txId = .ok ()) :
    parseAnnounceResponse bytes txId =
      ((parseSocketAddrs (bytes.drop 20)).mapError .message).map fun peers =>
        ⟨(readU32 bytes 8).toUInt32, peers⟩ := by
  rw [parseAnnounceResponse, h]
  cases parseSocketAddrs (bytes.drop 20) <;> rfl

theorem laidOut_announce (txId interval : UInt32) (leechers seeders : Octets 4) (rest : Bytes) :
    parseAnnounceResponse ([u32Bytes actionAnnounce, u32Bytes txId.toNat,
      u32Bytes interval.toNat, leechers.val, seeders.val].flatten ++ rest) txId =
        ((parseSocketAddrs rest).mapError .message).map fun peers => ⟨interval, peers⟩ := by
  have hlengths : [u32Bytes actionAnnounce, u32Bytes txId.toNat, u32Bytes interval.toNat,
      leechers.val, seeders.val].map List.length = [4, 4, 4, 4, 4] := by
    simp [length_u32Bytes, leechers.property, seeders.property]
  have hsize := congrArg List.sum hlengths
  rw [← List.length_flatten] at hsize
  have hlen : 20 ≤ ([u32Bytes actionAnnounce, u32Bytes txId.toNat, u32Bytes interval.toNat,
      leechers.val, seeders.val].flatten ++ rest).length := by
    rw [List.length_append, hsize]
    exact Nat.le_add_right 20 rest.length
  have hfields := layout_append hlengths rest
  simp only [layout, List.cons.injEq] at hfields
  obtain ⟨haction, htx, hinterval, -⟩ := hfields
  have hdrop : ([u32Bytes actionAnnounce, u32Bytes txId.toNat, u32Bytes interval.toNat,
      leechers.val, seeders.val].flatten ++ rest).drop 20 = rest := List.drop_left' hsize
  have hread := (readU32_eq_iff (by omega) interval.toNat_lt).mpr hinterval
  have hheader : parseHeader "announce" 20 actionAnnounce _ txId = .ok () :=
    (parseHeader_eq_ok (by decide) (by decide)).mpr ⟨hlen, haction, htx⟩
  rw [parseAnnounceResponse_of_header hheader, hdrop, hread, Nat.toUInt32, UInt32.ofNat_toNat]

theorem parseAnnounceResponse_eq_ok : parseAnnounceResponse bytes txId = .ok resp ↔
    ∃ (leechers seeders : Octets 4) (rest : Bytes),
      bytes = [u32Bytes actionAnnounce, u32Bytes txId.toNat, u32Bytes resp.interval.toNat,
        leechers.val, seeders.val].flatten ++ rest ∧ parseSocketAddrs rest = .ok resp.peers := by
  constructor
  · intro h
    have hheader : parseHeader "announce" 20 actionAnnounce bytes txId = .ok () := by
      rw [parseAnnounceResponse] at h
      obtain ⟨⟨⟩, hheader, -⟩ := Except.bind_eq_ok.mp h
      exact hheader
    obtain ⟨hlen, haction, htx⟩ := (parseHeader_eq_ok (by decide) (by decide)).mp hheader
    rw [parseAnnounceResponse_of_header hheader] at h
    cases hpeers : parseSocketAddrs (bytes.drop 20) with
    | error e =>
      rw [hpeers] at h
      contradiction
    | ok peers =>
      rw [hpeers] at h
      obtain rfl := Except.ok.inj h
      have hfields : layout bytes 0 [4, 4, 4, 4, 4] = [u32Bytes actionAnnounce,
          u32Bytes txId.toNat, u32Bytes (readU32 bytes 8).toUInt32.toNat, window bytes 12 4,
          window bytes 16 4] := by
        simp only [layout, haction, htx, ← window_interval hlen]
      exact ⟨⟨window bytes 12 4, length_window (by omega)⟩,
        ⟨window bytes 16 4, length_window (by omega)⟩, bytes.drop 20,
        eq_flatten_append hfields, hpeers⟩
  · rintro ⟨leechers, seeders, rest, rfl, hpeers⟩
    rw [laidOut_announce, hpeers]
    rfl

end AnnounceResponse

section Request

variable (connectionId : UInt64) (txId key : UInt32) (req : AnnounceRequest)

theorem length_announceFields : (announceFields connectionId txId key req).map List.length =
    [8, 4, 4, 20, 20, 8, 8, 8, 4, 4, 4, 4, 2] := by
  have hinfoHash : req.infoHash.val.length = 20 := req.infoHash.property
  have hpeerId : req.peerId.bytes.val.length = 20 := req.peerId.bytes.property
  simp only [announceFields, List.map_cons, List.map_nil, length_u64Bytes, length_u32Bytes,
    hinfoHash, hpeerId]
  rfl

theorem layout_announceRequest : layout (buildAnnounceRequest connectionId txId key req) 0
    [8, 4, 4, 20, 20, 8, 8, 8, 4, 4, 4, 4, 2] = announceFields connectionId txId key req := by
  have hall := layout_append (length_announceFields connectionId txId key req) []
  rwa [List.append_nil] at hall

theorem announceRequest_action :
    window (buildAnnounceRequest connectionId txId key req) 8 4 = u32Bytes actionAnnounce := by
  have hall : layout (buildAnnounceRequest connectionId txId key req) 0
      [8, 4, 4, 20, 20, 8, 8, 8, 4, 4, 4, 4, 2] = _ := layout_announceRequest ..
  simp only [layout, announceFields, List.cons.injEq] at hall
  exact hall.2.1

theorem announceRequest_txId :
    window (buildAnnounceRequest connectionId txId key req) 12 4 = u32Bytes txId.toNat := by
  have hall : layout (buildAnnounceRequest connectionId txId key req) 0
      [8, 4, 4, 20, 20, 8, 8, 8, 4, 4, 4, 4, 2] = _ := layout_announceRequest ..
  simp only [layout, announceFields, List.cons.injEq] at hall
  exact hall.2.2.1

end Request

theorem connectRequest_fields (txId : UInt32) :
    window (buildConnectRequest txId) 8 4 = u32Bytes actionConnect ∧
      window (buildConnectRequest txId) 12 4 = u32Bytes txId.toNat := by
  have hlengths : [u64Bytes protocolId, u32Bytes actionConnect, u32Bytes txId.toNat].map
      List.length = [8, 4, 4] := by
    simp [length_u32Bytes]
  have hall := layout_append hlengths []
  have hflatten : [u64Bytes protocolId, u32Bytes actionConnect, u32Bytes txId.toNat].flatten ++ [] =
      buildConnectRequest txId := by
    simp [buildConnectRequest]
  rw [hflatten] at hall
  simp only [layout, List.cons.injEq] at hall
  exact ⟨hall.2.1, hall.2.2.1⟩

end UdpTransport

end Tortue
