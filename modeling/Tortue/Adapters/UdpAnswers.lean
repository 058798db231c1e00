import Tortue.Adapters.UdpExchange

namespace Tortue

open Collections

namespace UdpTransport

open TrackerIo (Error)

def refusals : List String :=
  ["udp connect response too short", "unexpected udp connect action: 3",
    "udp announce response too short", "unexpected udp announce action: 3"]

variable {a : Answer} {txId : UInt32}

theorem dvd_length_peerBytes (r : Reply) : r.peerBytes.length % 6 = 0 := by
  rw [Reply.peerBytes]
  induction r.peers with
  | nil => rfl
  | cons p peers ih =>
    have hp : (compactAddr p).length % 6 = 0 := by
      cases p with
      | v4 ip port => simp [compactAddr, u16ToBe, ip.property]
      | v6 ip port _ _ => simp [compactAddr, u16ToBe, ip.property]
    rw [List.flatMap_cons, List.length_append]
    omega

theorem peerBytes_parsed (r : Reply) : ∃ peers, parseSocketAddrs r.peerBytes = .ok peers :=
  ⟨_, parseSocketAddrs_eq_ok.mpr ⟨dvd_length_peerBytes r, rfl⟩⟩

theorem parseSocketAddrs_error {bytes : Bytes} (h : bytes.length % 6 ≠ 0) :
    parseSocketAddrs bytes = .error .invalidMessage := by
  rw [parseSocketAddrs, if_neg h, if_neg (by omega)]

theorem parseHeader_other (exchange : String) {size action n : Nat} {bytes : Bytes} (txId : UInt32)
    (hsize : 4 ≤ size) (hn : n < 2 ^ 32) (hne : n ≠ action)
    (hword : window bytes 0 4 = u32Bytes n) :
    parseHeader exchange size action bytes txId =
        .error (.invalidResponse ("udp " ++ exchange ++ " response too short")) ∨
      parseHeader exchange size action bytes txId = .error (.invalidResponse
        ("unexpected udp " ++ exchange ++ " action: " ++ toString n)) := by
  rw [parseHeader]
  split_ifs with hshort hact htx
  · exact .inl rfl
  · rw [(readU32_eq_iff (by omega) hn).mpr hword]
    exact .inr rfl
  · exact absurd ((readU32_eq_iff (by omega) hn).mpr hword) (by omega)
  · exact absurd ((readU32_eq_iff (by omega) hn).mpr hword) (by omega)

theorem take_flatten_append {fields : List Bytes} {n : Nat} (h : fields.flatten.length ≤ n)
    (rest : Bytes) : (fields.flatten ++ rest).take n =
      fields.flatten ++ rest.take (n - fields.flatten.length) := by
  rw [List.take_append, List.take_of_length_le h]

section Refused

variable {text : Bytes} (hrefuse : a.choice = .refuse text)
include hrefuse

theorem refused_action (hlen : (window a.request 12 4).length = 4) :
    window (a.response.take bufSize) 0 4 = u32Bytes actionError := by
  have hlengths : [u32Bytes actionError, window a.request 12 4].map List.length = [4, 4] := by
    simp [length_u32Bytes, hlen]
  have hsize := congrArg List.sum hlengths
  rw [← List.length_flatten] at hsize
  have hfields := layout_append hlengths (text.take (bufSize - 8))
  rw [Answer.response, hrefuse, Choice.response,
    take_flatten_append (le_of_eq_of_le hsize (by decide)), hsize]
  simp only [layout, List.cons.injEq] at hfields
  exact hfields.1

theorem refused_connect (txId : UInt32) (hlen : (window a.request 12 4).length = 4) :
    ∃ text ∈ refusals,
      parseConnectResponse (a.response.take bufSize) txId = .error (.invalidResponse text) := by
  rw [parseConnectResponse]
  have hother : actionError ≠ actionConnect := by decide
  rcases parseHeader_other "connect" txId (show 4 ≤ 16 by decide) (by decide) hother
    (refused_action hrefuse hlen) with h | h
  · exact ⟨"udp connect response too short", by decide, by rw [h]; rfl⟩
  · exact ⟨"unexpected udp connect action: 3", by decide, by rw [h]; rfl⟩

theorem refused_announce (txId : UInt32) (hlen : (window a.request 12 4).length = 4) :
    ∃ text ∈ refusals,
      parseAnnounceResponse (a.response.take bufSize) txId = .error (.invalidResponse text) := by
  rw [parseAnnounceResponse]
  have hother : actionError ≠ actionAnnounce := by decide
  rcases parseHeader_other "announce" txId (show 4 ≤ 20 by decide) (by decide) hother
    (refused_action hrefuse hlen) with h | h
  · exact ⟨"udp announce response too short", by decide, by rw [h]; rfl⟩
  · exact ⟨"unexpected udp announce action: 3", by decide, by rw [h]; rfl⟩

end Refused

section Connected

variable {connectionId : UInt64} (hconnect : a.choice = .connect connectionId)
include hconnect

theorem length_connected (hlen : (window a.request 12 4).length = 4) : a.response.length = 16 := by
  rw [Answer.response, hconnect, Choice.response, List.length_flatten]
  simp [length_u32Bytes, hlen]

theorem connected_parsed (htx : window a.request 12 4 = u32Bytes txId.toNat) :
    parseConnectResponse (a.response.take bufSize) txId = .ok connectionId := by
  have hlen := length_connected hconnect (by rw [htx]; exact length_u32Bytes _)
  rw [List.take_of_length_le (le_of_eq_of_le hlen (by decide))]
  refine parseConnectResponse_eq_ok.mpr ⟨[], ?_⟩
  rw [Answer.response, hconnect, Choice.response, htx, List.append_nil]

theorem connected_repeated (hlen : (window a.request 12 4).length = 4) :
    parseAnnounceResponse (a.response.take bufSize) txId =
      .error (.invalidResponse "udp announce response too short") := by
  have hsize := length_connected hconnect hlen
  rw [List.take_of_length_le (le_of_eq_of_le hsize (by decide)), parseAnnounceResponse, parseHeader,
    if_pos (by omega)]
  rfl

end Connected

section Announced

variable {reply : Reply} (hannounce : a.choice = .announce reply)
  (htx : window a.request 12 4 = u32Bytes txId.toNat)
include hannounce htx

theorem announced_taken : a.response.take bufSize =
    [u32Bytes actionAnnounce, u32Bytes txId.toNat, u32Bytes reply.interval.toNat,
      u32Bytes reply.leechers.toNat, u32Bytes reply.seeders.toNat].flatten ++
        reply.peerBytes.take (bufSize - 20) := by
  have hsize : [u32Bytes actionAnnounce, u32Bytes txId.toNat, u32Bytes reply.interval.toNat,
      u32Bytes reply.leechers.toNat, u32Bytes reply.seeders.toNat].flatten.length = 20 := by
    rw [List.length_flatten]
    simp [length_u32Bytes]
  rw [Answer.response, hannounce, Choice.response, htx,
    take_flatten_append (le_of_eq_of_le hsize (by decide)), hsize]

theorem announced_parsed {peers : List SocketAddr} (hfits : 20 + reply.peerBytes.length ≤ bufSize)
    (hpeers : parseSocketAddrs reply.peerBytes = .ok peers) :
    parseAnnounceResponse (a.response.take bufSize) txId = .ok ⟨reply.interval, peers⟩ := by
  rw [announced_taken hannounce htx, List.take_of_length_le (by omega)]
  exact parseAnnounceResponse_eq_ok.mpr ⟨⟨u32Bytes reply.leechers.toNat, rfl⟩,
    ⟨u32Bytes reply.seeders.toNat, rfl⟩, reply.peerBytes, rfl, hpeers⟩

theorem announced_cut (hlong : bufSize < 20 + reply.peerBytes.length) :
    parseAnnounceResponse (a.response.take bufSize) txId = .error (.message .invalidMessage) := by
  have hcut : (reply.peerBytes.take (bufSize - 20)).length = 4076 := by
    rw [List.length_take]
    have hbuf : bufSize = 4096 := rfl
    omega
  have hodd : (reply.peerBytes.take (bufSize - 20)).length % 6 ≠ 0 := by
    rw [hcut]
    decide
  have hlaid := laidOut_announce txId reply.interval ⟨u32Bytes reply.leechers.toNat, rfl⟩
    ⟨u32Bytes reply.seeders.toNat, rfl⟩ (reply.peerBytes.take (bufSize - 20))
  rw [parseSocketAddrs_error hodd] at hlaid
  rw [announced_taken hannounce htx]
  exact hlaid

end Announced

end UdpTransport

end Tortue
