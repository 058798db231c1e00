import Tortue.Collections.Layout
import Tortue.Domain.Peer
import Tortue.Domain.Torrent

namespace Tortue

open Collections

structure Handshake where
  infoHash : InfoHash
  peerId : PeerId
  dhtProtocol : Bool
  extensionProtocol : Bool
  fastExtension : Bool
  deriving DecidableEq

namespace Handshake

inductive Error where
  | invalidHandshake (reason : String)
  deriving DecidableEq, Repr

def handshakeLen : Nat := 68

def pstr : Bytes := ByteStr "BitTorrent protocol"

def extensionProtocolMask : UInt8 := 16

def fastExtensionMask : UInt8 := 4

def dhtProtocolMask : UInt8 := 1

def reserved (h : Handshake) : Bytes :=
  [0, 0, 0, 0, 0, if h.extensionProtocol then extensionProtocolMask else 0, 0,
    (if h.fastExtension then fastExtensionMask else 0) |||
      if h.dhtProtocol then dhtProtocolMask else 0]

def encode (h : Handshake) : Bytes :=
  UInt8.ofNat pstr.length :: pstr ++ h.reserved ++ h.infoHash.val ++ h.peerId.bytes.val

def flagged (reservedBytes : Bytes) (i : Nat) (mask : UInt8) : Bool :=
  decide (reservedBytes.getD i 0 &&& mask ≠ 0)

def decode (buf : Bytes) : Except Error Handshake :=
  if hlen : buf.length = handshakeLen then
    if (buf.getD 0 0).toNat ≠ pstr.length then
      .error (.invalidHandshake "invalid protocol string length")
    else if window buf 1 19 ≠ pstr then .error (.invalidHandshake "invalid protocol string")
    else
      .ok {
        infoHash := ⟨window buf 28 20, length_window (by rw [hlen]; decide)⟩
        peerId := ⟨⟨window buf 48 20, length_window (by rw [hlen]; decide)⟩⟩
        dhtProtocol := flagged (window buf 20 8) 7 dhtProtocolMask
        extensionProtocol := flagged (window buf 20 8) 5 extensionProtocolMask
        fastExtension := flagged (window buf 20 8) 7 fastExtensionMask }
  else .error (.invalidHandshake "invalid handshake length")

theorem length_pstr : pstr.length = 19 := by decide

@[simp] theorem length_reserved (h : Handshake) : h.reserved.length = 8 := rfl

theorem flagged_reserved (h : Handshake) :
    flagged h.reserved 7 dhtProtocolMask = h.dhtProtocol ∧
      flagged h.reserved 5 extensionProtocolMask = h.extensionProtocol ∧
      flagged h.reserved 7 fastExtensionMask = h.fastExtension := by
  have hbits : ∀ dht extension fast : Bool,
      let bits := [0, 0, 0, 0, 0, if extension then extensionProtocolMask else 0, 0,
        (if fast then fastExtensionMask else 0) ||| if dht then dhtProtocolMask else 0]
      flagged bits 7 dhtProtocolMask = dht ∧ flagged bits 5 extensionProtocolMask = extension ∧
        flagged bits 7 fastExtensionMask = fast := by decide
  exact hbits h.dhtProtocol h.extensionProtocol h.fastExtension

structure Carries (h : Handshake) (bits buf : Bytes) : Prop where
  length : bits.length = 8
  bytes : buf = [[19], pstr, bits, h.infoHash.val, h.peerId.bytes.val].flatten
  dhtProtocol : h.dhtProtocol = flagged bits 7 dhtProtocolMask
  extensionProtocol : h.extensionProtocol = flagged bits 5 extensionProtocolMask
  fastExtension : h.fastExtension = flagged bits 7 fastExtensionMask

theorem encode_carries (h : Handshake) : Carries h h.reserved h.encode where
  length := rfl
  bytes := by
    have hhead : UInt8.ofNat pstr.length = 19 := by decide
    simp only [encode, hhead, List.flatten_cons, List.flatten_nil, List.append_nil,
      List.nil_append, List.append_assoc, List.cons_append]
  dhtProtocol := (flagged_reserved h).1.symm
  extensionProtocol := (flagged_reserved h).2.1.symm
  fastExtension := (flagged_reserved h).2.2.symm

namespace Carries

variable {h h' : Handshake} {bits bits' buf : Bytes}

theorem fields (hc : Carries h bits buf) (rest : Bytes) :
    layout (buf ++ rest) 0 [1, 19, 8, 20, 20] =
      [[19], pstr, bits, h.infoHash.val, h.peerId.bytes.val] := by
  have hwidths : [[(19 : UInt8)], pstr, bits, h.infoHash.val, h.peerId.bytes.val].map
      List.length = [1, 19, 8, 20, 20] := by
    simp only [List.map_cons, List.map_nil, hc.length, length_pstr, h.infoHash.property,
      h.peerId.bytes.property, List.length_singleton]
  have hfields := layout_flatten [] [[19], pstr, bits, h.infoHash.val, h.peerId.bytes.val] rest
  rw [hwidths, List.nil_append, ← hc.bytes] at hfields
  exact hfields

theorem length_buf (hc : Carries h bits buf) : buf.length = handshakeLen := by
  rw [hc.bytes]
  simp only [List.length_flatten, List.map_cons, List.map_nil, hc.length, length_pstr,
    h.infoHash.property, h.peerId.bytes.property, List.length_singleton]
  rfl

theorem windows (hc : Carries h bits buf) : window buf 0 1 = [19] ∧ window buf 1 19 = pstr ∧
    window buf 20 8 = bits ∧ window buf 28 20 = h.infoHash.val ∧
    window buf 48 20 = h.peerId.bytes.val := by
  have hfields := hc.fields []
  simpa only [List.append_nil, layout, Nat.zero_add, Nat.reduceAdd, List.cons.injEq,
    and_true] using hfields

theorem decode (hc : Carries h bits buf) : decode buf = .ok h := by
  obtain ⟨hhead, hpstr, hbits, hinfo, hid⟩ := hc.windows
  have hfirst : (buf.getD 0 0).toNat = pstr.length := by
    rw [hc.bytes]
    exact length_pstr.symm
  obtain ⟨⟨hash, hhash⟩, ⟨⟨id, hlen⟩⟩, dht, extension, fast⟩ := h
  simp only [Handshake.decode, hc.length_buf, dite_true, hfirst, ne_eq, not_true_eq_false,
    if_false, hpstr, hbits, hinfo, hid, Except.ok.injEq, Handshake.mk.injEq, true_and]
  exact ⟨hc.dhtProtocol.symm, hc.extensionProtocol.symm, hc.fastExtension.symm⟩

end Carries

theorem window_head {buf : Bytes} (h : buf.length = handshakeLen) :
    window buf 0 1 = [buf.getD 0 0] := by
  cases buf with
  | nil => contradiction
  | cons b buf => rfl

theorem decode_eq_ok {h : Handshake} {buf : Bytes} :
    decode buf = .ok h ↔ ∃ bits, Carries h bits buf := by
  constructor
  · intro hdecode
    unfold decode at hdecode
    split at hdecode
    · next hlen =>
      split_ifs at hdecode with hfirst hpstr
      rw [Except.ok.injEq] at hdecode
      subst hdecode
      have hhead : buf.getD 0 0 = 19 := by
        refine UInt8.toNat_inj.mp ?_
        rw [not_not.mp hfirst, length_pstr]
        rfl
      have hsum : 0 + [1, 19, 8, 20, 20].sum = buf.length := hlen.symm
      have hflat := flatten_layout hsum
      simp only [layout, Nat.zero_add, Nat.reduceAdd, window_head hlen, hhead,
        not_not.mp hpstr, List.drop_zero] at hflat
      exact ⟨window buf 20 8, length_window (by rw [hlen]; decide), hflat.symm, rfl, rfl, rfl⟩
    · contradiction
  · rintro ⟨bits, hc⟩
    exact hc.decode

theorem decode_encode (h : Handshake) : decode h.encode = .ok h := (encode_carries h).decode

theorem length_encode (h : Handshake) : h.encode.length = handshakeLen :=
  (encode_carries h).length_buf

end Handshake

end Tortue
