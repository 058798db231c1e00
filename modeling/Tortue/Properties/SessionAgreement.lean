import Tortue.Adapters.PeerListener

namespace Tortue

open Collections

namespace Handshake

theorem handshake_accepted_iff (h : Handshake) (buf : Bytes) :
    (decode buf = .ok h ↔ ∃ bits, Carries h bits buf) ∧ decode h.encode = .ok h ∧
      ((∃ h', decode buf = .ok h') ↔ buf.length = 68 ∧ buf.getD 0 0 = 19 ∧
        window buf 1 19 = ByteStr "BitTorrent protocol") := by
  refine ⟨decode_eq_ok, decode_encode h, ?_⟩
  constructor
  · rintro ⟨h', hdecode⟩
    obtain ⟨bits, hc⟩ := decode_eq_ok.mp hdecode
    refine ⟨hc.length_buf, ?_, hc.windows.2.1⟩
    rw [hc.bytes]
    rfl
  · rintro ⟨hlen, hfirst, hpstr⟩
    have hlen' : buf.length = handshakeLen := hlen
    have hname : window buf 1 19 = pstr := hpstr
    have hnumber : (buf.getD 0 0).toNat = pstr.length := by
      rw [hfirst, length_pstr]
      rfl
    unfold decode
    rw [dif_pos hlen', if_neg (not_not.mpr hnumber), if_neg (not_not.mpr hname)]
    exact ⟨_, rfl⟩

end Handshake

namespace TcpPeerListenner

variable {χ : Type} {registry : SwarmRegistry χ} {clientId : PeerId} {reader reply : Bytes}
  {v : Visit} {tx : χ} {peer : InboundPeer}

structure Welcome (clientId : PeerId) (registry : SwarmRegistry χ) (reader : Bytes) (tx : χ)
    (peer : InboundPeer) : Prop where
  read : readHandshake reader = .ok (peer.handshake, peer.stream)
  other : peer.handshake.peerId ≠ clientId
  routed : registry.route peer.handshake.infoHash = some tx

theorem Welcome.unique {tx' : χ} {peer' : InboundPeer}
    (h : Welcome clientId registry reader tx peer)
    (h' : Welcome clientId registry reader tx' peer') : tx = tx' ∧ peer = peer' := by
  have hread := Except.ok.inj (h.read.symm.trans h'.read)
  rw [Prod.mk.injEq] at hread
  obtain ⟨handshake, stream⟩ := peer
  obtain ⟨handshake', stream'⟩ := peer'
  obtain ⟨rfl, rfl⟩ := hread
  exact ⟨Option.some.inj (h.routed.symm.trans h'.routed), rfl⟩

end TcpPeerListenner

open SwarmRegistry TcpPeerIo TcpPeerListenner

namespace Sample

def registering : List (SwarmRegistry.Call Nat) :=
  [.register (octets 7) 1, .register (octets 8) 2, .register (octets 7) 3]

def registry : SwarmRegistry Nat := (History.run SwarmRegistry.step .new registering).1

end Sample

end Tortue
