import Tortue.Adapters.Replies

namespace Tortue

open Collections

namespace Swarm

def properReply (info : Bytes) (piece : Nat) : UtMetadataMessage :=
  if piece < Bitfield.divCeil info.length Metainfo.metadataPieceSize then
    .data piece info.length ((info.take (min ((piece + 1) * Metainfo.metadataPieceSize)
      info.length)).drop (piece * Metainfo.metadataPieceSize))
  else .reject piece

theorem properReply_block {info : Bytes} {piece : Nat} (h : piece < Metadata.blockCount info) :
    properReply info piece = .data piece info.length (Metadata.block info piece) := by
  have hslice : (info.take (min ((piece + 1) * Metadata.pieceSize) info.length)).drop
      (piece * Metadata.pieceSize) = Metadata.block info piece := by
    rw [List.drop_take, Metadata.block, List.take_eq_take_iff, List.length_drop, Nat.succ_mul]
    omega
  rw [← hslice]
  exact if_pos h

theorem properReply_reject {info : Bytes} {piece : Nat} (h : ¬ piece < Metadata.blockCount info) :
    properReply info piece = .reject piece := if_neg h

structure Serves (sha1 : Sha1) (env : Entropy) (s : Swarm) (x : SocketAddr) (k : UInt8)
    (payload : Bytes) (piece : Nat) : Prop where
  exact : piece * Metainfo.metadataPieceSize < 2 ^ 64
  reply : (step sha1 s (.messageReceived x (.extension utMetadataExtId payload), env)).2 =
    [.sendToPeer x (.extension k (properReply s.metainfo.infoBytes piece).encode)]

section Request

variable {sha1 : Sha1} {env : Entropy} {s : Swarm} {x : SocketAddr} {k : UInt8} {payload : Bytes}
  {piece : Nat}

theorem Serves.within (h : Serves sha1 env s x k payload piece)
    (hlt : s.metainfo.infoBytes.length < 2 ^ 64)
    (hext : s.peerRegistry.peerExtensionId x "ut_metadata" = some k)
    (hasked : UtMetadataMessage.decode payload = .ok (.request piece)) :
    piece < Bitfield.divCeil s.metainfo.infoBytes.length Metainfo.metadataPieceSize := by
  by_contra hbeyond
  obtain ⟨r, hstep, -⟩ := Exchange.step_asked sha1 env hext hasked
  have hpiece : piece < 2 ^ 64 := UtMetadataMessage.decoded_sized hasked
  have hreply := h.reply
  rw [hstep, properReply_reject hbeyond, List.cons.injEq, Output.sendToPeer.injEq,
    Message.extension.injEq] at hreply
  have hread := UtMetadataMessage.decode_data (s.metainfo.infoBytesBlock piece) hpiece hlt
  rw [hreply.1.2.2, UtMetadataMessage.decode_reject hpiece, Except.ok.injEq] at hread
  contradiction

theorem serves_of_within (hlt : s.metainfo.infoBytes.length < 2 ^ 64)
    (hext : s.peerRegistry.peerExtensionId x "ut_metadata" = some k)
    (hasked : UtMetadataMessage.decode payload = .ok (.request piece))
    (hwithin : piece < Metadata.blockCount s.metainfo.infoBytes) :
    Serves sha1 env s x k payload piece := by
  obtain ⟨r, hstep, -⟩ := Exchange.step_asked sha1 env hext hasked
  have hexact : piece * Metadata.pieceSize < 2 ^ 64 := (Metadata.mul_pieceSize_lt hwithin).trans hlt
  refine ⟨hexact, ?_⟩
  rw [hstep, properReply_block hwithin, Exchange.infoBytesBlock_eq _ hexact]

end Request

theorem serves_iff (sha1 : Sha1) (env : Entropy) {s : Swarm} {x : SocketAddr} {k : UInt8}
    {payload : Bytes} {piece : Nat} (hlt : s.metainfo.infoBytes.length < 2 ^ 64)
    (hext : s.peerRegistry.peerExtensionId x "ut_metadata" = some k)
    (hasked : UtMetadataMessage.decode payload = .ok (.request piece)) :
    Serves sha1 env s x k payload piece ↔
      piece < Bitfield.divCeil s.metainfo.infoBytes.length Metainfo.metadataPieceSize :=
  ⟨fun h => h.within hlt hext hasked, serves_of_within hlt hext hasked⟩

end Swarm

namespace Sample

def fetching : Swarm :=
  (History.run (Swarm.step sha1) { swarm with metainfo := { metainfo with infoBytes := twoBlocks } }
    [connect 2 .outbound 80, message 80 (.extensionHandshake
      ⟨HashMap.empty.insert "ut_metadata" 3, none⟩)]).1

theorem fetching_id : fetching.peerRegistry.peerExtensionId (addr 80) "ut_metadata" = some 3 := by
  decide +kernel

theorem fetching_length : fetching.metainfo.infoBytes.length = 16385 := by
  have hinfo : fetching.metainfo.infoBytes = twoBlocks := rfl
  rw [hinfo, length_twoBlocks]

end Sample

namespace Swarm

theorem short_last_piece_served : Serves Sample.sha1 Sample.env Sample.fetching (Sample.addr 80) 3
    (UtMetadataMessage.request 1).encode 1 := by
  refine (serves_iff _ _ ?_ Sample.fetching_id
    (UtMetadataMessage.decode_request (by decide))).mpr ?_
  · rw [Sample.fetching_length]
    decide
  · rw [Sample.fetching_length]
    decide

theorem piece_past_end_not_rejected : ¬ ∀ (sha1 : Sha1) (env : Entropy) (s : Swarm)
    (x : SocketAddr) (k : UInt8) (payload : Bytes) (piece : Nat),
    s.metainfo.infoBytes.length < 2 ^ 64 → k ≠ 0 →
      s.peerRegistry.peerExtensionId x "ut_metadata" = some k →
        UtMetadataMessage.decode payload = .ok (.request piece) →
          Serves sha1 env s x k payload piece := by
  intro hall
  have hlt : Sample.fetching.metainfo.infoBytes.length < 2 ^ 64 := by
    rw [Sample.fetching_length]
    decide
  have hasked := UtMetadataMessage.decode_request (show 2 < 2 ^ 64 by decide)
  have hserves := hall Sample.sha1 Sample.env _ _ 3 _ 2 hlt (by decide) Sample.fetching_id hasked
  have hwithin := hserves.within hlt Sample.fetching_id hasked
  rw [Sample.fetching_length] at hwithin
  exact absurd hwithin (by decide)

end Swarm

end Tortue
