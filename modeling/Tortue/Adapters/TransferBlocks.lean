import Tortue.Adapters.Transfer
import Tortue.Domain.Swarm.Wanted
import Tortue.Domain.Swarm.UploadQueue

namespace Tortue

open Collections PieceManager

namespace Transfer

variable {m : Metainfo} {b : BlockRange} {content : Bytes} {files : List OutputFile}

section

variable {pm : PieceManager}

theorem block_bounds (hw : m.Wired) (h : m.Block b) :
    b.pieceIndex < 2 ^ 32 ∧ b.pieceOffset < 2 ^ 32 ∧ b.len < 2 ^ 32 := by
  obtain ⟨len, hlen, hle⟩ := h.within
  have hpos := h.pos
  have hsize : b.len ≤ 16 * 1024 := h.size
  obtain ⟨hindex, hnarrow⟩ := hw.narrow _ _ h.index hlen (by omega)
  exact ⟨hindex, by omega, by omega⟩

theorem block_fits (hw : m.Wired) (h : m.Block b) : position m b + b.len ≤ m.totalSize := by
  obtain ⟨len, hlen, hle⟩ := h.within
  obtain ⟨-, -, hfit⟩ := hw.divided.piece_fits h.index hlen
  unfold position
  omega

theorem length_block (hw : m.Wired) (hc : content.length = m.totalSize) (h : m.Block b) :
    (window content (position m b) b.len).length = b.len :=
  length_window (hc ▸ block_fits hw h)

theorem block_valid (hw : m.Wired) (hm : Described m pm) (hcomplete : pm.isComplete = true)
    (h : m.Block b) : pm.validUploadRange b = true := by
  have hall := (isComplete_iff pm).mp hcomplete b.pieceIndex (hm.length.symm ▸ h.index)
  obtain ⟨-, hoffset, hlen⟩ := block_bounds hw h
  exact (validUploadRange_iff hm).mpr ⟨hall, h.pos, h.size, by omega, h.within⟩

theorem serveRead_eq (hw : m.Wired) (hlaid : DiskStorage.Laid m files) (h : m.Block b) :
    serveRead m files b = .ok (window (DiskStorage.bytes files) (position m b) b.len) := by
  obtain ⟨len, hlen, hle⟩ := h.within
  obtain ⟨-, hpl, -⟩ := hw.divided.piece_fits h.index hlen
  have hfit := block_fits hw h
  have hoffset : (DiskStorage.new m).storageOffset b = .ok (position m b) := by
    refine (DiskStorage.storageOffset_ok_iff hw.divided.small).mpr ⟨h.index, h.pos, ?_, rfl, hfit⟩
    simp only [DiskStorage.new]
    omega
  unfold serveRead
  simp only [Except.bind_eq_ok, hoffset, Except.ok.injEq, exists_eq_left']
  exact DiskStorage.readFromFiles_eq hlaid (hw.divided.total ▸ hw.divided.small)
    (hw.divided.total ▸ hfit)

theorem block_slice (h : m.Block b) : window content (position m b) b.len =
    ((pieceBytes m content b.pieceIndex).drop b.pieceOffset).take b.len := by
  obtain ⟨len, hlen, hle⟩ := h.within
  unfold pieceBytes position
  rw [hlen, Option.getD_some]
  exact (window_window hle).symm

end

inductive FromSeeder (m : Metainfo) (content : Bytes) : Message → Prop
  | hello : FromSeeder m content (.extensionHandshake (sessionHandshake (some m.infoBytes.length)))
  | haveAll : FromSeeder m content .haveAll
  | interested : FromSeeder m content .interested
  | unchoke : FromSeeder m content .unchoke
  | piece {b : BlockRange} : m.Block b →
      FromSeeder m content (.piece b (window content (position m b) b.len))
  | pex {payload : Bytes} : payload.length + 2 ≤ Message.maxMessageSize →
      FromSeeder m content (.extension utPexExtId payload)

inductive FromLeecher (m : Metainfo) : Message → Prop
  | hello : FromLeecher m (.extensionHandshake (sessionHandshake (some m.infoBytes.length)))
  | bitfield {bits : Bytes} : bits.length = (m.pieces.length + 7) / 8 →
    FromLeecher m (.bitfield bits)
  | haveNone : FromLeecher m .haveNone
  | interested : FromLeecher m .interested
  | unchoke : FromLeecher m .unchoke
  | havePiece {i : Nat} : i < m.pieces.length → FromLeecher m (.havePiece i)
  | request {b : BlockRange} : m.Block b → FromLeecher m (.request b)
  | pex {payload : Bytes} : payload.length + 2 ≤ Message.maxMessageSize →
      FromLeecher m (.extension utPexExtId payload)

theorem length_sessionHandshake (o : IterOrder) {n : Nat} (h : n < 2 ^ 63) :
    ((sessionHandshake (some n)).encode o).length ≤ 100 := by
  have hn : (UtMetadataMessage.asI64 n).toInt = n := by
    have hof : UtMetadataMessage.asI64 n = Int64.ofNat n := rfl
    rw [hof, Int64.toInt_ofNat_of_lt h]
  have hdigits : (decimal n).length ≤ 19 :=
    length_decimal_le (by omega) (h.trans (by norm_num))
  have hint : (decimalInt (UtMetadataMessage.asI64 n).toInt).length ≤ 19 := by
    rw [hn, decimalInt, if_neg (by omega)]
    exact hdigits
  have hname : (Bencode.encodeBytes (ByteStr "m")).length = 3 := by decide +kernel
  have hsize : (Bencode.encodeBytes (ByteStr "metadata_size")).length = 16 := by decide +kernel
  have htable : (Bencode.encode (.dict Exchange.handshakeExtensions)).length = 30 := by
    decide +kernel
  rw [Exchange.encode_session, Exchange.handshakeFields, Option.map_some, Option.toList_some,
    Bencode.encode, Bencode.encodeEntries, Bencode.encodeEntries, Bencode.encodeEntries,
    Bencode.encode.eq_def (.int _)]
  simp only [List.length_append, List.length_cons, List.length_nil, hname, hsize, htable]
  omega

theorem hello_sendable (hw : m.Wired) (o : IterOrder) : Message.Sendable (greeting o m) where
  fits n hn := by
    obtain rfl := Option.some.inj hn
    exact hw.info
  size := by
    have hlength := length_sessionHandshake o hw.info
    have hmax : Message.maxMessageSize = 1024 * 1024 := rfl
    simp only [greeting, Message.encode, List.length_cons, hmax]
    omega

theorem pex_sendable (o : IterOrder) {payload : Bytes}
    (h : payload.length + 2 ≤ Message.maxMessageSize) :
    Message.Sendable (o, .extension utPexExtId payload) := by
  refine ⟨show utPexExtId ≠ 0 by decide, ?_⟩
  simp only [Message.encode, List.length_cons]
  omega

theorem fromSeeder_sendable (hw : m.Wired) (hc : content.length = m.totalSize)
    {x : Message.Sending} (h : FromSeeder m content x.2) : Message.Sendable x := by
  obtain ⟨o, message⟩ := x
  have hmax : Message.maxMessageSize = 1024 * 1024 := rfl
  cases h with
  | hello => exact hello_sendable hw o
  | pex hsize => exact pex_sendable o hsize
  | @piece b hb =>
    obtain ⟨hindex, hoffset, -⟩ := block_bounds hw hb
    have hlen := length_block hw hc hb
    have hsize : b.len ≤ 16 * 1024 := hb.size
    refine ⟨⟨hindex, hoffset, hlen.symm⟩, ?_⟩
    simp only [Message.encode, List.length_cons, List.length_append, length_u32Bytes, hlen, hmax]
    omega
  | _ => exact ⟨trivial, Nat.one_le_two_pow (n := 20)⟩

theorem fromLeecher_sendable (hw : m.Wired) {x : Message.Sending} (h : FromLeecher m x.2) :
    Message.Sendable x := by
  obtain ⟨o, message⟩ := x
  have hmax : Message.maxMessageSize = 1024 * 1024 := rfl
  cases h with
  | hello => exact hello_sendable hw o
  | pex hsize => exact pex_sendable o hsize
  | @bitfield bits hbits =>
    refine ⟨trivial, ?_⟩
    have hsize := hw.bits
    simp only [Message.encode, List.length_cons, hbits]
    omega
  | @havePiece i hi =>
    obtain ⟨hpiece, hstart, hpos⟩ := hw.divided.pieces i hi
    refine ⟨(hw.narrow i _ hi hpiece (by omega)).1, ?_⟩
    simp only [Message.encode, List.length_cons, length_u32Bytes, hmax]
    omega
  | @request b hb =>
    refine ⟨block_bounds hw hb, ?_⟩
    simp only [Message.encode, Message.encodeRange, List.length_cons, List.length_append,
      length_u32Bytes, hmax]
    omega
  | _ => exact ⟨trivial, Nat.one_le_two_pow (n := 20)⟩

theorem arrival_same {x : Message.Sending} (h : Message.Sendable x) :
    ∃ message, arrival x = some message ∧ Message.Same x.2 message := by
  obtain ⟨message, hread, hsame⟩ := Message.readFrom_frame h []
  refine ⟨message, ?_, hsame⟩
  rw [List.append_nil] at hread
  unfold arrival
  rw [hread]
  rfl

end Transfer

end Tortue
