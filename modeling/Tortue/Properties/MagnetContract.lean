import Tortue.Application.Magnet
import Tortue.Domain.MetadataFetch
import Tortue.Properties.Coherence

namespace Tortue

open Collections

namespace Bencode

theorem encode_length_le_of_mem {key : Bytes} {v : Bencode} {entries : List (Bytes × Bencode)}
    (h : (key, v) ∈ entries) : v.encode.length ≤ (encodeEntries entries).length := by
  induction entries with
  | nil => contradiction
  | cons e entries ih =>
    obtain ⟨k, w⟩ := e
    simp only [encodeEntries, List.length_append]
    rcases List.mem_cons.mp h with heq | hmem
    · obtain ⟨-, rfl⟩ := Prod.mk.inj heq
      omega
    · have hle := ih hmem
      omega

theorem encode_ne_nil (b : Bencode) : b.encode ≠ [] := by
  cases b <;> simp [encode, encodeBytes]

theorem encode_length_lt_of_get {b v : Bencode} {key : String} (h : b.get key = .ok v) :
    v.encode.length < b.encode.length := by
  obtain ⟨entries, rfl, hget⟩ := get_eq_ok.mp h
  obtain ⟨e, he, rfl⟩ := Option.map_eq_some_iff.mp hget
  have hle := encode_length_le_of_mem (List.mem_of_find?_eq_some he)
  simp only [encode, List.length_cons, List.length_append]
  omega

end Bencode

namespace Application

variable {sha1 : Sha1} {info : Bencode}

theorem metainfoOf_shorter (hinfo : info.WellFormed) {m : Metainfo}
    (h : metainfoOf sha1 info.encode = .ok m) : m.infoBytes.length < info.encode.length := by
  have hm : Metainfo.tryFrom sha1 info.encode = .ok m := by
    rw [metainfoOf] at h
    split at h
    · rename_i m' hm'
      exact hm'.trans (congrArg Except.ok (Except.ok.inj h))
    · contradiction
  obtain ⟨root, announce, inner, parts, hroot, -, hinner, -, -, rfl⟩ := Metainfo.tryFrom_eq_ok.mp hm
  rw [Bencode.decode_encode hinfo, Except.ok.injEq] at hroot
  rw [← hroot] at hinner
  exact Bencode.encode_length_lt_of_get hinner

theorem fetch_completes (hlt : info.encode.length < 2 ^ 64) (parse : String → Option SocketAddr)
    {magnet : MagnetLink} (hmagnet : magnet.infoHash = sha1 info.encode) (addr : SocketAddr) :
    ∃ received, MetadataIo.run sha1 parse magnet received = some (.ok info.encode) := by
  let hs : ExtensionHandshake :=
    ⟨HashMap.empty.insert "ut_metadata" utMetadataExtId, some info.encode.length⟩
  have hid : hs.extensions.get "ut_metadata" = some utMetadataExtId := HashMap.get_insert_self ..
  let ds : List (Nat × IterOrder) :=
    (List.range (Metadata.blockCount info.encode)).map (·, .insertion)
  have hpieces : ds.map Prod.fst = List.range (Metadata.blockCount info.encode) := by
    simp [ds, Function.comp_def]
  have hbound : ∀ d ∈ ds, d.1 < 2 ^ 64 := by
    intro d hd
    have hmem : d.1 ∈ ds.map Prod.fst := List.mem_map_of_mem hd
    rw [hpieces, List.mem_range] at hmem
    exact (Metadata.piece_lt_length hmem).trans hlt
  refine ⟨((.messageReceived addr (.extensionHandshake hs), .insertion) ::
    ds.map (Metadata.reply info.encode addr)).map MetadataIo.delivered, ?_⟩
  rw [MetadataIo.run_eq_runLoop, MetadataIo.runLoop_delivered, hmagnet]
  have hcover : ∀ piece < Metadata.blockCount info.encode, piece ∈ ds.map Prod.fst := by
    intro piece hpiece
    rw [hpieces]
    exact List.mem_range.mpr hpiece
  rw [MetadataIo.findSome_raw
    (Metadata.first_fetch_done hlt info.encode_ne_nil hid rfl hbound hcover)
    fun b => Metadata.first_fetch_only hlt hid rfl hbound]
  rfl

-- The contract of `fetch_metadata`: the fetched bytes give the torrent that the magnet names.
def YieldsTorrent (sha1 : Sha1) (parse : String → Option SocketAddr) (info : Bencode)
    (magnet : MagnetLink) (received : List (MetadataIo.Received × IterOrder)) : Prop :=
  ∃ m, fetchMetadata sha1 parse magnet received = some (.ok m) ∧
    m.infoHash = magnet.infoHash ∧ m.infoBytes = info.encode

theorem not_yields (hinfo : info.WellFormed) {parse : String → Option SocketAddr}
    {magnet : MagnetLink} {received : List (MetadataIo.Received × IterOrder)}
    (hdone : MetadataIo.run sha1 parse magnet received = some (.ok info.encode)) :
    ¬ YieldsTorrent sha1 parse info magnet received := by
  rintro ⟨m, hm, -, hbytes⟩
  simp only [fetchMetadata, hdone, Option.some.injEq] at hm
  have hlt := metainfoOf_shorter hinfo hm
  rw [hbytes] at hlt
  exact Nat.lt_irrefl _ hlt

theorem magnet_never_yields (hinfo : info.WellFormed) (hlt : info.encode.length < 2 ^ 64)
    (parse : String → Option SocketAddr) {magnet : MagnetLink}
    (hmagnet : magnet.infoHash = sha1 info.encode) :
    (∃ received, MetadataIo.run sha1 parse magnet received = some (.ok info.encode)) ∧
      ∀ received, MetadataIo.run sha1 parse magnet received = some (.ok info.encode) →
        ¬ YieldsTorrent sha1 parse info magnet received :=
  ⟨fetch_completes hlt parse hmagnet (.v4 ⟨[127, 0, 0, 1], rfl⟩ 80),
    fun _ hdone => not_yields hinfo hdone⟩

end Application

namespace Sample

def magnet (info : Bencode) : MagnetLink := ⟨sha1 info.encode, [], none, []⟩

theorem info_wellFormed (total : Int64) : (info total).WellFormed := by
  simp only [info, Bencode.WellFormed, Bencode.WellFormedEntries, List.forall_mem_cons,
    List.not_mem_nil, false_imp_iff, implies_true]
  decide

end Sample

namespace Application

theorem sample_magnet_never_yields :
    (∃ received, MetadataIo.run Sample.sha1 (fun _ => none) (Sample.magnet (Sample.info 5))
      received = some (.ok (Sample.info 5).encode)) ∧
    ∀ received, MetadataIo.run Sample.sha1 (fun _ => none) (Sample.magnet (Sample.info 5))
      received = some (.ok (Sample.info 5).encode) →
        ¬ YieldsTorrent Sample.sha1 (fun _ => none) (Sample.info 5)
          (Sample.magnet (Sample.info 5)) received :=
  magnet_never_yields (Sample.info_wellFormed 5) (by decide +kernel) (fun _ => none) rfl

theorem accepted_info_not_yielded : ¬ ∀ (sha1 : Sha1) (parse : String → Option SocketAddr)
    (root info : Bencode) (m : Metainfo) (pieceLength total : Nat), info.WellFormed →
      root.get "info" = .ok info → Metainfo.Coherent info pieceLength total →
      Metainfo.tryFrom sha1 root.encode = .ok m → ∀ magnet : MagnetLink,
        magnet.infoHash = sha1 info.encode → ∀ received,
          MetadataIo.run sha1 parse magnet received = some (.ok info.encode) →
            YieldsTorrent sha1 parse info magnet received := by
  intro hall
  have haccepted : (Metainfo.tryFrom Sample.sha1
      (Sample.root (Sample.info 5)).encode).toOption.isSome = true := by decide +kernel
  cases hm : Metainfo.tryFrom Sample.sha1 (Sample.root (Sample.info 5)).encode with
  | error e =>
    rw [hm] at haccepted
    contradiction
  | ok m =>
    have hlt : (Sample.info 5).encode.length < 2 ^ 64 := by decide +kernel
    have hmagnet : (Sample.magnet (Sample.info 5)).infoHash = Sample.sha1 (Sample.info 5).encode :=
      rfl
    obtain ⟨received, hdone⟩ := fetch_completes hlt (fun _ => none) hmagnet (Sample.addr 80)
    exact not_yields (Sample.info_wellFormed 5) hdone
      (hall Sample.sha1 (fun _ => none) _ _ m 10 5 (Sample.info_wellFormed 5)
        (Sample.root_info _) (Sample.info_coherent (by decide) (by decide)) hm
        (Sample.magnet (Sample.info 5)) hmagnet received hdone)

end Application

end Tortue
