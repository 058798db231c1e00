import Tortue.Domain.Parsing
import Tortue.Domain.Swarm.Frame

namespace Tortue

namespace Metainfo

def Utf8Text (b : Bencode) (s : String) : Prop :=
  ∃ bytes, b = .bytes bytes ∧ fromUtf8 bytes = some s

def FileEntry (b : Bencode) (f : File) : Prop :=
  (∃ n, b.get "length" = .ok (.int n) ∧ n.toInt = f.length) ∧
    ∃ path, b.get "path" = .ok (.list path) ∧ List.Forall₂ Utf8Text path f.path

def Content (info : Bencode) (total : Nat) : Prop :=
  (∃ n, info.get "length" = .ok (.int n) ∧ n.toInt = total) ∨
    (∃ e, info.get "length" = .error e) ∧ ∃ entries files, info.get "files" = .ok (.list entries) ∧
      List.Forall₂ FileEntry entries files ∧ (files.map File.length).sum = total

structure Coherent (info : Bencode) (pieceLength total : Nat) : Prop where
  name : ∃ b s, info.get "name" = .ok b ∧ Utf8Text b s
  piece_length : ∃ n, info.get "piece length" = .ok (.int n) ∧ n.toInt = pieceLength
  piece_length_pos : 0 < pieceLength
  content : Content info total
  content_pos : 0 < total
  content_le : total ≤ maxTorrentSize
  hashes : ∃ b, info.get "pieces" = .ok (.bytes b) ∧
    b.length = pieceHashLen * Bitfield.divCeil total pieceLength
  capacity_lt : pieceLength * Bitfield.divCeil total pieceLength < 2 ^ 64

theorem toNat_of {n : Int64} {k : Nat} (h : n.toInt = k) : toNat n = .ok k := by
  rw [toNat, if_neg (by omega), h, Int.toNat_natCast]

theorem bytesToStr_of {b : Bencode} {s : String} (h : Utf8Text b s) : bytesToStr b = some s := by
  obtain ⟨bytes, rfl, hs⟩ := h
  exact hs

theorem parsePathComponent_of {b : Bencode} {s : String} (h : Utf8Text b s) :
    parsePathComponent b = .ok s := by
  rw [parsePathComponent, bytesToStr_of h]

theorem parseFile_of {b : Bencode} {f : File} (h : FileEntry b f) : parseFile b = .ok f := by
  obtain ⟨⟨n, hlength, hn⟩, path, hpath, hutf8⟩ := h
  have hcomponents : path.mapM parsePathComponent = .ok f.path :=
    Except.mapM_eq_ok (hutf8.imp fun _ _ => parsePathComponent_of)
  simp only [parseFile, Except.bind_eq_ok, liftBencode_eq_ok, Bencode.getInt_eq_ok]
  refine ⟨n, hlength, f.length, toNat_of hn, path, ?_, f.path, hcomponents, rfl⟩
  rw [Bencode.getList, Except.bind_eq_ok]
  exact ⟨_, hpath, rfl⟩

theorem parseMode_of {info : Bencode} {total : Nat} (h : Content info total)
    (hbound : total < 2 ^ 64) :
    ∃ mode, parseMode info = .ok mode ∧ ∀ m : Metainfo, m.mode = mode → m.totalSize = total := by
  rcases h with ⟨n, hlength, hn⟩ | ⟨⟨e, hnone⟩, entries, files, hfiles, hentries, hsum⟩
  · refine ⟨.single total, ?_, fun m hm => ?_⟩
    · rw [parseMode, hlength]
      simp only [toNat_of hn]
      rfl
    · rw [totalSize, hm]
  · refine ⟨.multiple files, ?_, fun m hm => ?_⟩
    · have hparsed : entries.mapM parseFile = .ok files :=
        Except.mapM_eq_ok (hentries.imp fun _ _ => parseFile_of)
      rw [parseMode, hnone]
      simp only [Except.bind_eq_ok, liftBencode_eq_ok]
      refine ⟨entries, ?_, ?_⟩
      · rw [Bencode.getList, Except.bind_eq_ok]
        exact ⟨_, hfiles, rfl⟩
      · rw [hparsed]
        rfl
    · rw [totalSize, hm]
      simp only [hsum, wrap_of_lt hbound]

theorem length_parsePieces {b : Bytes} {n : Nat} (h : b.length = pieceHashLen * n) :
    ∃ pieces, parsePieces b = .ok pieces ∧ pieces.length = n := by
  refine ⟨chunksExact pieceHashLen b, ?_, ?_⟩
  · rw [parsePieces, if_neg (by rw [h, Nat.mul_mod_right]; simp)]
  · refine (length_chunksExact pieceHashLen b).trans ?_
    rw [h, Nat.mul_div_cancel_left n (by decide)]

theorem parseInfo_of {info : Bencode} {pieceLength total : Nat}
    (h : Coherent info pieceLength total) :
    ∃ name pieces mode, parseInfo info = .ok (name, pieceLength, pieces, mode) ∧
      pieces.length = Bitfield.divCeil total pieceLength ∧
      ∀ m : Metainfo, m.mode = mode → m.totalSize = total := by
  obtain ⟨_, name, hname, bytes, rfl, hutf8⟩ := h.name
  obtain ⟨n, hn, hpieceLength⟩ := h.piece_length
  obtain ⟨b, hb, hlength⟩ := h.hashes
  obtain ⟨pieces, hpieces, hcount⟩ := length_parsePieces hlength
  have hbound : total < 2 ^ 64 := h.content_le.trans_lt (by decide)
  obtain ⟨mode, hmode, hsize⟩ := parseMode_of h.content hbound
  refine ⟨name, pieces, mode, ?_, hcount, hsize⟩
  simp only [parseInfo, Except.bind_eq_ok, liftBencode_eq_ok, Bencode.getUtf8_eq_ok,
    Bencode.getInt_eq_ok, Bencode.getBytes_eq_ok]
  exact ⟨name, ⟨bytes, hname, hutf8⟩, n, hn, pieceLength, toNat_of hpieceLength, b, hb, pieces,
    hpieces, mode, hmode, rfl⟩

theorem lt_mul_divCeil_iff {a b : Nat} (hb : 0 < b) : a < b * Bitfield.divCeil a b ↔ ¬ b ∣ a := by
  rw [Bitfield.divCeil]
  constructor
  · rintro h ⟨k, rfl⟩
    have hk : (b * k + b - 1) / b = k := by
      refine Nat.div_eq_of_lt_le ?_ ?_
      · rw [Nat.mul_comm]
        omega
      · rw [Nat.succ_mul, Nat.mul_comm]
        omega
    rw [hk] at h
    exact Nat.lt_irrefl _ h
  · intro h
    have hmod : 0 < a % b := Nat.pos_of_ne_zero fun hz => h (Nat.dvd_of_mod_eq_zero hz)
    have hlt := Nat.mod_lt a hb
    have hsplit := Nat.div_add_mod a b
    have hk : (a + b - 1) / b = a / b + 1 := by
      refine Nat.div_eq_of_lt_le ?_ ?_
      · rw [Nat.succ_mul, Nat.mul_comm]
        omega
      · rw [Nat.succ_mul, Nat.succ_mul, Nat.mul_comm]
        omega
    rw [hk, Nat.mul_succ]
    omega

theorem coherent_accepted_iff {sha1 : Sha1} {root info : Bencode} {url : String}
    {pieceLength total : Nat} (hroot : root.WellFormed)
    (hannounce : root.getUtf8 "announce" = .ok url) (hinfo : root.get "info" = .ok info)
    (h : Coherent info pieceLength total) :
    (∃ m, tryFrom sha1 root.encode = .ok m) ↔ ¬ pieceLength ∣ total := by
  obtain ⟨name, pieces, mode, hparts, hcount, hsize⟩ := parseInfo_of h
  obtain ⟨announce, hannounces⟩ := parseAnnounces_ok hannounce
  have hvalid : (assemble sha1 root announce info (name, pieceLength, pieces, mode)).validate =
      .ok () ↔ ¬ pieceLength ∣ total := by
    rw [validate_ok_iff, hsize _ rfl]
    simp only [assemble, hcount, wrap_of_lt h.capacity_lt, h.content_le, and_true]
    exact lt_mul_divCeil_iff h.piece_length_pos
  rw [← hvalid]
  constructor
  · rintro ⟨m, hm⟩
    obtain ⟨root', announce', info', parts', hroot', hannounce', hinfo', hparts', hvalid', -⟩ :=
      tryFrom_eq_ok.mp hm
    rw [Bencode.decode_encode hroot, Except.ok.injEq] at hroot'
    subst hroot'
    rw [hinfo, Except.ok.injEq] at hinfo'
    subst hinfo'
    rw [hparts, Except.ok.injEq] at hparts'
    rw [hannounces, Except.ok.injEq] at hannounce'
    rw [hparts', hannounce']
    exact hvalid'
  · intro hok
    exact ⟨_, tryFrom_eq_ok.mpr ⟨root, announce, info, _, Bencode.decode_encode hroot, hannounces,
      hinfo, hparts, hok, rfl⟩⟩

end Metainfo

namespace Sample

def info (total : Int64) : Bencode :=
  .dict [(ByteStr "length", .int total), (ByteStr "name", .bytes (ByteStr "n")),
    (ByteStr "piece length", .int 10), (ByteStr "pieces", .bytes (List.replicate 20 0))]

def root (info : Bencode) : Bencode :=
  .dict [(ByteStr "announce", .bytes (ByteStr "u")), (ByteStr "info", info)]

theorem info_coherent {total : Int64} (hpos : 0 < total.toInt) (hle : total.toInt ≤ 10) :
    Metainfo.Coherent (info total) 10 total.toInt.toNat where
  name := ⟨_, "n", Bencode.get_eq_ok.mpr ⟨_, rfl, rfl⟩, _, rfl, by decide +kernel⟩
  piece_length := ⟨10, Bencode.get_eq_ok.mpr ⟨_, rfl, rfl⟩, rfl⟩
  piece_length_pos := by decide
  content := .inl ⟨total, Bencode.get_eq_ok.mpr ⟨_, rfl, rfl⟩, by omega⟩
  content_pos := by omega
  content_le := by
    simp only [Metainfo.maxTorrentSize]
    omega
  hashes := by
    have hone : Bitfield.divCeil total.toInt.toNat 10 = 1 := by
      rw [Bitfield.divCeil]
      omega
    exact ⟨_, Bencode.get_eq_ok.mpr ⟨_, rfl, rfl⟩, by rw [hone, List.length_replicate]; rfl⟩
  capacity_lt := by
    rw [Bitfield.divCeil]
    omega

theorem root_wellFormed (total : Int64) : (root (info total)).WellFormed := by
  simp only [root, info, Bencode.WellFormed, Bencode.WellFormedEntries, List.forall_mem_cons,
    List.not_mem_nil, false_imp_iff, implies_true]
  decide

theorem root_announce (info : Bencode) : (root info).getUtf8 "announce" = .ok "u" :=
  Bencode.getUtf8_eq_ok.mpr ⟨_, Bencode.get_eq_ok.mpr ⟨_, rfl, rfl⟩, by decide +kernel⟩

theorem root_info (info : Bencode) : (root info).get "info" = .ok info :=
  Bencode.get_eq_ok.mpr ⟨_, rfl, rfl⟩

end Sample

namespace Metainfo

theorem short_last_piece_accepted :
    (∃ m, tryFrom Sample.sha1 (Sample.root (Sample.info 5)).encode = .ok m) ↔ ¬ 10 ∣ 5 :=
  coherent_accepted_iff (Sample.root_wellFormed 5) (Sample.root_announce _) (Sample.root_info _)
    (Sample.info_coherent (by decide) (by decide))

theorem full_last_piece_rejected : ¬ ∀ (sha1 : Sha1) (root info : Bencode) (url : String)
    (pieceLength total : Nat), root.WellFormed → root.getUtf8 "announce" = .ok url →
      root.get "info" = .ok info → Coherent info pieceLength total →
        ∃ m, tryFrom sha1 root.encode = .ok m := by
  intro hall
  obtain ⟨m, hm⟩ := hall Sample.sha1 _ _ "u" 10 10 (Sample.root_wellFormed 10)
    (Sample.root_announce _) (Sample.root_info _) (Sample.info_coherent (by decide) (by decide))
  have hrejected : (tryFrom Sample.sha1 (Sample.root (Sample.info 10)).encode).toOption = none := by
    decide +kernel
  rw [hm] at hrejected
  contradiction

end Metainfo

end Tortue
