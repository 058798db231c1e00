import Tortue.Domain.Swarm.Geometry

namespace Tortue

open Collections

namespace Piece

def Completable (p : Piece) : Prop :=
  ∀ sha1 data, data.length = p.length → sha1 data = p.expectedHash →
    (p.fill sha1 data).isComplete = true

theorem completable_new (hash : PieceHash) {len : Nat} (hlen : 0 < len) :
    Completable (.new hash len) := by
  intro sha1 data hdata hhash
  have heq : len = data.length := hdata.symm
  subst heq
  have hgood : sha1 data = hash := hhash
  rw [fill_new sha1 hash hlen, if_pos hgood]
  rfl

end Piece

namespace Metainfo

open PieceManager

structure SoundGeometry (m : Metainfo) (pm : PieceManager) : Prop where
  bounds : ∀ p ∈ pm.pieces, 1 ≤ p.length ∧ p.length ≤ m.pieceLength
  full : ∀ i p, pm.pieces[i]? = some p → i + 1 < m.pieces.length → p.length = m.pieceLength
  total : (pm.pieces.map Piece.length).sum = m.totalSize
  blocks : ∀ p ∈ pm.pieces, 0 < p.blocksTotal
  completable : ∀ p ∈ pm.pieces, p.Completable

theorem accepted_bounds {sha1 : Sha1} {data : Bytes} {m : Metainfo} (h : tryFrom sha1 data = .ok m)
    (hprod : m.pieceLength * m.pieces.length < 2 ^ 64) :
    0 < m.pieces.length ∧ 0 < m.pieceLength ∧
      m.totalSize < (m.pieces.length - 1) * m.pieceLength + m.pieceLength := by
  have hvalid := ((validate_ok_iff m).mp (tryFrom_validates h)).1
  rw [wrap_of_lt hprod] at hvalid
  have hpos : 0 < m.pieceLength * m.pieces.length := Nat.zero_lt_of_lt hvalid
  have hn : 0 < m.pieces.length := Nat.pos_of_mul_pos_left hpos
  refine ⟨hn, Nat.pos_of_mul_pos_right hpos, ?_⟩
  obtain ⟨n, hn'⟩ := Nat.exists_eq_succ_of_ne_zero hn.ne'
  rw [hn'] at hvalid ⊢
  rw [Nat.mul_comm, Nat.succ_mul] at hvalid
  simpa using hvalid

theorem lastStart_exact {m : Metainfo} (hprod : m.pieceLength * m.pieces.length < 2 ^ 64) :
    wrap ((m.pieces.length - 1) * m.pieceLength) = (m.pieces.length - 1) * m.pieceLength := by
  refine wrap_of_lt (lt_of_le_of_lt ?_ hprod)
  rw [Nat.mul_comm m.pieceLength]
  exact Nat.mul_le_mul_right _ (Nat.sub_le ..)

theorem pieceLengthAt_last {m : Metainfo} (hprod : m.pieceLength * m.pieces.length < 2 ^ 64) :
    pieceLengthAt m (m.pieces.length - 1) =
      if (m.pieces.length - 1) * m.pieceLength ≤ m.totalSize
      then some (m.totalSize - (m.pieces.length - 1) * m.pieceLength) else none := by
  unfold pieceLengthAt
  rw [if_pos rfl, lastStart_exact hprod]

theorem geometry_sound_iff {sha1 : Sha1} {data : Bytes} {m : Metainfo}
    (h : tryFrom sha1 data = .ok m) (hprod : m.pieceLength * m.pieces.length < 2 ^ 64) :
    (∃ pm, PieceManager.new m = some pm ∧ SoundGeometry m pm) ↔ m.ReachesLast := by
  obtain ⟨hn, hpl, htotal⟩ := accepted_bounds h hprod
  have hlast := pieceLengthAt_last hprod
  unfold ReachesLast
  constructor
  · rintro ⟨pm, hnew, hsound⟩
    obtain ⟨hlength, -, hspec⟩ := new_spec hnew
    have hlt : m.pieces.length - 1 < pm.pieces.length := by omega
    obtain ⟨hash, len, -, hlen, hp⟩ := hspec _ _ (List.getElem?_eq_getElem hlt)
    have hpos := (hsound.bounds _ (List.getElem_mem hlt)).1
    rw [hp] at hpos
    rw [hlen] at hlast
    split_ifs at hlast
    rw [Option.some.injEq] at hlast
    simp only [Piece.new] at hpos
    omega
  · intro hreach
    rw [if_pos hreach.le] at hlast
    obtain ⟨pm, hnew⟩ := (new_isSome_iff m).mpr fun i hi => by
      by_cases hil : i + 1 < m.pieces.length
      · exact ⟨_, pieceLengthAt_full hil⟩
      · have hieq : i = m.pieces.length - 1 := by omega
        exact ⟨_, hieq ▸ hlast⟩
    obtain ⟨hlength, -, hspec⟩ := new_spec hnew
    have hpieces : ∀ p ∈ pm.pieces, ∃ hash len, p = Piece.new hash len ∧ 1 ≤ len ∧
        len ≤ m.pieceLength := by
      intro p hp
      obtain ⟨i, hp⟩ := List.mem_iff_getElem?.mp hp
      obtain ⟨hash, len, -, hlen, rfl⟩ := hspec i p hp
      refine ⟨hash, len, rfl, ?_⟩
      by_cases hil : i + 1 < m.pieces.length
      · rw [pieceLengthAt_full hil, Option.some.injEq] at hlen
        omega
      · have hi : i < m.pieces.length := hlength ▸ (List.getElem?_eq_some_iff.mp hp).1
        have hieq : i = m.pieces.length - 1 := by omega
        rw [hieq, hlast, Option.some.injEq] at hlen
        omega
    refine ⟨pm, hnew, fun p hp => ?_, fun i p hp hi => ?_, ?_, fun p hp => ?_, fun p hp => ?_⟩
    · obtain ⟨hash, len, rfl, hbounds⟩ := hpieces p hp
      exact hbounds
    · obtain ⟨hash, len, -, hlen, rfl⟩ := hspec i p hp
      rw [pieceLengthAt_full hi, Option.some.injEq] at hlen
      exact hlen.symm
    · rw [lengths_eq (described_new hnew) hn hlast]
      simp
      omega
    · obtain ⟨hash, len, rfl, hpos, -⟩ := hpieces p hp
      exact Bitfield.divCeil_pos hpos blockSize_pos
    · obtain ⟨hash, len, rfl, hpos, -⟩ := hpieces p hp
      exact Piece.completable_new hash hpos

def fiveBytes (hashes : Nat) : Bytes :=
  ByteStr "d8:announce1:u4:infod6:lengthi5e4:name1:n12:piece lengthi10e6:pieces" ++
    decimal (20 * hashes) ++ [ascii ':'] ++ List.replicate (20 * hashes) 0 ++ ByteStr "ee"

theorem fiveBytes_accepted {hashes : Nat} (h : (tryFrom Sample.sha1 (fiveBytes hashes)).toOption.map
    (fun m => (m.pieceLength, m.pieces.length, m.mode)) = some (10, hashes, .single 5)) :
    ∃ m, tryFrom Sample.sha1 (fiveBytes hashes) = .ok m ∧ m.pieceLength = 10 ∧
      m.pieces.length = hashes ∧ m.mode = .single 5 := by
  cases hm : tryFrom Sample.sha1 (fiveBytes hashes) with
  | error e =>
    rw [hm] at h
    contradiction
  | ok m =>
    rw [hm] at h
    simp only [Except.toOption, Option.map_some, Option.some.injEq, Prod.mk.injEq] at h
    exact ⟨m, rfl, h.1, h.2.1, h.2.2⟩

theorem one_hash_geometry_sound : ∃ m pm, tryFrom Sample.sha1 (fiveBytes 1) = .ok m ∧
    PieceManager.new m = some pm ∧ SoundGeometry m pm := by
  obtain ⟨m, hm, hpl, hn, hmode⟩ : ∃ m, tryFrom Sample.sha1 (fiveBytes 1) = .ok m ∧ _ :=
    fiveBytes_accepted (by decide +kernel)
  obtain ⟨pm, hnew, hsound⟩ := (geometry_sound_iff hm (by rw [hpl, hn]; decide)).mpr (by
    unfold ReachesLast
    rw [hpl, hn, totalSize, hmode]
    decide)
  exact ⟨m, pm, hm, hnew, hsound⟩

theorem three_hashes_underflow : ¬ ∀ sha1 data m, tryFrom sha1 data = .ok m →
    m.fileLengths.sum < 2 ^ 64 → m.pieceLength * m.pieces.length < 2 ^ 64 →
      ∃ pm, PieceManager.new m = some pm ∧ SoundGeometry m pm := by
  intro hall
  obtain ⟨m, hm, hpl, hn, hmode⟩ : ∃ m, tryFrom Sample.sha1 (fiveBytes 3) = .ok m ∧ _ :=
    fiveBytes_accepted (by decide +kernel)
  have hprod : m.pieceLength * m.pieces.length < 2 ^ 64 := by
    rw [hpl, hn]
    decide
  have hsum : m.fileLengths.sum < 2 ^ 64 := by
    rw [fileLengths, hmode]
    decide
  obtain ⟨pm, hnew, -⟩ := hall _ _ m hm hsum hprod
  obtain ⟨len, hlen⟩ := (new_isSome_iff m).mp ⟨pm, hnew⟩ 2 (by omega)
  have hlast := pieceLengthAt_last hprod
  have htotal : m.totalSize = 5 := by rw [totalSize, hmode]
  rw [hn, hpl, htotal, hlen] at hlast
  simp at hlast

end Metainfo

end Tortue
