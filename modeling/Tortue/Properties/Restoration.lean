import Tortue.Properties.Integrity

namespace Tortue

open Collections

namespace PieceManager

def SettledTo (sha1 : Sha1) (hashes : List PieceHash) (content : Nat → Bytes) (n : Nat)
    (pm : PieceManager) : Prop :=
  ∀ i p, pm.pieces[i]? = some p → ∃ hash, hashes[i]? = some hash ∧
    p = if i < n ∧ sha1 (content i) = hash then ⟨(content i).length, hash, .complete⟩
      else .new hash (content i).length

variable {sha1 : Sha1} {content : Nat → Bytes} {hashes : List PieceHash} {n : Nat}
  {pm : PieceManager}

theorem settledTo_new {m : Metainfo} (h : PieceManager.new m = some pm)
    (hlen : ∀ i len, i < m.pieces.length → pieceLengthAt m i = some len →
      (content i).length = len) : SettledTo sha1 m.pieces content 0 pm := by
  obtain ⟨hlength, -, hspec⟩ := new_spec h
  intro i p hp
  have hi := (List.getElem?_eq_some_iff.mp hp).1
  obtain ⟨hash, len, hhash, hl, rfl⟩ := hspec i p hp
  refine ⟨hash, hhash, ?_⟩
  rw [if_neg (by simp), hlen i len (hlength ▸ hi) hl]

theorem SettledTo.length_eq (h : SettledTo sha1 hashes content n pm) {i : Nat} {p : Piece}
    (hp : pm.pieces[i]? = some p) : (content i).length = p.length := by
  obtain ⟨hash, -, rfl⟩ := h i p hp
  split <;> rfl

theorem settledTo_set {p : Piece} (h : SettledTo sha1 hashes content n pm)
    (hp : pm.pieces[n]? = some p) (hpos : 0 < (content n).length) {pm' : PieceManager}
    (hset : pm'.pieces = pm.pieces.set n (p.fill sha1 (content n))) :
    SettledTo sha1 hashes content (n + 1) pm' := by
  intro i q hq
  rw [hset, getElem?_set_piece hp] at hq
  split_ifs at hq with hin
  · subst hin
    rw [Option.some.injEq] at hq
    obtain ⟨hash, hhash, rfl⟩ := h i p hp
    refine ⟨hash, hhash, ?_⟩
    rw [← hq, if_neg (by omega), Piece.fill_new sha1 hash hpos]
    simp
  · obtain ⟨hash, hhash, rfl⟩ := h i q hq
    refine ⟨hash, hhash, ?_⟩
    have hiff : i < n + 1 ↔ i < n := by omega
    simp only [hiff]

theorem SettledTo.exact {i : Nat} {hash : PieceHash}
    (h : SettledTo sha1 hashes content pm.pieces.length pm)
    (hlength : pm.pieces.length = hashes.length) (hhash : hashes[i]? = some hash) :
    ∃ p, pm.pieces[i]? = some p ∧
      (p.isComplete = true ↔ sha1 (content i) = hash) ∧
      (p.isComplete = false → p.blocksReceived = 0 ∧ ∀ k, p.block k = none) := by
  have hi : i < pm.pieces.length := hlength ▸ (List.getElem?_eq_some_iff.mp hhash).1
  obtain ⟨hash', hhash', hp⟩ := h i _ (List.getElem?_eq_getElem hi)
  rw [hhash, Option.some.injEq] at hhash'
  subst hhash'
  refine ⟨_, List.getElem?_eq_getElem hi, ?_⟩
  rw [hp]
  by_cases hgood : sha1 (content i) = hash
  · rw [if_pos ⟨hi, hgood⟩]
    exact ⟨iff_of_true rfl hgood, fun hopen => by contradiction⟩
  · rw [if_neg fun h => hgood h.2]
    refine ⟨iff_of_false (by simp [Piece.isComplete, Piece.new]) hgood, fun _ => ⟨rfl, ?_⟩⟩
    exact Piece.block_new hash _

end PieceManager

namespace SwarmIo

open PieceManager

variable {sha1 : Sha1} {env : Entropy} {m : Metainfo} {files : List OutputFile}
  {clientId : PeerId} {fresh io : SwarmIo}

theorem restore_settles (hvalid : m.validate = .ok ()) (hsum : m.fileLengths.sum < 2 ^ 64)
    (hlaid : DiskStorage.Laid m files) (hnew : SwarmIo.new clientId m files = some fresh)
    (hrestore : fresh.restore sha1 env = .ok io) :
    Swarm.Reachable sha1 clientId m io.swarm ∧
      SettledTo sha1 m.pieces (pieceBytes m (DiskStorage.bytes files)) m.pieces.length
        io.swarm.pieces := by
  obtain ⟨hall, swarm, rfl, hsteps⟩ := restore_steps hnew hrestore
  have hdivided := restore_divided hvalid hsum hnew hall
  have hsize : (DiskStorage.bytes files).length = m.totalSize :=
    hlaid.length_bytes.trans hdivided.total.symm
  refine hsteps (fun n s => Swarm.Reachable sha1 clientId m s ∧
    SettledTo sha1 m.pieces (pieceBytes m (DiskStorage.bytes files)) n s.pieces)
    (fun s hs => ⟨History.reachable_start hs, settledTo_new (Swarm.started_fields hs).1
      fun i len hi hlen => length_pieceBytes hdivided hsize hi hlen⟩) ?_
  rintro s i data ⟨hreach, hsettled⟩ hi hdata
  refine ⟨hreach.next _, ?_⟩
  obtain ⟨h, hist⟩ := hreach
  have hmarked := Swarm.history_marked hist
  have hp := List.getElem?_eq_getElem (hmarked.count.symm ▸ hi : i < s.pieces.pieces.length)
  rw [restore_reads hdivided hsum hlaid hnew hi hdata]
  refine settledTo_set hsettled hp ?_ ?_
  · rw [length_pieceBytes hdivided hsize hi (hdivided.pieces i hi).1]
    exact (hdivided.piece_fits hi (hdivided.pieces i hi).1).1
  · exact Swarm.onLocalPiece_pieces hp (hmarked.sound.pieces i _ hp) (hsettled.length_eq hp)

theorem restore_finds_valid_pieces {torrent : Bytes}
    (htorrent : Metainfo.tryFrom sha1 torrent = .ok m) (hsum : m.fileLengths.sum < 2 ^ 64)
    (hlaid : DiskStorage.Laid m files)
    (hnew : SwarmIo.new clientId m files = some fresh)
    (hrestore : fresh.restore sha1 env = .ok io) :
    io.swarm.pieces.pieces.length = m.pieces.length ∧
    (∀ i hash, m.pieces[i]? = some hash → ∃ p, io.swarm.pieces.pieces[i]? = some p ∧
      (p.isComplete = true ↔ sha1 (pieceBytes m (DiskStorage.bytes files) i) = hash) ∧
      (p.isComplete = false → p.blocksReceived = 0 ∧ ∀ k, p.block k = none)) ∧
    ∀ i, i ∈ io.swarm.pieces.bitfield.iter ↔ io.swarm.pieces.CompleteAt i := by
  obtain ⟨⟨h, hist⟩, hsettled⟩ :=
    restore_settles (Metainfo.tryFrom_validates htorrent) hsum hlaid hnew hrestore
  have hmarked := Swarm.history_marked hist
  refine ⟨hmarked.count, fun i hash hhash => ?_, fun i => ?_⟩
  · refine SettledTo.exact ?_ hmarked.count hhash
    rw [hmarked.count]
    exact hsettled
  · rw [Bitfield.mem_iter]
    exact hmarked.marks i

end SwarmIo

namespace Sample

def parted : Bytes :=
  ByteStr "d8:announce1:u4:infod5:filesl" ++ ByteStr "d6:lengthi3e4:pathl1:aee" ++
    ByteStr "d6:lengthi4e4:pathl1:beee4:name1:n12:piece lengthi5e6:pieces40:" ++
    List.replicate 20 0 ++ List.replicate 20 2 ++ ByteStr "ee"

def partedFiles : List OutputFile := [⟨[1, 2, 3], 3, 0⟩, ⟨[4, 5, 9, 9], 4, 3⟩]

def restored (m : Metainfo) : Option SwarmIo :=
  (SwarmIo.new (peerId 1) m partedFiles).bind fun io => (io.restore contentSha1 env).toOption

def partedBytes (m : Metainfo) (i : Nat) : Bytes :=
  pieceBytes m (DiskStorage.bytes partedFiles) i

theorem parted_accepted : ∃ m, Metainfo.tryFrom contentSha1 parted = .ok m ∧
    m.fileLengths = [3, 4] ∧ m.pieces = [octets 0, octets 2] ∧
    contentSha1 (partedBytes m 0) = octets 0 ∧ contentSha1 (partedBytes m 1) ≠ octets 2 ∧
    (restored m).isSome = true := by
  have hchecked : (Metainfo.tryFrom contentSha1 parted).toOption.any (fun m =>
      decide (m.fileLengths = [3, 4] ∧ m.pieces = [octets 0, octets 2] ∧
        contentSha1 (partedBytes m 0) = octets 0 ∧ contentSha1 (partedBytes m 1) ≠ octets 2 ∧
        (restored m).isSome = true)) = true := by
    decide +kernel
  obtain ⟨m, hm, hfacts⟩ := Except.exists_ok hchecked
  exact ⟨m, hm, of_decide_eq_true hfacts⟩

theorem partedFiles_laid {m : Metainfo} (h : m.fileLengths = [3, 4]) :
    DiskStorage.Laid m partedFiles := by
  refine ⟨by rw [h]; rfl, ?_, rfl, rfl, trivial⟩
  decide

theorem restored_eq_some {m : Metainfo} {io : SwarmIo} (h : restored m = some io) :
    ∃ fresh, SwarmIo.new (peerId 1) m partedFiles = some fresh ∧
      fresh.restore contentSha1 env = .ok io := by
  obtain ⟨fresh, hnew, hrestore⟩ := Option.bind_eq_some_iff.mp h
  exact ⟨fresh, hnew, Except.toOption_eq_some.mp hrestore⟩

end Sample

namespace SwarmIo

open PieceManager

theorem valid_piece_restored : ∃ m io,
    Metainfo.tryFrom Sample.contentSha1 Sample.parted = .ok m ∧ m.fileLengths = [3, 4] ∧
      Started Sample.contentSha1 (Sample.peerId 1) m io ∧
      0 ∈ io.swarm.pieces.bitfield.iter ∧ 1 ∉ io.swarm.pieces.bitfield.iter ∧
      ∃ p, io.swarm.pieces.pieces[1]? = some p ∧ p.blocksReceived = 0 := by
  obtain ⟨m, hm, hlengths, hhashes, hvalid, hinvalid, hsome⟩ := Sample.parted_accepted
  obtain ⟨io, hio⟩ := Option.isSome_iff_exists.mp hsome
  obtain ⟨fresh, hnew, hrestore⟩ := Sample.restored_eq_some hio
  have hlaid := Sample.partedFiles_laid hlengths
  obtain ⟨-, hpieces, hbits⟩ := restore_finds_valid_pieces hm (by rw [hlengths]; decide) hlaid
    hnew hrestore
  obtain ⟨p, hp, hcomplete, -⟩ := hpieces 0 (Sample.octets 0) (by rw [hhashes]; rfl)
  obtain ⟨q, hq, hopen, hblank⟩ := hpieces 1 (Sample.octets 2) (by rw [hhashes]; rfl)
  have hmissing : q.isComplete = false := Bool.eq_false_iff.mpr (mt hopen.mp hinvalid)
  refine ⟨m, io, hm, hlengths, ⟨_, fresh, _, hlaid, hnew, hrestore⟩, ?_, fun hbit => ?_,
    q, hq, (hblank hmissing).1⟩
  · exact (hbits 0).mpr ⟨p, hp, hcomplete.mpr hvalid⟩
  · obtain ⟨q', hq', hdone⟩ := (hbits 1).mp hbit
    rw [hq, Option.some.injEq] at hq'
    rw [← hq', hmissing] at hdone
    exact Bool.false_ne_true hdone

end SwarmIo

end Tortue
