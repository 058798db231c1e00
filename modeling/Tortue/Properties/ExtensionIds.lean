import Tortue.Domain.MetadataFetch
import Tortue.Domain.Swarm.Frame

namespace Tortue

open Collections

namespace Metadata

abbrev Trace := List (Event Metadata (Input × IterOrder) Output)

def Started (infoHash : InfoHash) (s : Metadata) : Prop := s = new infoHash

def advertise (addr : SocketAddr) (earlier : Option UInt8) : Input → Option UInt8
  | .peerDisconnected a => if addr = a then none else earlier
  | .messageReceived a (.extensionHandshake hs) =>
    match hs.extensions.get "ut_metadata", hs.metadataSize with
    | some extId, some _ => if addr = a then some extId else earlier
    | _, _ => earlier
  | _ => earlier

def advertised (addr : SocketAddr) : Trace → Option UInt8
  | [] => none
  | e :: h => advertise addr (advertised addr h) e.input.1

theorem peers_onHandshake (s : Metadata) (a addr : SocketAddr) (hs : ExtensionHandshake) :
    (s.onHandshake a hs).1.peers.get addr =
      advertise addr (s.peers.get addr) (.messageReceived a (.extensionHandshake hs)) := by
  have hkept : ∀ n, (s.announceSize n).peers = s.peers := by
    intro n
    rw [announceSize]
    split <;> rfl
  rw [onHandshake, advertise]
  cases hs.extensions.get "ut_metadata" with
  | none => rfl
  | some extId =>
    cases hs.metadataSize with
    | none => rfl
    | some size => simp only [hkept, HashMap.get_insert]

theorem peers_step (sha1 : Sha1) (s : Metadata) (i : Input × IterOrder) (addr : SocketAddr) :
    (step sha1 s i).1.peers.get addr = advertise addr (s.peers.get addr) i.1 := by
  obtain ⟨input, order⟩ := i
  cases input with
  | peersDiscovered addrs => rfl
  | peerDisconnected a => exact HashMap.get_remove ..
  | messageReceived a message =>
    cases message with
    | extensionHandshake hs => exact peers_onHandshake s a addr hs
    | extension extId payload =>
      simp only [step, onMessage]
      split_ifs
      · rfl
      · rw [onPayload_peers]
        rfl
    | _ => rfl

theorem peers_eq_advertised {sha1 : Sha1} {infoHash : InfoHash} {h : Trace} {s : Metadata}
    (hist : History (step sha1) (Started infoHash) h s) (addr : SocketAddr) :
    s.peers.get addr = advertised addr h := by
  induction hist with
  | start hs =>
    rw [hs]
    rfl
  | next i _ ih => rw [peers_step, ih, advertised]

theorem sent_step {sha1 : Sha1} {s : Metadata} {i : Input × IterOrder} {addr : SocketAddr}
    {message : Message} (h : .sendToPeer addr message ∈ (step sha1 s i).2) :
    ∃ extId piece, (step sha1 s i).1.peers.get addr = some extId ∧
      message = .extension extId (UtMetadataMessage.request piece).encode := by
  obtain ⟨input, order⟩ := i
  cases input with
  | peersDiscovered addrs =>
    obtain ⟨a, -, ha⟩ := List.mem_map.mp h
    contradiction
  | peerDisconnected a => contradiction
  | messageReceived a received =>
    cases received with
    | extensionHandshake hs =>
      simp only [step, onMessage, onHandshake] at h ⊢
      split at h
      · obtain ⟨extId, piece, hpeer, -, ho⟩ := mem_requestMissingFrom.mp h
        obtain ⟨rfl, rfl⟩ := Output.sendToPeer.inj ho
        exact ⟨extId, piece, hpeer, rfl⟩
      · contradiction
    | extension extId payload =>
      simp only [step, onMessage] at h ⊢
      split_ifs at h ⊢
      · contradiction
      · obtain ⟨n, piece, hpeer, ho⟩ := sent_onPayload h
        obtain ⟨-, rfl⟩ := Output.sendToPeer.inj ho
        exact ⟨n, piece, by rw [onPayload_peers, hpeer], rfl⟩
    | _ => contradiction

structure FollowsBep10 (sha1 : Sha1) (info : Bytes) (n : UInt8) : Prop where
  incoming : ∀ {h s}, History (step sha1) (Started (sha1 info)) h s → ∀ {addr},
    advertised addr h = some n → ∀ order extId payload,
      s.onMessage sha1 order addr (.extension extId payload) =
        if extId = utMetadataExtId then s.onPayload sha1 order addr payload else (s, [])
  outgoing : ∀ {h s}, History (step sha1) (Started (sha1 info)) h s → ∀ {i addr message},
    .sendToPeer addr message ∈ (step sha1 s i).2 →
      advertised addr (⟨s, i, (step sha1 s i).2⟩ :: h) = some n →
        ∃ piece, message = .extension n (UtMetadataMessage.request piece).encode
  completes : ∀ {addr order hs}, hs.extensions.get "ut_metadata" = some n →
    hs.metadataSize = some info.length → ∀ ds : List (Nat × IterOrder), (∀ d ∈ ds, d.1 < 2 ^ 64) →
      (∀ piece < 2 ^ 64, makeRequest addr n piece ∈ ((new (sha1 info)).onHandshake addr hs).2 →
        piece ∈ ds.map Prod.fst) →
      .done info ∈ (History.run (step sha1) (new (sha1 info))
        ((.messageReceived addr (.extensionHandshake hs), order) :: ds.map (reply info addr))).2

theorem follows_own_id {sha1 : Sha1} {info : Bytes} (hlt : info.length < 2 ^ 64)
    (hinfo : info ≠ []) :
    FollowsBep10 sha1 info utMetadataExtId where
  incoming := by
    intro h s hist addr hadv order extId payload
    rw [← peers_eq_advertised hist] at hadv
    simp only [onMessage, hadv, ne_eq, Option.some.injEq]
    rcases eq_or_ne extId utMetadataExtId with rfl | hne
    · rw [if_pos rfl, if_neg (by simp)]
    · rw [if_neg hne, if_pos (Ne.symm hne)]
  outgoing := by
    intro h s hist i addr message hsent hadv
    obtain ⟨extId, piece, hpeer, rfl⟩ := sent_step hsent
    rw [← peers_eq_advertised (hist.next i), hpeer, Option.some.injEq] at hadv
    exact ⟨piece, by rw [hadv]⟩
  completes := by
    intro addr order hs hid hsize ds hbound hcover
    refine first_fetch_done hlt hinfo hid hsize hbound fun piece hpiece => ?_
    refine hcover piece ((piece_lt_length hpiece).trans hlt) ?_
    rw [first_handshake _ hid hsize]
    exact mem_requestMissingFrom.mpr
      ⟨_, piece, HashMap.get_insert_self .., Slots.vacant_blank.mpr hpiece, rfl⟩

theorem opened_history (sha1 : Sha1) (info : Bytes) (addr : SocketAddr) (n : UInt8) (size : Nat) :
    ∃ h, History (step sha1) (Started (sha1 info)) h (opened (sha1 info) size addr n) ∧
      advertised addr h = some n ∧ ∀ e ∈ h, ∀ b, Output.done b ∉ e.outputs := by
  let hs : ExtensionHandshake := ⟨HashMap.empty.insert "ut_metadata" n, some size⟩
  have hid : hs.extensions.get "ut_metadata" = some n := HashMap.get_insert_self ..
  have hstart : History (step sha1) (Started (sha1 info)) [] (new (sha1 info)) := .start rfl
  have hnext := hstart.next (.messageReceived addr (.extensionHandshake hs), .insertion)
  simp only [step, onMessage, first_handshake (sha1 info) hid rfl] at hnext
  refine ⟨_, hnext, ?_, fun e he b hdone => ?_⟩
  · rw [← peers_eq_advertised hnext]
    exact HashMap.get_insert_self ..
  · rw [List.mem_singleton.mp he] at hdone
    obtain ⟨_, _, _, _, ho⟩ := mem_requestMissingFrom.mp hdone
    contradiction

theorem not_follows_other_id (sha1 : Sha1) (info : Bytes) {n : UInt8} (hn : n ≠ utMetadataExtId) :
    ¬ FollowsBep10 sha1 info n := by
  intro h
  let addr : SocketAddr := .v4 ⟨[127, 0, 0, 1], rfl⟩ 80
  obtain ⟨hist, hhist, hadv, -⟩ := opened_history sha1 info addr n (2 * pieceSize)
  have hgate := h.incoming hhist hadv .insertion utMetadataExtId
    (UtMetadataMessage.data 0 0 []).encode
  have hpeer : (opened (sha1 info) (2 * pieceSize) addr n).peers.get addr = some n :=
    HashMap.get_insert_self ..
  have hpayload : onPayload sha1 .insertion (opened (sha1 info) (2 * pieceSize) addr n) addr
      (UtMetadataMessage.data 0 0 []).encode =
        onData sha1 .insertion (opened (sha1 info) (2 * pieceSize) addr n) 0 [] := by
    simp only [onPayload, UtMetadataMessage.decode_data [] (show 0 < 2 ^ 64 by decide)
      (show 0 < 2 ^ 64 by decide)]
  rw [if_pos rfl, hpayload, onMessage, if_pos (by rw [hpeer]; simpa using hn)] at hgate
  have hkept : (opened (sha1 info) (2 * pieceSize) addr n).pieces = [none, none] := rfl
  have hstored :
      (onData sha1 .insertion (opened (sha1 info) (2 * pieceSize) addr n) 0 []).1.pieces =
        [some [], none] := rfl
  rw [← hgate, hkept] at hstored
  contradiction

theorem not_follows_empty (sha1 : Sha1) (n : UInt8) : ¬ FollowsBep10 sha1 [] n := by
  intro h
  let addr : SocketAddr := .v4 ⟨[127, 0, 0, 1], rfl⟩ 80
  let hs : ExtensionHandshake := ⟨HashMap.empty.insert "ut_metadata" n, some 0⟩
  have hid : hs.extensions.get "ut_metadata" = some n := HashMap.get_insert_self ..
  have hsent : ((new (sha1 [])).onHandshake addr hs).2 = [] := by
    simp only [first_handshake (sha1 []) hid rfl]
    refine List.eq_nil_iff_forall_not_mem.mpr fun o ho => ?_
    obtain ⟨_, piece, -, hvacant, -⟩ := mem_requestMissingFrom.mp ho
    exact absurd (Slots.vacant_blank.mp hvacant) (Nat.not_lt_zero piece)
  have hdone : .done [] ∈ (History.run (step sha1) (new (sha1 []))
      [(.messageReceived addr (.extensionHandshake hs), .insertion)]).2 :=
    h.completes hid rfl [] (by simp) fun piece _ hpiece => by
      rw [hsent] at hpiece
      contradiction
  simp only [History.run, step, onMessage, hsent] at hdone
  contradiction

theorem follows_bep10_iff (sha1 : Sha1) {info : Bytes} (hlt : info.length < 2 ^ 64) (n : UInt8) :
    FollowsBep10 sha1 info n ↔ n = utMetadataExtId ∧ info ≠ [] := by
  constructor
  · intro h
    constructor
    · by_contra hn
      exact not_follows_other_id sha1 info hn h
    · rintro rfl
      exact not_follows_empty sha1 n h
  · rintro ⟨rfl, hinfo⟩
    exact follows_own_id hlt hinfo

theorem shared_id_follows_bep10 : FollowsBep10 Sample.blockSha1 Sample.twoBlocks utMetadataExtId ∧
    ¬ FollowsBep10 Sample.blockSha1 Sample.twoBlocks 3 := by
  have hlt : Sample.twoBlocks.length < 2 ^ 64 := by
    rw [Sample.length_twoBlocks]
    decide
  have hiff := follows_bep10_iff Sample.blockSha1 hlt
  refine ⟨(hiff utMetadataExtId).mpr ⟨rfl, Sample.twoBlocks_ne⟩, fun h => ?_⟩
  exact absurd ((hiff 3).mp h).1 (by decide)

theorem foreign_id_ignored : ¬ ∀ (sha1 : Sha1) (info : Bytes) (n : UInt8), n ≠ 0 → info ≠ [] →
    info.length < 2 ^ 64 → FollowsBep10 sha1 info n := fun hall =>
  not_follows_other_id Sample.sha1 [0] (show (3 : UInt8) ≠ utMetadataExtId by decide)
    (hall Sample.sha1 [0] 3 (by decide) (by decide) (by decide))

end Metadata

end Tortue
