import Tortue.Collections.History
import Tortue.Collections.Slots
import Tortue.Domain.Metadata
import Tortue.Domain.UtMetadata

namespace Tortue

open Collections

namespace Metadata

def block (info : Bytes) (piece : Nat) : Bytes := (info.drop (piece * pieceSize)).take pieceSize

def blockCount (info : Bytes) : Nat := Bitfield.divCeil info.length pieceSize

def completed (info : Bytes) (s : Metadata) : Bytes :=
  (Slots.completedBy (block info) s.pieces).flatten

theorem flatten_blocks (info : Bytes) (n : Nat) :
    ((List.range n).map (block info)).flatten = info.take (n * pieceSize) := by
  have hblocks := flatMap_blocks info info.length pieceSize n
  rw [List.flatMap_def] at hblocks
  have hmap : (List.range n).map (block info) = (List.range n).map fun k =>
      (info.drop (k * pieceSize)).take (min (info.length - k * pieceSize) pieceSize) := by
    refine List.map_congr_left fun k _ => ?_
    rw [block, Nat.min_comm, ← List.take_take, ← List.length_drop, List.take_length]
  rw [hmap, hblocks, Nat.min_comm, ← List.take_take, List.take_length]

theorem length_le_blockCount (info : Bytes) : info.length ≤ blockCount info * pieceSize := by
  have hdiv := Nat.div_add_mod (info.length + pieceSize - 1) pieceSize
  have hmod := Nat.mod_lt (info.length + pieceSize - 1) (show 0 < pieceSize by decide)
  rw [blockCount, Bitfield.divCeil, Nat.mul_comm]
  omega

theorem blockCount_pos {info : Bytes} (h : info ≠ []) : 0 < blockCount info := by
  have hlen := List.length_pos_of_ne_nil h
  have hle := length_le_blockCount info
  rcases Nat.eq_zero_or_pos (blockCount info) with hz | hpos
  · rw [hz, Nat.zero_mul] at hle
    omega
  · exact hpos

theorem mul_pieceSize_lt {info : Bytes} {n : Nat} (h : n < blockCount info) :
    n * pieceSize < info.length := by
  have hmul : blockCount info * pieceSize ≤ info.length + pieceSize - 1 := Nat.div_mul_le_self ..
  have hsucc : (n + 1) * pieceSize ≤ blockCount info * pieceSize := Nat.mul_le_mul_right _ h
  have hpos : 0 < pieceSize := by decide
  rw [Nat.succ_mul] at hsucc
  omega

theorem piece_lt_length {info : Bytes} {n : Nat} (h : n < blockCount info) : n < info.length := by
  have hmul := mul_pieceSize_lt h
  have hle : n * 1 ≤ n * pieceSize := Nat.mul_le_mul_left n (by decide)
  omega

theorem take_blocks_eq_iff {info : Bytes} {n : Nat} :
    info.take (n * pieceSize) = info ↔ blockCount info ≤ n := by
  rw [List.take_eq_self_iff]
  constructor
  · intro h
    by_contra hlt
    have hmul := mul_pieceSize_lt (Nat.lt_of_not_le hlt)
    omega
  · intro h
    exact (length_le_blockCount info).trans (Nat.mul_le_mul_right _ h)

theorem completed_of_right {info : Bytes} {s : Metadata}
    (h : ∀ i d, s.pieces[i]? = some (some d) → d = block info i) :
    completed info s = info.take (s.pieces.length * pieceSize) := by
  rw [completed, Slots.completedBy_of_right h, flatten_blocks]

theorem completed_blank {info : Bytes} {s : Metadata} {n : Nat}
    (h : s.pieces = List.replicate n none) : completed info s = info.take (n * pieceSize) := by
  rw [completed_of_right, h, List.length_replicate]
  intro i d hd
  rw [h] at hd
  exact absurd hd Slots.blank_ne_some

theorem contents_eq_completed {s : Metadata} (info : Bytes) (h : Slots.Full s.pieces) :
    s.contents = completed info s := (Slots.flatten_completedBy h).symm

theorem isComplete_iff {s : Metadata} : s.isComplete = true ↔ Slots.Full s.pieces :=
  Slots.all_isSome_iff

theorem onData_cases (sha1 : Sha1) (order : IterOrder) (s : Metadata) (piece : Nat)
    (data : Bytes) :
    (¬ Slots.Vacant s.pieces piece ∧ s.onData sha1 order piece data = (s, [])) ∨
    (Slots.Vacant s.pieces piece ∧ (∃ j, Slots.Vacant (s.store piece data).pieces j) ∧
      s.onData sha1 order piece data = (s.store piece data, [])) ∨
    (Slots.Vacant s.pieces piece ∧ Slots.Full (s.store piece data).pieces ∧
      s.onData sha1 order piece data = (s.store piece data).tryFinalize sha1 order) := by
  rw [onData]
  split_ifs with hvacant hcomplete
  · exact .inl ⟨hvacant, rfl⟩
  · exact .inr (.inr ⟨not_not.mp hvacant, isComplete_iff.mp hcomplete, rfl⟩)
  · rw [isComplete_iff, Slots.Full, not_forall] at hcomplete
    exact .inr (.inl ⟨not_not.mp hvacant, hcomplete.imp fun _ => not_not.mp, rfl⟩)

theorem completed_store {info : Bytes} {s : Metadata} {piece : Nat}
    (h : Slots.Vacant s.pieces piece) :
    completed info (s.store piece (block info piece)) = completed info s :=
  congrArg List.flatten (Slots.completedBy_fill h)

theorem length_store (s : Metadata) (piece : Nat) (data : Bytes) :
    (s.store piece data).pieces.length = s.pieces.length := List.length_set ..

theorem discard_pieces (s : Metadata) :
    s.discard.pieces = List.replicate s.pieces.length none := List.map_const' ..

theorem mem_missing {s : Metadata} {piece : Nat} :
    piece ∈ s.missing ↔ Slots.Vacant s.pieces piece := by
  simp only [missing, List.mem_filter, List.mem_range, decide_eq_true_eq]
  exact ⟨fun h => h.2, fun h => ⟨Slots.Vacant.lt h, h⟩⟩

theorem mem_requestMissingFrom {s : Metadata} {addr : SocketAddr} {o : Output} :
    o ∈ s.requestMissingFrom addr ↔ ∃ extId piece, s.peers.get addr = some extId ∧
      Slots.Vacant s.pieces piece ∧ o = makeRequest addr extId piece := by
  rw [requestMissingFrom]
  cases s.peers.get addr with
  | none => simp
  | some extId =>
    simp only [List.mem_map, missing, List.mem_filter, List.mem_range, decide_eq_true_eq,
      Option.some.injEq]
    constructor
    · rintro ⟨piece, ⟨_, hvacant⟩, rfl⟩
      exact ⟨extId, piece, rfl, hvacant, rfl⟩
    · rintro ⟨_, piece, rfl, hvacant, rfl⟩
      exact ⟨piece, ⟨Slots.Vacant.lt hvacant, hvacant⟩, rfl⟩

theorem tryFinalize_cases (sha1 : Sha1) (order : IterOrder) (s : Metadata) :
    (sha1 s.contents = s.infoHash ∧ s.tryFinalize sha1 order = (s, [.done s.contents])) ∨
    (sha1 s.contents ≠ s.infoHash ∧ (s.tryFinalize sha1 order).1 = s.discard ∧
      ∀ o ∈ (s.tryFinalize sha1 order).2, ∃ addr extId piece, s.peers.get addr = some extId ∧
        o = makeRequest addr extId piece) := by
  rw [tryFinalize]
  split_ifs with h
  · exact .inl ⟨h, rfl⟩
  · refine .inr ⟨h, rfl, fun o ho => ?_⟩
    obtain ⟨addr, -, ho⟩ := List.mem_flatMap.mp ho
    obtain ⟨extId, piece, hpeer, -, rfl⟩ := mem_requestMissingFrom.mp ho
    exact ⟨addr, extId, piece, hpeer, rfl⟩

theorem tryFinalize_peers (sha1 : Sha1) (order : IterOrder) (s : Metadata) :
    (s.tryFinalize sha1 order).1.peers = s.peers := by
  rcases tryFinalize_cases sha1 order s with ⟨-, h⟩ | ⟨-, h, -⟩
  · rw [h]
  · rw [h]
    rfl

theorem onData_peers (sha1 : Sha1) (order : IterOrder) (s : Metadata) (piece : Nat)
    (data : Bytes) : (s.onData sha1 order piece data).1.peers = s.peers := by
  rcases onData_cases sha1 order s piece data with ⟨-, h⟩ | ⟨-, -, h⟩ | ⟨-, -, h⟩
  · rw [h]
  · rw [h]
    rfl
  · rw [h, tryFinalize_peers]
    rfl

theorem onPayload_peers (sha1 : Sha1) (order : IterOrder) (s : Metadata) (addr : SocketAddr)
    (payload : Bytes) : (s.onPayload sha1 order addr payload).1.peers = s.peers := by
  rw [onPayload]
  split
  · exact onData_peers ..
  · rfl
  · rfl
  · rfl
  · rfl

theorem sent_onPayload {sha1 : Sha1} {order : IterOrder} {s : Metadata} {a addr : SocketAddr}
    {payload : Bytes} {message : Message}
    (h : .sendToPeer addr message ∈ (s.onPayload sha1 order a payload).2) :
    ∃ extId piece, s.peers.get addr = some extId ∧
      .sendToPeer addr message = makeRequest addr extId piece := by
  have hrequest : ∀ {o b extId piece}, o = makeRequest b extId piece →
      s.peers.get b = some extId → .sendToPeer addr message = o → ∃ extId piece,
        s.peers.get addr = some extId ∧
          .sendToPeer addr message = makeRequest addr extId piece := by
    rintro _ b extId piece rfl hpeer hsent
    obtain ⟨rfl, -⟩ := Output.sendToPeer.inj hsent
    exact ⟨extId, piece, hpeer, hsent⟩
  rw [onPayload] at h
  split at h
  · rename_i piece _ data _
    rcases onData_cases sha1 order s piece data with ⟨-, hdata⟩ | ⟨-, -, hdata⟩ | ⟨-, -, hdata⟩
    · rw [hdata] at h
      contradiction
    · rw [hdata] at h
      contradiction
    · rw [hdata] at h
      rcases tryFinalize_cases sha1 order (s.store piece data) with ⟨-, hfinal⟩ | ⟨-, -, hsent⟩
      · rw [hfinal] at h
        simp at h
      · obtain ⟨b, extId, q, hpeer, ho⟩ := hsent _ h
        exact hrequest ho hpeer rfl
  · rename_i piece _
    rw [onReject] at h
    split at h
    · rename_i b _
      rw [requestPieceFrom] at h
      split at h
      · contradiction
      · rename_i extId hpeer
        exact hrequest rfl hpeer (List.mem_singleton.mp h)
    · contradiction
  · contradiction
  · contradiction
  · contradiction

section Replies

variable (info : Bytes) (addr : SocketAddr)

def reply (d : Nat × IterOrder) : Input × IterOrder :=
  (.messageReceived addr (.extension utMetadataExtId
    (UtMetadataMessage.data d.1 info.length (block info d.1)).encode), d.2)

structure Answerable (s : Metadata) (ds : List (Nat × IterOrder)) : Prop where
  peer : s.peers.get addr = some utMetadataExtId
  length_lt : info.length < 2 ^ 64
  pieces_lt : ∀ d ∈ ds, d.1 < 2 ^ 64

variable {info addr} (sha1 : Sha1) {s : Metadata}

theorem onMessage_data {extId : UInt8} {piece totalSize : Nat} (order : IterOrder) (data : Bytes)
    (hpeer : s.peers.get addr = some extId) (hpiece : piece < 2 ^ 64) (hsize : totalSize < 2 ^ 64) :
    s.onMessage sha1 order addr
      (.extension extId (UtMetadataMessage.data piece totalSize data).encode) =
        s.onData sha1 order piece data := by
  simp only [onMessage, hpeer, ne_eq, not_true_eq_false, if_false, onPayload,
    UtMetadataMessage.decode_data data hpiece hsize]

theorem step_reply {d : Nat × IterOrder} {ds : List (Nat × IterOrder)}
    (h : Answerable info addr s (d :: ds)) :
    step sha1 s (reply info addr d) = s.onData sha1 d.2 d.1 (block info d.1) :=
  onMessage_data sha1 d.2 _ h.peer (h.pieces_lt d (List.mem_cons_self ..)) h.length_lt

theorem Answerable.next {t : Metadata} {ds es : List (Nat × IterOrder)}
    (h : Answerable info addr s ds) (hpeers : t.peers = s.peers) (hes : es ⊆ ds) :
    Answerable info addr t es :=
  ⟨hpeers ▸ h.peer, h.length_lt, fun d hd => h.pieces_lt d (hes hd)⟩

theorem run_replies {ds : List (Nat × IterOrder)} (h : Answerable info addr s ds)
    (hvacant : ∃ j, Slots.Vacant s.pieces j)
    (hcover : ∀ j, Slots.Vacant s.pieces j → j ∈ ds.map Prod.fst) :
    ∃ (d : Nat × IterOrder) (post : List (Nat × IterOrder)) (t : Metadata), post ⊆ ds ∧
      t.peers = s.peers ∧ t.infoHash = s.infoHash ∧
      t.pieces.length = s.pieces.length ∧ t.contents = completed info s ∧
      ∀ rest, (History.run (step sha1) s ((ds ++ rest).map (reply info addr))).2 =
        (t.tryFinalize sha1 d.2).2 ++ (History.run (step sha1) (t.tryFinalize sha1 d.2).1
          ((post ++ rest).map (reply info addr))).2 := by
  induction ds generalizing s with
  | nil =>
    obtain ⟨j, hj⟩ := hvacant
    exact absurd (hcover j hj) (by simp)
  | cons d ds ih =>
    have hstep := step_reply sha1 h
    rcases onData_cases sha1 d.2 s d.1 (block info d.1) with
      ⟨hfilled, hdata⟩ | ⟨hempty, hmore, hdata⟩ | ⟨hempty, hfull, hdata⟩
    · rw [hdata] at hstep
      have hcover' : ∀ j, Slots.Vacant s.pieces j → j ∈ ds.map Prod.fst := by
        intro j hj
        rcases List.mem_cons.mp (hcover j hj) with rfl | hmem
        · exact absurd hj hfilled
        · exact hmem
      obtain ⟨e, post, t, hpost, hrest⟩ := ih (h.next rfl (List.subset_cons_self ..)) hvacant
        hcover'
      refine ⟨e, post, t, List.Subset.trans hpost (List.subset_cons_self ..), ?_⟩
      simpa only [List.cons_append, List.map_cons, History.run, hstep, List.nil_append] using hrest
    · rw [hdata] at hstep
      have hcover' : ∀ j, Slots.Vacant (s.store d.1 (block info d.1)).pieces j →
          j ∈ ds.map Prod.fst := by
        intro j hj
        obtain ⟨hj, hne⟩ := Slots.vacant_fill.mp hj
        exact (List.mem_cons.mp (hcover j hj)).resolve_left hne
      obtain ⟨e, post, t, hpost, hpeers, hhash, hlength, hcontents, hrun⟩ :=
        ih (s := s.store d.1 (block info d.1)) (h.next rfl (List.subset_cons_self ..)) hmore hcover'
      refine ⟨e, post, t, List.Subset.trans hpost (List.subset_cons_self ..), hpeers, hhash,
        ?_, ?_, ?_⟩
      · rw [hlength, length_store]
      · rw [hcontents, completed_store hempty]
      · simpa only [List.cons_append, List.map_cons, History.run, hstep, List.nil_append] using hrun
    · rw [hdata] at hstep
      refine ⟨d, ds, s.store d.1 (block info d.1), List.subset_cons_self .., rfl, rfl,
        length_store .., ?_, ?_⟩
      · rw [contents_eq_completed info hfull, completed_store hempty]
      · intro rest
        simp only [List.cons_append, List.map_cons, History.run, hstep]

variable {sha1}

theorem replies_done {ds : List (Nat × IterOrder)} (h : Answerable info addr s ds)
    (hhash : s.infoHash = sha1 info) (hinfo : completed info s = info)
    (hvacant : ∃ j, Slots.Vacant s.pieces j)
    (hcover : ∀ j, Slots.Vacant s.pieces j → j ∈ ds.map Prod.fst) (rest : List (Nat × IterOrder)) :
    .done info ∈ (History.run (step sha1) s ((ds ++ rest).map (reply info addr))).2 := by
  obtain ⟨d, post, t, -, -, ht, -, hcontents, hrun⟩ := run_replies sha1 h hvacant hcover
  rw [hrun, tryFinalize, if_pos (by rw [hcontents, hinfo, ht, hhash]), hcontents, hinfo]
  exact List.mem_append_left _ (List.mem_singleton_self _)

structure Right (info : Bytes) (s : Metadata) : Prop where
  count : s.pieces.length = blockCount info
  block : ∀ i d, s.pieces[i]? = some (some d) → d = block info i

theorem Right.completed (h : Right info s) : completed info s = info := by
  rw [completed_of_right h.block, h.count, take_blocks_eq_iff]

theorem Right.blank (h : s.pieces = List.replicate (blockCount info) none) : Right info s := by
  refine ⟨by rw [h, List.length_replicate], fun i d hd => ?_⟩
  rw [h] at hd
  exact absurd hd Slots.blank_ne_some

theorem Right.store (h : Right info s) {piece : Nat} (hpiece : Slots.Vacant s.pieces piece) :
    Right info (s.store piece (Metadata.block info piece)) := by
  refine ⟨(length_store ..).trans h.count, fun i d hd => ?_⟩
  rcases (Slots.fill_eq_some hpiece).mp hd with ⟨rfl, rfl⟩ | hold
  · rfl
  · exact h.block i d hold

theorem onData_right (h : Right info s) (order : IterOrder) (piece : Nat) :
    Right info (s.onData sha1 order piece (block info piece)).1 ∧
      ∀ b, .done b ∈ (s.onData sha1 order piece (block info piece)).2 → b = info := by
  rcases onData_cases sha1 order s piece (block info piece) with
    ⟨-, hdata⟩ | ⟨hempty, -, hdata⟩ | ⟨hempty, hfull, hdata⟩
  · rw [hdata]
    exact ⟨h, fun b hb => absurd hb (by simp)⟩
  · rw [hdata]
    exact ⟨h.store hempty, fun b hb => absurd hb (by simp)⟩
  · rw [hdata]
    rcases tryFinalize_cases sha1 order (s.store piece (block info piece)) with
      ⟨-, hfinal⟩ | ⟨-, hfinal, hsent⟩
    · rw [hfinal]
      refine ⟨h.store hempty, fun b hb => ?_⟩
      rw [List.mem_singleton, Output.done.injEq] at hb
      rw [hb, contents_eq_completed info hfull, (h.store hempty).completed]
    · rw [hfinal]
      refine ⟨Right.blank ?_, fun b hb => ?_⟩
      · rw [discard_pieces, length_store, h.count]
      · obtain ⟨_, _, _, -, ho⟩ := hsent _ hb
        contradiction

theorem replies_right {ds : List (Nat × IterOrder)} (hready : Answerable info addr s ds)
    (h : Right info s) {b : Bytes}
    (hb : .done b ∈ (History.run (step sha1) s (ds.map (reply info addr))).2) : b = info := by
  induction ds generalizing s with
  | nil => contradiction
  | cons d ds ih =>
    have hstep := step_reply sha1 hready
    obtain ⟨hnext, hdone⟩ := onData_right h d.2 d.1
    rw [List.map_cons, History.run, hstep] at hb
    rcases List.mem_append.mp hb with hb | hb
    · exact hdone b hb
    · exact ih (hready.next (onData_peers ..) (List.subset_cons_self ..)) hnext hb

end Replies

def greeted (s : Metadata) (size : Nat) (addr : SocketAddr) (n : UInt8) : Metadata :=
  { s.announceSize size with peers := (s.announceSize size).peers.insert addr n }

theorem onHandshake_eq {s : Metadata} {addr : SocketAddr} {hs : ExtensionHandshake} {n : UInt8}
    {size : Nat} (hid : hs.extensions.get "ut_metadata" = some n)
    (hsize : hs.metadataSize = some size) :
    s.onHandshake addr hs =
      (s.greeted size addr n, (s.greeted size addr n).requestMissingFrom addr) := by
  simp only [onHandshake, hid, hsize, greeted]

theorem announced_first {s : Metadata} (h : s.totalSize = none) (size : Nat) :
    (s.announceSize size).pieces = List.replicate (Bitfield.divCeil size pieceSize) none := by
  rw [announceSize, h]

theorem announced_later {s : Metadata} (h : s.totalSize ≠ none) (size : Nat) :
    s.announceSize size = s := by
  rw [announceSize]
  cases hsize : s.totalSize with
  | none => exact absurd hsize h
  | some n => rfl

theorem greeted_hash (s : Metadata) (size : Nat) (addr : SocketAddr) (n : UInt8) :
    (s.greeted size addr n).infoHash = s.infoHash := by
  rw [greeted, announceSize]
  split <;> rfl

theorem greeted_sized (s : Metadata) (size : Nat) (addr : SocketAddr) (n : UInt8) :
    (s.greeted size addr n).totalSize ≠ none := by
  rw [greeted, announceSize]
  split
  · rename_i m hm
    rw [hm]
    simp
  · simp

theorem greeted_peers (s : Metadata) (size : Nat) (addr : SocketAddr) (n : UInt8) :
    (s.greeted size addr n).peers = s.peers.insert addr n := by
  rw [greeted, announceSize]
  split <;> rfl

theorem greeted_right {info : Bytes} {s : Metadata} (h : s.totalSize ≠ none → Right info s)
    (addr : SocketAddr) (n : UInt8) : Right info (s.greeted info.length addr n) := by
  rcases eq_or_ne s.totalSize none with hnone | hsome
  · exact Right.blank (announced_first hnone info.length)
  · have hsame := announced_later hsome info.length
    refine ⟨?_, ?_⟩
    · rw [greeted, hsame]
      exact (h hsome).count
    · rw [greeted, hsame]
      exact (h hsome).block

def opened (infoHash : InfoHash) (size : Nat) (addr : SocketAddr) (n : UInt8) : Metadata where
  infoHash := infoHash
  totalSize := some size
  pieces := List.replicate (Bitfield.divCeil size pieceSize) none
  peers := HashMap.empty.insert addr n

theorem first_handshake (infoHash : InfoHash) {addr : SocketAddr} {hs : ExtensionHandshake}
    {n : UInt8} {size : Nat} (hid : hs.extensions.get "ut_metadata" = some n)
    (hsize : hs.metadataSize = some size) :
    (new infoHash).onHandshake addr hs =
      (opened infoHash size addr n, (opened infoHash size addr n).requestMissingFrom addr) :=
  onHandshake_eq hid hsize

theorem opened_blank (infoHash : InfoHash) (info : Bytes) (addr : SocketAddr) (n : UInt8) :
    (opened infoHash info.length addr n).pieces = List.replicate (blockCount info) none := rfl

section FirstFetch

variable {sha1 : Sha1} {info : Bytes} {addr : SocketAddr} {order : IterOrder}
  {hs : ExtensionHandshake} {ds : List (Nat × IterOrder)}

theorem opened_answerable (hlt : info.length < 2 ^ 64) (hbound : ∀ d ∈ ds, d.1 < 2 ^ 64) :
    Answerable info addr (opened (sha1 info) info.length addr utMetadataExtId) ds :=
  ⟨HashMap.get_insert_self .., hlt, hbound⟩

theorem first_fetch_done (hlt : info.length < 2 ^ 64) (hinfo : info ≠ [])
    (hid : hs.extensions.get "ut_metadata" = some utMetadataExtId)
    (hsize : hs.metadataSize = some info.length) (hbound : ∀ d ∈ ds, d.1 < 2 ^ 64)
    (hcover : ∀ piece < blockCount info, piece ∈ ds.map Prod.fst) :
    .done info ∈ (History.run (step sha1) (new (sha1 info))
      ((.messageReceived addr (.extensionHandshake hs), order) :: ds.map (reply info addr))).2 := by
  have hblank := opened_blank (sha1 info) info addr utMetadataExtId
  have hdone := replies_done (opened_answerable hlt hbound) (show _ = sha1 info from rfl)
    (Right.blank hblank).completed
    ⟨0, by rw [hblank]; exact Slots.vacant_blank.mpr (blockCount_pos hinfo)⟩
    (fun j hj => hcover j (by rw [hblank] at hj; exact Slots.vacant_blank.mp hj)) []
  rw [List.append_nil] at hdone
  rw [History.run]
  refine List.mem_append_right _ ?_
  simpa only [step, onMessage, first_handshake _ hid hsize] using hdone

theorem first_fetch_only (hlt : info.length < 2 ^ 64)
    (hid : hs.extensions.get "ut_metadata" = some utMetadataExtId)
    (hsize : hs.metadataSize = some info.length) (hbound : ∀ d ∈ ds, d.1 < 2 ^ 64) {b : Bytes}
    (hb : .done b ∈ (History.run (step sha1) (new (sha1 info))
      ((.messageReceived addr (.extensionHandshake hs), order) :: ds.map (reply info addr))).2) :
    b = info := by
  simp only [History.run, step, onMessage, first_handshake _ hid hsize] at hb
  rcases List.mem_append.mp hb with hb | hb
  · obtain ⟨_, _, _, _, ho⟩ := mem_requestMissingFrom.mp hb
    contradiction
  · exact replies_right (opened_answerable hlt hbound) (Right.blank (opened_blank ..)) hb

end FirstFetch

end Metadata

end Tortue
