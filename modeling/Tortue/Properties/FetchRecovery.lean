import Tortue.Properties.ExtensionIds

namespace Tortue

open Collections

namespace Metadata

variable {sha1 : Sha1} {info : Bytes}

structure Pending (infoHash : InfoHash) (s : Metadata) : Prop where
  hash : s.infoHash = infoHash
  unsized : s.totalSize = none → s.pieces = []
  vacant : s.pieces ≠ [] → ∃ j, Slots.Vacant s.pieces j

theorem announceSize_pending {infoHash : InfoHash} {s : Metadata} (h : Pending infoHash s)
    (size : Nat) : Pending infoHash (s.announceSize size) := by
  rw [announceSize]
  cases hsize : s.totalSize with
  | some n => exact h
  | none =>
    refine ⟨h.hash, fun hnone => absurd hnone (by simp), fun hpieces => ⟨0, ?_⟩⟩
    exact Slots.vacant_blank.mpr (Nat.pos_of_ne_zero fun hz => hpieces (by simp only [hz]; rfl))

theorem onData_pending {infoHash : InfoHash} {s : Metadata} (h : Pending infoHash s)
    {order : IterOrder} {piece : Nat} {data : Bytes}
    (hopen : ∀ b, .done b ∉ (s.onData sha1 order piece data).2) :
    Pending infoHash (s.onData sha1 order piece data).1 := by
  rcases onData_cases sha1 order s piece data with
    ⟨-, hdata⟩ | ⟨hempty, hmore, hdata⟩ | ⟨hempty, -, hdata⟩
  · rw [hdata]
    exact h
  · rw [hdata]
    refine ⟨h.hash, fun hnone => ?_, fun _ => hmore⟩
    rw [Slots.Vacant, h.unsized hnone] at hempty
    contradiction
  · rw [hdata] at hopen ⊢
    rcases tryFinalize_cases sha1 order (s.store piece data) with ⟨-, hfinal⟩ | ⟨-, hfinal, -⟩
    · rw [hfinal] at hopen
      exact absurd (List.mem_singleton_self _) (hopen _)
    · rw [hfinal]
      have hlt := hempty.lt
      refine ⟨h.hash, fun hnone => ?_, fun _ => ⟨0, ?_⟩⟩
      · rw [Slots.Vacant, h.unsized hnone] at hempty
        contradiction
      · rw [discard_pieces, length_store]
        exact Slots.vacant_blank.mpr (by omega)

theorem step_pending {infoHash : InfoHash} {s : Metadata} (h : Pending infoHash s)
    {i : Input × IterOrder} (hopen : ∀ b, .done b ∉ (step sha1 s i).2) :
    Pending infoHash (step sha1 s i).1 := by
  obtain ⟨input, order⟩ := i
  cases input with
  | peersDiscovered addrs => exact h
  | peerDisconnected a => exact ⟨h.hash, h.unsized, h.vacant⟩
  | messageReceived a message =>
    cases message with
    | extensionHandshake hs =>
      simp only [step, onMessage, onHandshake]
      split
      · rename_i n size _ _
        have hsized := announceSize_pending h size
        exact ⟨hsized.hash, hsized.unsized, hsized.vacant⟩
      · exact h
    | extension extId payload =>
      simp only [step, onMessage, onPayload] at hopen ⊢
      split_ifs at hopen ⊢
      · exact h
      · split at hopen
        · exact onData_pending h hopen
        · exact h
        · exact h
        · exact h
        · exact h
    | _ => exact h

theorem history_pending {h : Trace} {s : Metadata}
    (hist : History (step sha1) (Started (sha1 info)) h s)
    (hopen : ∀ e ∈ h, ∀ b, Output.done b ∉ e.outputs) : Pending (sha1 info) s := by
  induction hist with
  | start hs =>
    rw [hs]
    exact ⟨rfl, fun _ => rfl, fun hne => absurd rfl hne⟩
  | next i _ ih =>
    have hbefore := ih fun e he => hopen e (List.mem_cons_of_mem _ he)
    exact step_pending hbefore (hopen _ (List.mem_cons_self ..))

def Recoverable (sha1 : Sha1) (info : Bytes) (s : Metadata) : Prop :=
  s.totalSize = none ∨
  ((∀ piece ∈ s.missing, piece < blockCount info) ∧ completed info s = info) ∨
  (s.pieces.length = blockCount info ∧ sha1 (completed info s) ≠ sha1 info)

structure Poisoned (sha1 : Sha1) (info : Bytes) (s : Metadata) : Prop where
  hash : s.infoHash = sha1 info
  stuck : Slots.Full s.pieces ∨ (∃ j, blockCount info ≤ j ∧ Slots.Vacant s.pieces j) ∨
    (completed info s ≠ info ∧
      (s.pieces.length ≠ blockCount info ∨ sha1 (completed info s) = sha1 info))

theorem discard_poisoned {s : Metadata} (hhash : s.infoHash = sha1 info)
    (hcount : s.pieces.length ≠ blockCount info) : Poisoned sha1 info s.discard := by
  refine ⟨hhash, .inr ?_⟩
  rw [discard_pieces]
  rcases Nat.lt_or_gt_of_ne hcount with hlt | hgt
  · refine .inr ⟨?_, .inl ?_⟩
    · rw [completed_blank (discard_pieces s), ne_eq, take_blocks_eq_iff]
      omega
    · rwa [List.length_replicate]
  · exact .inl ⟨blockCount info, Nat.le_refl _, Slots.vacant_blank.mpr hgt⟩

theorem onData_poisoned {s : Metadata} (h : Poisoned sha1 info s) {piece : Nat}
    (hpiece : piece < blockCount info) (order : IterOrder) :
    Poisoned sha1 info (s.onData sha1 order piece (block info piece)).1 ∧
      .done info ∉ (s.onData sha1 order piece (block info piece)).2 := by
  rcases onData_cases sha1 order s piece (block info piece) with
    ⟨-, hdata⟩ | ⟨hempty, -, hdata⟩ | ⟨hempty, hfull, hdata⟩
  · rw [hdata]
    exact ⟨h, by simp⟩
  · rw [hdata]
    refine ⟨⟨h.hash, ?_⟩, by simp⟩
    rw [completed_store hempty, length_store]
    rcases h.stuck with hdone | ⟨j, hj, hbeyond⟩ | hwrong
    · exact absurd hempty (hdone piece)
    · exact .inr (.inl ⟨j, hj, Slots.vacant_fill.mpr ⟨hbeyond, by omega⟩⟩)
    · exact .inr (.inr hwrong)
  · have hcontents : (s.store piece (block info piece)).contents = completed info s := by
      rw [contents_eq_completed info hfull, completed_store hempty]
    rw [hdata]
    rcases h.stuck with hdone | ⟨j, hj, hbeyond⟩ | ⟨hne, hcount⟩
    · exact absurd hempty (hdone piece)
    · exact absurd (Slots.vacant_fill.mpr ⟨hbeyond, by omega⟩) (hfull j)
    · rcases tryFinalize_cases sha1 order (s.store piece (block info piece)) with
        ⟨-, hfinal⟩ | ⟨hmismatch, hfinal, hsent⟩
      · rw [hfinal, hcontents]
        refine ⟨⟨h.hash, .inl hfull⟩, ?_⟩
        simpa using Ne.symm hne
      · rw [hfinal]
        constructor
        · refine discard_poisoned h.hash ?_
          rw [length_store]
          refine hcount.resolve_right fun hsame => hmismatch ?_
          rw [hcontents, hsame]
          exact h.hash.symm
        · intro hdone
          obtain ⟨_, _, _, -, ho⟩ := hsent _ hdone
          contradiction

theorem replies_poisoned {addr : SocketAddr} {s : Metadata} {ds : List (Nat × IterOrder)}
    (h : Poisoned sha1 info s) (hready : Answerable info addr s ds)
    (hds : ∀ d ∈ ds, d.1 < blockCount info) :
    .done info ∉ (History.run (step sha1) s (ds.map (reply info addr))).2 := by
  induction ds generalizing s with
  | nil => simp [History.run]
  | cons d ds ih =>
    have hstep := step_reply sha1 hready
    obtain ⟨hnext, hout⟩ := onData_poisoned h (hds d (List.mem_cons_self ..)) d.2
    rw [List.map_cons, History.run, hstep, List.mem_append, not_or]
    refine ⟨hout, ih hnext ?_ fun e he => hds e (List.mem_cons_of_mem _ he)⟩
    exact hready.next (onData_peers ..) (List.subset_cons_self ..)

theorem poisoned_of_not_recoverable {s : Metadata} (h : Pending (sha1 info) s)
    (hnot : ¬ Recoverable sha1 info s) : Poisoned sha1 info s := by
  refine ⟨h.hash, .inr ?_⟩
  simp only [Recoverable, not_or] at hnot
  obtain ⟨-, hright, hcount⟩ := hnot
  rcases not_and_or.mp hright with hbeyond | hne
  · simp only [not_forall, Nat.not_lt] at hbeyond
    obtain ⟨j, hj, hle⟩ := hbeyond
    exact .inl ⟨j, hle, mem_missing.mp hj⟩
  · refine .inr ⟨hne, ?_⟩
    rcases not_and_or.mp hcount with hlength | hsame
    · exact .inl hlength
    · exact .inr (not_not.mp hsame)

section TwoPasses

variable {s : Metadata} {addr : SocketAddr} {ds : List (Nat × IterOrder)}

theorem replies_twice_done (h : Pending (sha1 info) s) (hready : Answerable info addr s ds)
    (hds : ds.map Prod.fst = List.range (blockCount info) ++ List.range (blockCount info))
    (hvacant : ∃ j, Slots.Vacant s.pieces j)
    (hcover : ∀ j, Slots.Vacant s.pieces j → j < blockCount info)
    (hgood : completed info s = info ∨
      s.pieces.length = blockCount info ∧ sha1 (completed info s) ≠ sha1 info) :
    .done info ∈ (History.run (step sha1) s (ds.map (reply info addr))).2 := by
  obtain ⟨first, second, rfl, hfirst, hsecond⟩ := List.map_eq_append_iff.mp hds
  have hready' : Answerable info addr s first := hready.next rfl (List.subset_append_left ..)
  have hcover' : ∀ j, Slots.Vacant s.pieces j → j ∈ first.map Prod.fst := by
    intro j hj
    rw [hfirst]
    exact List.mem_range.mpr (hcover j hj)
  rcases hgood with hinfo | ⟨hlength, hmismatch⟩
  · exact replies_done hready' h.hash hinfo hvacant hcover' second
  · obtain ⟨d, post, t, hpost, hpeers, hhash, hcount, hcontents, hrun⟩ :=
      run_replies sha1 hready' hvacant hcover'
    have hblank : t.discard.pieces = List.replicate (blockCount info) none := by
      rw [discard_pieces, hcount, hlength]
    have hagain : Answerable info addr t.discard (post ++ second) := by
      refine hready.next hpeers (List.append_subset.mpr ⟨?_, List.subset_append_right ..⟩)
      exact List.Subset.trans hpost (List.subset_append_left ..)
    have hright : completed info t.discard = info := (Right.blank hblank).completed
    obtain ⟨j, hj⟩ := hvacant
    have hdone := replies_done hagain (hhash.trans h.hash) hright
      ⟨0, by rw [hblank]; exact Slots.vacant_blank.mpr (by have := hcover j hj; omega)⟩
      (fun i hi => by
        rw [hblank] at hi
        rw [List.map_append, hsecond]
        exact List.mem_append_right _ (List.mem_range.mpr (Slots.vacant_blank.mp hi))) []
    rw [List.append_nil] at hdone
    rw [hrun]
    refine List.mem_append_right _ ?_
    rcases tryFinalize_cases sha1 d.2 t with ⟨hsame, -⟩ | ⟨-, hfinal, -⟩
    · rw [hcontents, hhash, h.hash] at hsame
      exact absurd hsame hmismatch
    · rwa [hfinal]

end TwoPasses

theorem Poisoned.same_pieces {s t : Metadata} (h : Poisoned sha1 info s)
    (hhash : t.infoHash = s.infoHash) (hpieces : t.pieces = s.pieces) : Poisoned sha1 info t := by
  refine ⟨hhash.trans h.hash, ?_⟩
  rw [completed, hpieces]
  exact h.stuck

theorem honest_done_iff {s : Metadata} {addr : SocketAddr} {ds : List (Nat × IterOrder)}
    (hinfo : info ≠ []) (h : Pending (sha1 info) s)
    (hready : Answerable info addr (s.greeted info.length addr utMetadataExtId) ds)
    (hds : ds.map Prod.fst = List.range (blockCount info) ++ List.range (blockCount info)) :
    .done info ∈ (History.run (step sha1) (s.greeted info.length addr utMetadataExtId)
      (ds.map (reply info addr))).2 ↔ Recoverable sha1 info s := by
  have hpending : Pending (sha1 info) (s.greeted info.length addr utMetadataExtId) := by
    have hsized := announceSize_pending h info.length
    exact ⟨hsized.hash, hsized.unsized, hsized.vacant⟩
  rcases eq_or_ne s.totalSize none with hnone | hsome
  · have hblank : (s.greeted info.length addr utMetadataExtId).pieces =
        List.replicate (blockCount info) none := announced_first hnone info.length
    have hright : completed info (s.greeted info.length addr utMetadataExtId) = info :=
      (Right.blank hblank).completed
    refine iff_of_true (replies_twice_done hpending hready hds ⟨0, ?_⟩ ?_ (.inl hright))
      (.inl hnone)
    · rw [hblank]
      exact Slots.vacant_blank.mpr (blockCount_pos hinfo)
    · intro j hj
      rw [hblank] at hj
      exact Slots.vacant_blank.mp hj
  · have hsame : (s.greeted info.length addr utMetadataExtId).pieces = s.pieces := by
      rw [greeted, announced_later hsome info.length]
    have hcompleted : completed info (s.greeted info.length addr utMetadataExtId) =
        completed info s := by
      rw [completed, hsame, completed]
    constructor
    · intro hdone
      by_contra hnot
      have hpoisoned := (poisoned_of_not_recoverable h hnot).same_pieces
        (hpending.hash.trans h.hash.symm) hsame
      refine replies_poisoned hpoisoned hready (fun d hd => ?_) hdone
      have hmem : d.1 ∈ ds.map Prod.fst := List.mem_map_of_mem hd
      rw [hds, List.mem_append, or_self, List.mem_range] at hmem
      exact hmem
    · have hvacant : s.pieces ≠ [] → ∃ j, Slots.Vacant s.pieces j := h.vacant
      rintro (hnone | ⟨hmissing, hright⟩ | ⟨hlength, hmismatch⟩)
      · exact absurd hnone hsome
      · refine replies_twice_done hpending hready hds ?_ ?_ (.inl (hcompleted.trans hright))
        · rw [hsame]
          refine hvacant fun hnil => hinfo ?_
          rw [← hright, completed, hnil]
          rfl
        · intro j hj
          rw [hsame] at hj
          exact hmissing j (mem_missing.mpr hj)
      · refine replies_twice_done hpending hready hds ?_ ?_ (.inr ?_)
        · rw [hsame]
          refine hvacant fun hnil => ?_
          rw [hnil] at hlength
          exact (blockCount_pos hinfo).ne hlength
        · intro j hj
          rw [hsame] at hj
          exact hlength ▸ Slots.Vacant.lt hj
        · rw [hcompleted, hsame]
          exact ⟨hlength, hmismatch⟩

theorem recovers_iff (hinfo : info ≠ []) (hlt : info.length < 2 ^ 64) {h : Trace} {s : Metadata}
    (hist : History (step sha1) (Started (sha1 info)) h s)
    (hopen : ∀ e ∈ h, ∀ b, Output.done b ∉ e.outputs) (addr : SocketAddr) (order : IterOrder)
    {hs : ExtensionHandshake} (hid : hs.extensions.get "ut_metadata" = some utMetadataExtId)
    (hsize : hs.metadataSize = some info.length) {ds : List (Nat × IterOrder)}
    (hds : ds.map Prod.fst = List.range (blockCount info) ++ List.range (blockCount info)) :
    .done info ∈ (History.run (step sha1) s
      ((.messageReceived addr (.extensionHandshake hs), order) :: ds.map (reply info addr))).2 ↔
        Recoverable sha1 info s := by
  have hready : Answerable info addr (s.greeted info.length addr utMetadataExtId) ds := by
    refine ⟨HashMap.get_insert_self .., hlt, fun d hd => ?_⟩
    have hmem : d.1 ∈ ds.map Prod.fst := List.mem_map_of_mem hd
    rw [hds, List.mem_append, or_self, List.mem_range] at hmem
    exact (piece_lt_length hmem).trans hlt
  rw [← honest_done_iff hinfo (history_pending hist hopen) hready hds, History.run, List.mem_append]
  simp only [step, onMessage, onHandshake_eq hid hsize]
  refine or_iff_right fun hdone => ?_
  obtain ⟨_, _, _, _, ho⟩ := mem_requestMissingFrom.mp hdone
  contradiction

end Metadata

namespace Sample

open Metadata

def sized : Metadata := opened (blockSha1 twoBlocks) 16385 (addr 81) utMetadataExtId

def misled : Metadata := (onData blockSha1 .insertion sized 0 [9]).1

theorem misled_pieces : misled.pieces = [some [9], none] := rfl

theorem misled_history : ∃ h, History (step blockSha1) (Started (blockSha1 twoBlocks)) h misled ∧
    ∀ e ∈ h, ∀ b, Output.done b ∉ e.outputs := by
  obtain ⟨h, hist, -, hopen⟩ := opened_history blockSha1 twoBlocks (addr 81) utMetadataExtId 16385
  have hnext := hist.next (.messageReceived (addr 81)
    (.extension utMetadataExtId (UtMetadataMessage.data 0 16385 [9]).encode), .insertion)
  have hpeer : sized.peers.get (addr 81) = some utMetadataExtId := HashMap.get_insert_self ..
  have hstep : step blockSha1 sized (.messageReceived (addr 81)
      (.extension utMetadataExtId (UtMetadataMessage.data 0 16385 [9]).encode), .insertion) =
        (misled, []) := by
    simp only [step, onMessage, hpeer, ne_eq, not_true_eq_false, if_false, onPayload,
      UtMetadataMessage.decode_data [9] (show 0 < 2 ^ 64 by decide) (show 16385 < 2 ^ 64 by decide)]
    rfl
  change History _ _ (⟨sized, _, (step blockSha1 sized _).2⟩ :: h)
    (step blockSha1 sized _).1 at hnext
  rw [hstep] at hnext
  refine ⟨_, hnext, fun e he => ?_⟩
  rcases List.mem_cons.mp he with rfl | he
  · simp
  · exact hopen e he

theorem misled_recoverable : Recoverable blockSha1 twoBlocks misled := by
  have hcount : blockCount twoBlocks = 2 := twoBlocks_count
  refine .inr (.inr ⟨by rw [hcount]; rfl, ?_⟩)
  have hcompleted : completed twoBlocks misled = [9] ++ block twoBlocks 1 := by
    rw [completed, misled_pieces]
    simp [Slots.completedBy]
  have hne : completed twoBlocks misled ≠ twoBlocks := by
    intro heq
    have hlength := congrArg List.length heq
    rw [hcompleted, length_twoBlocks] at hlength
    simp [block, length_twoBlocks, pieceSize] at hlength
  rw [blockSha1, if_neg hne, blockSha1, if_pos rfl]
  decide

end Sample

namespace Metadata

theorem wrong_piece_recovered : Sample.misled.pieces = [some [9], none] ∧
    Output.done Sample.twoBlocks ∈ (History.run (step Sample.blockSha1) Sample.misled
      ((.messageReceived (Sample.addr 80) (.extensionHandshake
        ⟨HashMap.empty.insert "ut_metadata" utMetadataExtId, some Sample.twoBlocks.length⟩),
          .insertion) ::
        ([0, 1, 0, 1].map fun piece => (piece, .insertion)).map
          (reply Sample.twoBlocks (Sample.addr 80)))).2 := by
  obtain ⟨h, hist, hopen⟩ := Sample.misled_history
  have hcount : blockCount Sample.twoBlocks = 2 := Sample.twoBlocks_count
  refine ⟨Sample.misled_pieces, (recovers_iff Sample.twoBlocks_ne ?_ hist hopen (Sample.addr 80)
    .insertion (HashMap.get_insert_self ..) rfl ?_).mpr Sample.misled_recoverable⟩
  · rw [Sample.length_twoBlocks]
    decide
  · rw [hcount]
    rfl

theorem size_zero_poisons : ¬ ∀ (sha1 : Sha1) (info : Bytes), info ≠ [] → info.length < 2 ^ 64 →
    ∀ (h : Trace) (s : Metadata), History (step sha1) (Started (sha1 info)) h s →
      (∀ e ∈ h, ∀ b, Output.done b ∉ e.outputs) →
      ∀ (addr : SocketAddr) (order : IterOrder) (hs : ExtensionHandshake),
        hs.extensions.get "ut_metadata" = some utMetadataExtId →
        hs.metadataSize = some info.length → ∀ ds : List (Nat × IterOrder),
          ds.map Prod.fst = List.range (blockCount info) ++ List.range (blockCount info) →
          .done info ∈ (History.run (step sha1) s
            ((.messageReceived addr (.extensionHandshake hs), order) ::
              ds.map (reply info addr))).2 := by
  intro hall
  obtain ⟨h, hist, -, hopen⟩ :=
    opened_history Sample.sha1 [0] (Sample.addr 80) utMetadataExtId 0
  have hdone := hall Sample.sha1 [0] (by decide) (by decide) h _ hist hopen (Sample.addr 81)
    .insertion ⟨HashMap.empty.insert "ut_metadata" utMetadataExtId, some 1⟩
    (HashMap.get_insert_self ..) rfl [(0, .insertion), (0, .insertion)] (by decide)
  revert hdone
  decide +kernel

end Metadata

end Tortue
