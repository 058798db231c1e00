import Tortue.Collections.Gathering
import Tortue.Domain.Swarm.Progress

namespace Tortue

open Collections

def BlockState.slot : BlockState → Option Bytes
  | .missing => none
  | .received data => some data

namespace Piece

def cut (content : Bytes) (k : Nat) : Bytes := (content.drop (k * blockSize)).take blockSize

def gathering (p : Piece) : Gathering Bytes :=
  match p.state with
  | .complete => .done
  | .partialBlocks blocks _ => .collecting (blocks.map BlockState.slot)

def verifies (sha1 : Sha1) (hash : PieceHash) (blocks : List Bytes) : Bool :=
  verifyPieceHash sha1 hash blocks.flatten

def receive (sha1 : Sha1) (p : Piece) (d : Nat × Bytes) :
    Piece × List (Except PieceError (Option Bytes)) :=
  ((p.receiveBlock sha1 d.1 d.2).2, [(p.receiveBlock sha1 d.1 d.2).1])

variable {sha1 : Sha1} {p : Piece} {k : Nat} {data : Bytes}

theorem slot_eq_none {b : BlockState} : b.slot = none ↔ b = .missing := by
  cases b <;> simp [BlockState.slot]

theorem vacant_slots {blocks : List BlockState} :
    Slots.Vacant (blocks.map BlockState.slot) k ↔ blocks[k]? = some .missing := by
  simp [Slots.Vacant, Option.map_eq_some_iff, slot_eq_none]

theorem fill_slots (blocks : List BlockState) (k : Nat) (data : Bytes) :
    Slots.fill (blocks.map BlockState.slot) k data =
      (blocks.set k (.received data)).map BlockState.slot := by
  rw [List.map_set]
  rfl

theorem full_slots {blocks : List BlockState} :
    Slots.Full (blocks.map BlockState.slot) ↔ blocks.countP (· ≠ .missing) = blocks.length := by
  rw [List.countP_eq_length]
  simp only [Slots.Full, vacant_slots, decide_eq_true_eq]
  constructor
  · rintro h b hb rfl
    obtain ⟨i, hi⟩ := List.getElem?_of_mem hb
    exact h i hi
  · exact fun h i hi => h _ (List.mem_of_getElem? hi) rfl

theorem flatten_slots (blocks : List BlockState) :
    (Slots.values (blocks.map BlockState.slot)).flatten = blocks.flatMap BlockState.data := by
  induction blocks with
  | nil => rfl
  | cons b blocks ih =>
    cases b with
    | missing => exact ih
    | received data => exact congrArg (data ++ ·) ih

theorem buffer_none_iff {blocks : List BlockState} {received : Nat} (h : Sound p)
    (hstate : p.state = .partialBlocks blocks received) :
    p.buffer = none ↔ ¬ Slots.Full (blocks.map BlockState.slot) := by
  rw [buffer, hstate, full_slots, ← h.count blocks received hstate]
  simp

theorem buffer_some {blocks : List BlockState} {received : Nat} {b : Bytes} (h : Sound p)
    (hstate : p.state = .partialBlocks blocks received) (hb : p.buffer = some b) :
    Slots.Full (blocks.map BlockState.slot) ∧
      (Slots.values (blocks.map BlockState.slot)).flatten = b := by
  constructor
  · by_contra hleft
    rw [(buffer_none_iff h hstate).mpr hleft] at hb
    contradiction
  · rw [buffer, hstate] at hb
    simp only at hb
    split_ifs at hb
    rw [flatten_slots, Option.some.inj hb]

theorem reset_slots (blocks : List BlockState) (k : Nat) (data : Bytes) :
    ((blocks.set k (.received data)).map fun _ => BlockState.missing).map BlockState.slot =
      Slots.clear (blocks.map BlockState.slot) := by
  simp [Slots.clear, BlockState.slot, Function.comp_def]

theorem receiveBlock_filled (sha1 : Sha1) {blocks : List BlockState} {received : Nat}
    (hstate : p.state = .partialBlocks blocks received) (hk : k < blocks.length)
    (hlength : data.length = p.blockLengthAt k) (hfilled : blocks[k]? ≠ some .missing) :
    p.receiveBlock sha1 k data = (.ok none, p) := by
  have hblock : p.blockLength k = .ok data.length := by
    rw [blockLength, hstate, hlength]
    exact if_neg (Nat.not_le.mpr hk)
  simp only [receiveBlock, hstate, hblock, ne_eq, not_true_eq_false, if_false, if_pos hfilled]

theorem receive_gathering (sha1 : Sha1) (h : Sound p) (hk : k < p.blocksTotal)
    (hlength : data.length = p.blockLengthAt k) :
    ∃ r, Gathering.give (verifies sha1 p.expectedHash) p.gathering (k, data) =
        ((p.receive sha1 (k, data)).1.gathering, [r]) ∧
      (p.receive sha1 (k, data)).2 = [.ok (r.map List.flatten)] := by
  cases hstate : p.state with
  | complete => exact ⟨none, by simp [gathering, receive, receiveBlock, hstate, Gathering.give]⟩
  | partialBlocks blocks received =>
    have hlt : k < blocks.length := by
      rw [h.size blocks received hstate]
      exact hk
    have hg : p.gathering = .collecting (blocks.map BlockState.slot) := by
      rw [gathering, hstate]
    have hstored : (p.store k data).state =
        .partialBlocks (blocks.set k (.received data)) (received + 1) := by
      rw [store, hstate]
    by_cases hmissing : blocks[k]? = some .missing
    · have ha : p.Accepts k data := ⟨blocks, received, hstate, hmissing, hlength⟩
      have hvacant := vacant_slots.mpr hmissing
      have hfill := fill_slots blocks k data
      rw [hg]
      rcases receiveBlock_cases sha1 p k data with ⟨hnot, -⟩ | ⟨-, hbuf, hres⟩ |
        ⟨-, b, hbuf, hhash, hres⟩ | ⟨-, b, hbuf, hhash, hres⟩
      · exact absurd ha hnot
      · have hleft := (buffer_none_iff (sound_store h ha) hstored).mp hbuf
        rw [Gathering.give_partial hvacant (hfill ▸ hleft), hfill]
        exact ⟨none, by simp [receive, hres, gathering, hstored], by rw [receive, hres]; rfl⟩
      · obtain ⟨hfull, hvalues⟩ := buffer_some (sound_store h ha) hstored hbuf
        have hreject : verifies sha1 p.expectedHash
            (Slots.values ((blocks.set k (.received data)).map BlockState.slot)) = false := by
          rw [verifies, hvalues]
          exact decide_eq_false hhash
        rw [Gathering.give_full hvacant (hfill ▸ hfull), hfill, hreject]
        refine ⟨none, ?_, by rw [receive, hres]; rfl⟩
        simp [receive, hres, gathering, reset, hstored, ← reset_slots blocks k data]
      · obtain ⟨hfull, hvalues⟩ := buffer_some (sound_store h ha) hstored hbuf
        have haccept : verifies sha1 p.expectedHash
            (Slots.values ((blocks.set k (.received data)).map BlockState.slot)) = true := by
          rw [verifies, hvalues]
          exact decide_eq_true hhash
        rw [Gathering.give_full hvacant (hfill ▸ hfull), hfill, if_pos haccept]
        refine ⟨some _, by rw [receive, hres]; rfl, ?_⟩
        rw [receive, hres, Option.map_some, hvalues]
    · have hres := receiveBlock_filled sha1 hstate hlt hlength hmissing
      rw [hg, Gathering.give_occupied fun hvacant => hmissing (vacant_slots.mp hvacant)]
      exact ⟨none, by rw [receive, hres, hg], by rw [receive, hres]; rfl⟩

structure Ongoing (hash : PieceHash) (len : Nat) (p : Piece) : Prop where
  sound : Sound p
  unfilled : Unfilled p
  length : p.length = len
  hash : p.expectedHash = hash

theorem ongoing_new (hash : PieceHash) {len : Nat} (h : 0 < len) :
    Ongoing hash len (.new hash len) := ⟨sound_new hash len, unfilled_new hash h, rfl, rfl⟩

variable {hash : PieceHash} {len : Nat}

theorem Ongoing.next (h : Ongoing hash len p) (sha1 : Sha1) (d : Nat × Bytes) :
    Ongoing hash len (p.receive sha1 d).1 := by
  obtain ⟨hlength, hhash⟩ := receiveBlock_length sha1 p d.1 d.2
  exact ⟨sound_receiveBlock h.sound sha1 d.1 d.2,
    unfilled_receiveBlock h.sound h.unfilled sha1 d.1 d.2, hlength.trans h.length,
    hhash.trans h.hash⟩

theorem Ongoing.run (h : Ongoing hash len p) (sha1 : Sha1) (ds : List (Nat × Bytes)) :
    Ongoing hash len (History.run (receive sha1) p ds).1 :=
  History.run_invariant (G := fun _ => True) (fun _ d _ hp => hp.next sha1 d) h ds
    fun _ _ => trivial

theorem run_gathering (sha1 : Sha1) (h : Ongoing hash len p) {ds : List (Nat × Bytes)}
    (hds : ∀ d ∈ ds, d.1 < Bitfield.divCeil len blockSize ∧
      d.2.length = min (len - d.1 * blockSize) blockSize) :
    (History.run (receive sha1) p ds).1.gathering =
        (History.run (Gathering.give (verifies sha1 hash)) p.gathering ds).1 ∧
      (History.run (receive sha1) p ds).2 =
        (History.run (Gathering.give (verifies sha1 hash)) p.gathering ds).2.map fun r =>
          .ok (r.map List.flatten) := by
  induction ds generalizing p with
  | nil => exact ⟨rfl, rfl⟩
  | cons d ds ih =>
    obtain ⟨hk, hlength⟩ := hds d (List.mem_cons_self ..)
    rw [← h.length] at hk hlength
    obtain ⟨r, hgive, hresult⟩ := receive_gathering sha1 h.sound hk hlength
    obtain ⟨hstate, hresults⟩ := ih (h.next sha1 d) fun e he =>
      hds e (List.mem_cons_of_mem _ he)
    rw [h.hash] at hgive
    simp only [History.run, hgive]
    refine ⟨hstate, ?_⟩
    rw [hresults, hresult]
    rfl

theorem length_cut (content : Bytes) (k : Nat) :
    (cut content k).length = min (content.length - k * blockSize) blockSize := by
  rw [cut, List.length_take, List.length_drop, Nat.min_comm]

theorem flatten_cut (content : Bytes) :
    ((List.range (Bitfield.divCeil content.length blockSize)).map (cut content)).flatten =
      content := by
  have hblocks := flatMap_blocks content content.length blockSize
    (Bitfield.divCeil content.length blockSize)
  have hcut : ∀ k, (content.drop (k * blockSize)).take
      (min (content.length - k * blockSize) blockSize) = cut content k := by
    intro k
    rw [cut, Nat.min_comm, ← List.take_take, ← List.length_drop, List.take_length]
  have hge := Bitfield.divCeil_mul_ge content.length blockSize_pos
  rw [Nat.min_eq_left hge, List.take_length, List.flatMap_def] at hblocks
  simp only [hcut] at hblocks
  exact hblocks

theorem verifies_cut (sha1 : Sha1) (content : Bytes) :
    verifies sha1 (sha1 content) ((List.range (Bitfield.divCeil content.length blockSize)).map
      (cut content)) = true := by
  rw [verifies, flatten_cut]
  exact decide_eq_true rfl

def deliveries (content : Bytes) (ks : List Nat) : List (Nat × Bytes) :=
  ks.map fun k => (k, cut content k)

def Within (content : Bytes) (ks : List Nat) : Prop :=
  ∀ k ∈ ks, k < Bitfield.divCeil content.length blockSize

def Covers (content : Bytes) (ks : List Nat) : Prop :=
  ∀ k < Bitfield.divCeil content.length blockSize, k ∈ ks

instance (content : Bytes) (ks : List Nat) : Decidable (Covers content ks) :=
  inferInstanceAs (Decidable (∀ k < _, k ∈ ks))

theorem deliveries_fit {content : Bytes} {ks : List Nat} (h : Within content ks) :
    ∀ d ∈ deliveries content ks, d.1 < Bitfield.divCeil content.length blockSize ∧
      d.2.length = min (content.length - d.1 * blockSize) blockSize := by
  intro d hd
  obtain ⟨k, hk, rfl⟩ := List.mem_map.mp hd
  exact ⟨h k hk, length_cut content k⟩

theorem gathering_new (content : Bytes) (hash : PieceHash) :
    (Piece.new hash content.length).gathering =
      .collecting (List.replicate (Bitfield.divCeil content.length blockSize) none) := by
  simp [gathering, Piece.new, BlockState.slot]

theorem isComplete_iff_done : p.isComplete = true ↔ p.gathering = .done := by
  rw [isComplete, gathering]
  cases p.state <;> simp

theorem completes_blank {content : Bytes} {ks : List Nat} {j : Nat} :
    Gathering.Completes (List.replicate (Bitfield.divCeil content.length blockSize)
      (none : Option Bytes)) ks j ↔
        Covers content (ks.take (j + 1)) ∧ ¬ Covers content (ks.take j) := by
  simp only [Gathering.Completes, Slots.vacant_blank, Covers, not_forall, exists_prop]

theorem results_new {sha1 : Sha1} {content : Bytes} (hc : content ≠ []) {ks : List Nat}
    (hks : Within content ks) :
    (History.run (receive sha1) (.new (sha1 content) content.length) (deliveries content ks)).2 =
      (List.range ks.length).map fun j => .ok
        (if Covers content (ks.take (j + 1)) ∧ ¬ Covers content (ks.take j) then some content
          else none) := by
  have hpos := Bitfield.divCeil_pos (List.length_pos_of_ne_nil hc) blockSize_pos
  have hnew := ongoing_new (sha1 content) (List.length_pos_of_ne_nil hc)
  have hopen : ¬ Slots.Full (List.replicate (Bitfield.divCeil content.length blockSize)
      (none : Option Bytes)) :=
    Gathering.not_full_iff.mpr ⟨0, Slots.vacant_blank.mpr hpos⟩
  obtain ⟨-, hresults⟩ := run_gathering sha1 hnew (deliveries_fit hks)
  rw [hresults, gathering_new]
  have hright := Gathering.results_right (verifies_cut sha1 content)
    (Gathering.right_blank (cut content) _) hopen ks
  rw [Gathering.deliveries, ← deliveries] at hright
  rw [hright, List.map_map]
  refine List.map_congr_left fun j _ => ?_
  rw [Function.comp_apply]
  by_cases hj : Covers content (ks.take (j + 1)) ∧ ¬ Covers content (ks.take j)
  · rw [if_pos hj, if_pos (completes_blank.mpr hj), Option.map_some, flatten_cut]
  · rw [if_neg hj, if_neg (mt completes_blank.mp hj), Option.map_none]

theorem not_full_of_open (h : Ongoing hash len p) {t : Slots Bytes}
    (hg : p.gathering = .collecting t) :
    t.length = Bitfield.divCeil len blockSize ∧ ¬ t.Full := by
  cases hstate : p.state with
  | complete => simp [gathering, hstate] at hg
  | partialBlocks blocks received =>
    rw [gathering, hstate] at hg
    obtain rfl := Gathering.collecting.inj hg
    have hsize := h.sound.size blocks received hstate
    have hlt := h.unfilled.missing (by simp [isComplete, hstate])
    rw [blocksReceived, hstate, ← hsize] at hlt
    simp only [h.sound.count blocks received hstate] at hlt
    refine ⟨by rw [List.length_map, hsize, blocksTotal, h.length], fun hfull => ?_⟩
    rw [full_slots.mp hfull] at hlt
    exact Nat.lt_irrefl _ hlt

theorem complete_after_two {sha1 : Sha1} {content : Bytes} {first second : List Nat}
    (h : Ongoing (sha1 content) content.length p) (hfirst : Within content first)
    (hsecond : Within content second) (hcover : Covers content first)
    (hagain : Covers content second) :
    (History.run (receive sha1) p (deliveries content (first ++ second))).1.isComplete = true := by
  have haccept := verifies_cut sha1 content
  have hsettled : Gathering.Settled (cut content) (Bitfield.divCeil content.length blockSize)
      (History.run (receive sha1) p (deliveries content first)).1.gathering := by
    rw [(run_gathering sha1 h (deliveries_fit hfirst)).1]
    cases hg : p.gathering with
    | done =>
      rw [Gathering.run_done]
      exact .inl rfl
    | collecting t =>
      obtain ⟨hlength, hopen⟩ := not_full_of_open h hg
      exact Gathering.settled_of_covered haccept hlength hopen fun k hk =>
        hcover k (hlength ▸ hk.lt)
  have hrun := (run_gathering sha1 (h.run sha1 (deliveries content first))
    (deliveries_fit hsecond)).1
  rw [deliveries, List.map_append, ← deliveries, ← deliveries, History.run_append,
    isComplete_iff_done, hrun]
  exact Gathering.done_of_covered haccept hsettled hagain

theorem block_order_irrelevant (sha1 : Sha1) {content : Bytes} (hc : content ≠ []) :
    (∀ ks, Within content ks →
      (History.run (receive sha1) (.new (sha1 content) content.length) (deliveries content ks)).2 =
        (List.range ks.length).map fun j => .ok
          (if Covers content (ks.take (j + 1)) ∧ ¬ Covers content (ks.take j) then some content
            else none)) ∧
    ∀ calls first second, Within content first → Within content second → Covers content first →
      Covers content second → (History.run (receive sha1) (.new (sha1 content) content.length)
        (calls ++ deliveries content (first ++ second))).1.isComplete = true := by
  refine ⟨fun ks => results_new hc, fun calls first second hfirst hsecond hcover hagain => ?_⟩
  have hnew := ongoing_new (sha1 content) (List.length_pos_of_ne_nil hc)
  rw [History.run_append]
  exact complete_after_two (hnew.run sha1 calls) hfirst hsecond hcover hagain

end Piece

namespace Sample

theorem covers_two {ks : List Nat} : Piece.Covers twoBlocks ks ↔ 0 ∈ ks ∧ 1 ∈ ks := by
  rw [Piece.Covers, twoBlocks_count]
  refine ⟨fun h => ⟨h 0 (by omega), h 1 (by omega)⟩, fun ⟨hfirst, hsecond⟩ k hk => ?_⟩
  obtain rfl | rfl : k = 0 ∨ k = 1 := by omega
  · exact hfirst
  · exact hsecond

end Sample

namespace Piece

theorem two_blocks_out_of_order :
    (History.run (receive Sample.blockSha1)
        (.new (Sample.blockSha1 Sample.twoBlocks) Sample.twoBlocks.length)
        (deliveries Sample.twoBlocks [1, 0, 1])).2 =
      [.ok none, .ok (some Sample.twoBlocks), .ok none] ∧
    (History.run (receive Sample.blockSha1)
        (.new (Sample.blockSha1 Sample.twoBlocks) Sample.twoBlocks.length)
        ([(0, List.replicate 16384 9)] ++
          deliveries Sample.twoBlocks ([1, 0] ++ [0, 1]))).1.isComplete = true := by
  have hwithin : ∀ ks, (∀ k ∈ ks, k < 2) → Within Sample.twoBlocks ks := by
    intro ks hks k hk
    rw [Sample.twoBlocks_count]
    exact hks k hk
  have horder := block_order_irrelevant Sample.blockSha1 Sample.twoBlocks_ne
  refine ⟨(horder.1 [1, 0, 1] (hwithin _ (by simp))).trans ?_, ?_⟩
  · simp [Sample.covers_two, List.range_succ]
  · exact horder.2 [(0, List.replicate 16384 9)] [1, 0] [0, 1] (hwithin _ (by simp))
      (hwithin _ (by simp)) (Sample.covers_two.mpr (by simp)) (Sample.covers_two.mpr (by simp))

end Piece

end Tortue
