import Tortue.Adapters.Custody

namespace Tortue

open Collections PieceManager

namespace Intact

variable {sha1 : Sha1} {m : Metainfo} {c : Custody}

theorem enqueue (h : Intact sha1 m c) {cmd : DiskCommand} {outputs : List Output}
    (hread : ∀ offset len k, cmd ≠ .read offset len k)
    (hwrites : writesOf [cmd] ++ handedOut m outputs = handedOut m c.outputs)
    (hsub : ∀ o ∈ outputs, o ∈ c.outputs) :
    Intact sha1 m { c with queue := c.queue ++ [cmd], outputs } := by
  have hsettled : Custody.settled m { c with queue := c.queue ++ [cmd], outputs } =
      c.settled m := by
    unfold Custody.settled
    rw [writesOf_append, List.append_assoc, hwrites]
  refine ⟨h.laid, fun w hw => ?_, fun range data hin => h.handed range data (hsub _ hin), ?_,
    fun id range hin => h.asked id range (hsub _ hin), fun range data hin => ?_, ?_, ?_⟩
  · rw [writesOf_append] at hw
    refine h.placed w ?_
    rw [← hwrites]
    rcases List.mem_append.mp hw with hw | hw
    · exact List.mem_append_left _ hw
    · exact List.mem_append_right _ (List.mem_append_left _ hw)
  · rw [hsettled]
    exact h.stored
  · obtain ⟨hreads, htasks⟩ := h.apart range data (hsub _ hin)
    exact ⟨fun id r hr => hreads id r (hsub _ hr), htasks⟩
  · rw [hsettled]
    exact h.reads
  · intro pre offset len k post hq
    rw [hsettled]
    rcases concat_eq_split hq with ⟨heq, -⟩ | ⟨post', hq'⟩
    · exact absurd heq.symm (hread offset len k)
    · exact h.answers pre offset len k post' hq'

theorem startRead (h : Intact sha1 m c) {id : UploadReadId} {range : BlockRange}
    {rest : List Output} (hout : c.outputs = .readForUpload id range :: rest) :
    Intact sha1 m { c with
      outputs := rest
      reads := c.reads.insert c.nextTask
        ⟨id, range, false, .unsent ((DiskStorage.new m).storageOffset range)⟩
      nextTask := c.nextTask + 1 } := by
  have hasked : .readForUpload id range ∈ c.outputs := by
    rw [hout]
    exact List.mem_cons_self ..
  have hrest : Intact sha1 m { c with outputs := rest } := by
    refine h.restack ?_ fun o ho => .inl ?_
    · rw [hout]
      rfl
    · rw [hout]
      exact List.mem_cons_of_mem _ ho
  refine ⟨hrest.laid, hrest.queued, hrest.handed, hrest.stored, hrest.asked,
    fun r data hin => ?_, fun k t ht => ?_, fun pre offset len k post hq => ?_⟩
  · obtain ⟨hreads, htasks⟩ := hrest.apart r data hin
    refine ⟨hreads, fun k t ht => ?_⟩
    rw [HashMap.get_insert] at ht
    split at ht
    · rw [Option.some.injEq] at ht
      rw [← ht]
      refine (h.apart r data ?_).1 id range hasked
      rw [hout]
      exact List.mem_cons_of_mem _ hin
    · exact htasks k t ht
  · rw [HashMap.get_insert] at ht
    split at ht
    · next heq =>
      rw [Option.some.injEq] at ht
      subst heq ht
      exact ⟨Nat.lt_succ_self _, h.asked id range hasked, rfl⟩
    · obtain ⟨hk, hreadable, hhonest⟩ := hrest.reads k t ht
      exact ⟨Nat.lt_succ_of_lt hk, hreadable, hhonest⟩
  · obtain ⟨hk, hanswer⟩ := hrest.answers pre offset len k post hq
    refine ⟨Nat.lt_succ_of_lt hk, fun t ht => ?_⟩
    rw [HashMap.get_insert, if_neg (Nat.ne_of_lt hk)] at ht
    exact hanswer t ht

theorem revise (h : Intact sha1 m c) {reads : HashMap Nat ReadTask}
    (hsub : ∀ k t', reads.get k = some t' → ∃ t, c.reads.get k = some t ∧ t'.range = t.range ∧
      (∀ r, t'.state = .unsent r → t.state = .unsent r) ∧
        ∀ data, t'.state = .finished (.ok data) → t.state = .finished (.ok data)) :
    Intact sha1 m { c with reads } := by
  refine ⟨h.laid, h.queued, h.handed, h.stored, h.asked, fun range data hin => ?_,
    fun k t' ht' => ?_, fun pre offset len k post hq => ?_⟩
  · obtain ⟨hreads, htasks⟩ := h.apart range data hin
    refine ⟨hreads, fun k t' ht' => ?_⟩
    obtain ⟨t, ht, hrange, -⟩ := hsub k t' ht'
    rw [hrange]
    exact htasks k t ht
  · obtain ⟨t, ht, hrange, hunsent, hdone⟩ := hsub k t' ht'
    obtain ⟨hk, hreadable, hhonest⟩ := h.reads k t ht
    refine ⟨hk, hrange ▸ hreadable, ?_⟩
    unfold Honest at hhonest ⊢
    split
    · next r hr =>
      rw [hunsent r hr] at hhonest
      rw [hrange]
      exact hhonest
    · next data hdata =>
      rw [hdone data hdata] at hhonest
      rw [hrange]
      exact hhonest
    · trivial
  · obtain ⟨hk, hanswer⟩ := h.answers pre offset len k post hq
    refine ⟨hk, fun t' ht' => ?_⟩
    obtain ⟨t, ht, hrange, hunsent, -⟩ := hsub k t' ht'
    obtain ⟨hsent, hoffset, hlen, hwindow⟩ := hanswer t ht
    rw [hrange]
    exact ⟨fun r hr => hsent r (hunsent r hr), hoffset, hlen, hwindow⟩

theorem send (h : Intact sha1 m c) (hd : m.Divided) {k : Nat} {t : ReadTask} {offset : Nat}
    (ht : c.reads.get k = some t) (hs : t.state = .unsent (.ok offset)) :
    Intact sha1 m { c with
      queue := c.queue ++ [.read offset t.range.len k]
      reads := c.reads.insert k { t with state := .waiting } } := by
  obtain ⟨hk, hreadable, hhonest⟩ := h.reads k t ht
  have hoffset : offset = position m t.range := by
    unfold Honest at hhonest
    rw [hs] at hhonest
    simp only [hreadable.storageOffset hd, Except.ok.injEq] at hhonest
    exact hhonest
  have hrevised : Intact sha1 m
      { c with reads := c.reads.insert k { t with state := .waiting } } := by
    refine h.revise fun j t' ht' => ?_
    rw [HashMap.get_insert] at ht'
    split at ht'
    · next heq =>
      rw [Option.some.injEq] at ht'
      subst heq ht'
      exact ⟨t, ht, rfl, fun r hr => by contradiction, fun data hr => by contradiction⟩
    · exact ⟨t', ht', rfl, fun r hr => hr, fun data hr => hr⟩
  have hwrites : writesOf (c.queue ++ [.read offset t.range.len k]) = writesOf c.queue := by
    rw [writesOf_append]
    exact List.append_nil _
  have hsettled : Custody.settled m { c with
      queue := c.queue ++ [.read offset t.range.len k]
      reads := c.reads.insert k { t with state := .waiting } } = c.settled m := by
    unfold Custody.settled
    rw [hwrites]
  refine ⟨hrevised.laid, ?_, hrevised.handed, ?_, hrevised.asked, hrevised.apart, ?_, ?_⟩
  · rw [hwrites]
    exact h.queued
  · rw [hsettled]
    exact h.stored
  · rw [hsettled]
    exact hrevised.reads
  · intro pre offset' len k' post hq
    rw [hsettled]
    rcases concat_eq_split hq with ⟨heq, rfl⟩ | ⟨post', hq'⟩
    · rw [DiskCommand.read.injEq] at heq
      obtain ⟨rfl, rfl, rfl⟩ := heq
      refine ⟨hk, fun t' ht' => ?_⟩
      rw [HashMap.get_insert_self, Option.some.injEq] at ht'
      subst ht'
      refine ⟨fun r hr => by contradiction, hoffset, rfl, ?_⟩
      rw [hoffset]
      exact h.window_queue hd hreadable fun r data hin => (h.apart r data hin).2 k' t ht
    · exact hrevised.answers pre offset' len k' post' hq'

theorem drop (h : Intact sha1 m c) {cmd : DiskCommand} {queue : List DiskCommand}
    (hq : c.queue = cmd :: queue) (hcmd : writesOf [cmd] = []) :
    Intact sha1 m { c with queue } := by
  have hwrites : ∀ l, writesOf (cmd :: l) = writesOf l := by
    intro l
    have hsplit := writesOf_append [cmd] l
    rw [hcmd] at hsplit
    exact hsplit
  have hsettled : Custody.settled m { c with queue } = c.settled m := by
    unfold Custody.settled
    rw [hq, hwrites]
  refine ⟨h.laid, fun w hw => h.queued w ?_, h.handed, ?_, h.asked, h.apart, ?_, ?_⟩
  · rw [hq, hwrites]
    exact hw
  · rw [hsettled]
    exact h.stored
  · rw [hsettled]
    exact h.reads
  · intro pre offset len k post hq'
    obtain ⟨hk, hanswer⟩ := h.answers (cmd :: pre) offset len k post (by
      rw [hq]
      exact congrArg (cmd :: ·) hq')
    rw [hwrites] at hanswer
    rw [hsettled]
    exact ⟨hk, hanswer⟩

theorem write (h : Intact sha1 m c) (hd : m.Divided) {offset : Nat} {data : Bytes}
    {queue : List DiskCommand} (hq : c.queue = .write offset data :: queue) :
    Intact sha1 m { c with
      queue
      files := DiskStorage.writeToFiles c.files offset data } := by
  have hsum : m.fileLengths.sum < 2 ^ 64 := hd.total ▸ hd.small
  have hwrites : ∀ l, writesOf (.write offset data :: l) = (offset, data) :: writesOf l :=
    fun _ => rfl
  have hfit : offset + data.length ≤ m.fileLengths.sum := by
    have hplaced := h.queued (offset, data) (by
      rw [hq]
      exact List.mem_cons_self ..)
    rw [← hd.total]
    exact hplaced.fits hd
  have hbytes := DiskStorage.bytes_writeToFiles h.laid hsum hfit
  have hsettled : Custody.settled m { c with
      queue
      files := DiskStorage.writeToFiles c.files offset data } = c.settled m := by
    unfold Custody.settled
    rw [hq, hwrites, hbytes]
    rfl
  refine ⟨h.laid.writeToFiles hsum hfit, fun w hw => h.queued w ?_, h.handed, ?_, h.asked, h.apart,
    ?_, ?_⟩
  · rw [hq, hwrites]
    exact List.mem_cons_of_mem _ hw
  · rw [hsettled]
    exact h.stored
  · rw [hsettled]
    exact h.reads
  · intro pre offset' len k post hq'
    obtain ⟨hk, hanswer⟩ := h.answers (.write offset data :: pre) offset' len k post (by
      rw [hq]
      exact congrArg (DiskCommand.write offset data :: ·) hq')
    rw [hsettled, hbytes]
    exact ⟨hk, hanswer⟩

theorem reply (h : Intact sha1 m c) (hd : m.Divided) {offset len k : Nat}
    {queue : List DiskCommand} (hq : c.queue = .read offset len k :: queue) :
    Intact sha1 m { c with
      queue
      reads := c.reads.modify k
        (ReadTask.finish (DiskStorage.readFromFiles c.files offset len)) } := by
  have hdropped : Intact sha1 m { c with queue } := h.drop hq rfl
  have hsettled : Custody.settled m { c with queue } = c.settled m := by
    unfold Custody.settled
    rw [hq]
    rfl
  obtain ⟨hk, hanswer⟩ := h.answers [] offset len k queue hq
  refine ⟨hdropped.laid, hdropped.queued, hdropped.handed, hdropped.stored, hdropped.asked,
    fun range data hin => ?_, fun j t' ht' => ?_, fun pre offset' len' j post hq' => ?_⟩
  · obtain ⟨hreads, htasks⟩ := hdropped.apart range data hin
    refine ⟨hreads, fun j t' ht' => ?_⟩
    rw [HashMap.get_modify] at ht'
    split at ht'
    · obtain ⟨t, ht, rfl⟩ := Option.map_eq_some_iff.mp ht'
      exact htasks j t ht
    · exact htasks j t' ht'
  · rw [HashMap.get_modify] at ht'
    split at ht'
    · next heq =>
      subst heq
      obtain ⟨t, ht, rfl⟩ := Option.map_eq_some_iff.mp ht'
      obtain ⟨hj, hreadable, -⟩ := hdropped.reads j t ht
      obtain ⟨-, rfl, rfl, hwindow⟩ := hanswer t ht
      have hfit := hreadable.fits hd
      have hread := DiskStorage.readFromFiles_eq h.laid (hd.total ▸ hd.small)
        (hd.total ▸ hfit : position m t.range + t.range.len ≤ m.fileLengths.sum)
      refine ⟨hj, hreadable, ?_⟩
      rw [hread]
      exact honest_finish.mpr (hwindow.trans (congrArg (window · _ _) hsettled.symm))
    · exact hdropped.reads j t' ht'
  · obtain ⟨hj, hanswer'⟩ := hdropped.answers pre offset' len' j post hq'
    refine ⟨hj, fun t' ht' => ?_⟩
    rw [HashMap.get_modify] at ht'
    split at ht'
    · obtain ⟨t, ht, rfl⟩ := Option.map_eq_some_iff.mp ht'
      obtain ⟨-, hrest⟩ := hanswer' t ht
      exact ⟨fun r hr => by contradiction, hrest⟩
    · exact hanswer' t' ht'

end Intact

namespace Intact

variable {sha1 : Sha1} {m : Metainfo} {c : Custody} {pieces : PieceManager} {outputs : List Output}

theorem settled_of_drained (hnil : c.outputs = []) :
    c.settled m = overwrite (DiskStorage.bytes c.files) (writesOf c.queue) := by
  unfold Custody.settled
  rw [hnil]
  exact congrArg _ (List.append_nil _)

theorem quiet (h : Intact sha1 m c) (hnil : c.outputs = [])
    (hsame : ∀ j, pieces.CompleteAt j ↔ c.pieces.CompleteAt j)
    (hnone : ∀ range data, .writePiece range data ∉ outputs)
    (hasked : ∀ id range, .readForUpload id range ∈ outputs → Readable m pieces range) :
    Intact sha1 m { c with pieces, outputs } := by
  have hsettled : Custody.settled m { c with pieces, outputs } = c.settled m := by
    rw [settled_of_drained hnil]
    unfold Custody.settled
    rw [handedOut_silent hnone, List.append_nil]
  refine ⟨h.laid, h.queued, fun range data hin => absurd hin (hnone range data), fun i hi => ?_,
    hasked, fun range data hin => absurd hin (hnone range data), fun k t ht => ?_, ?_⟩
  · rw [hsettled]
    exact h.stored i ((hsame i).mp hi)
  · obtain ⟨hk, hreadable, hhonest⟩ := h.reads k t ht
    rw [hsettled]
    exact ⟨hk, hreadable.mono fun j hj => (hsame j).mpr hj, hhonest⟩
  · rw [hsettled]
    exact h.answers

theorem pieceBytes_splice_self (hd : m.Divided) {range : BlockRange} {data content : Bytes}
    (hwhole : WholePiece m range data) (hcontent : content.length = m.totalSize) :
    pieceBytes m (splice content (range.pieceIndex * m.pieceLength) data) range.pieceIndex =
      data := by
  have hfit := hd.piece_fits hwhole.index hwhole.length
  unfold pieceBytes
  rw [hwhole.length, Option.getD_some]
  exact window_splice_self (by omega)

theorem pieceBytes_splice_other (hd : m.Divided) {range : BlockRange} {data content : Bytes}
    (hwhole : WholePiece m range data) (hcontent : content.length = m.totalSize) {i len : Nat}
    (hindex : i < m.pieces.length) (hlen : pieceLengthAt m i = some len)
    (hne : range.pieceIndex ≠ i) :
    pieceBytes m (splice content (range.pieceIndex * m.pieceLength) data) i =
      pieceBytes m content i := by
  have hfit := hd.piece_fits hwhole.index hwhole.length
  unfold pieceBytes
  rw [hlen, Option.getD_some]
  exact window_splice_disjoint (by omega)
    (hd.pieces_apart hwhole.index hindex hwhole.length hlen hne)

theorem handOut (h : Intact sha1 m c) (hd : m.Divided) (hnil : c.outputs = [])
    {range : BlockRange} {data : Bytes} (hwhole : WholePiece m range data)
    (hhash : m.pieces[range.pieceIndex]? = some (sha1 data))
    (hmissing : ¬ c.pieces.CompleteAt range.pieceIndex)
    (hcomplete : ∀ j, pieces.CompleteAt j ↔ c.pieces.CompleteAt j ∨ range.pieceIndex = j)
    (hdescribed : ∀ j, c.pieces.CompleteAt j → j < m.pieces.length ∧
      ∃ len, pieceLengthAt m j = some len)
    (hwrites : handedOut m outputs = [(position m range, data)])
    (honly : ∀ r d, .writePiece r d ∈ outputs → r = range ∧ d = data)
    (hreads : ∀ id r, .readForUpload id r ∉ outputs) :
    Intact sha1 m { c with pieces, outputs } := by
  have hplace : position m range = range.pieceIndex * m.pieceLength := by
    simp only [position, hwhole.offset, Nat.add_zero]
  have hfit := hd.piece_fits hwhole.index hwhole.length
  have hlength := h.length_settled hd
  have hsettled : Custody.settled m { c with pieces, outputs } =
      splice (c.settled m) (range.pieceIndex * m.pieceLength) data := by
    rw [settled_of_drained hnil]
    unfold Custody.settled
    rw [hwrites, overwrite_append, hplace]
    rfl
  have hwindow : ∀ r, Readable m c.pieces r →
      window (splice (c.settled m) (range.pieceIndex * m.pieceLength) data)
        (position m r) r.len = window (c.settled m) (position m r) r.len := by
    intro r hreadable
    refine window_splice_disjoint (by omega) ?_
    exact apart_of_ne hd hreadable hwhole.index hwhole.length fun heq =>
      hmissing (heq ▸ hreadable.complete)
  refine ⟨h.laid, h.queued, fun r d hin => ?_, fun i hi => ?_,
    fun id r hin => absurd hin (hreads id r), fun r d hin => ?_, fun k t ht => ?_,
    fun pre offset len k post hq => ?_⟩
  · obtain ⟨rfl, rfl⟩ := honly r d hin
    exact hwhole
  · rw [hsettled]
    rcases (hcomplete i).mp hi with hbefore | rfl
    · have hne : range.pieceIndex ≠ i := fun heq => hmissing (heq ▸ hbefore)
      obtain ⟨hindex, len, hlen⟩ := hdescribed i hbefore
      rw [pieceBytes_splice_other hd hwhole hlength hindex hlen hne]
      exact h.stored i hbefore
    · rw [pieceBytes_splice_self hd hwhole hlength]
      exact hhash
  · obtain ⟨rfl, rfl⟩ := honly r d hin
    refine ⟨fun id r hr => absurd hr (hreads id r), fun k t ht heq => ?_⟩
    obtain ⟨-, hreadable, -⟩ := h.reads k t ht
    exact hmissing (heq ▸ hreadable.complete)
  · obtain ⟨hk, hreadable, hhonest⟩ := h.reads k t ht
    refine ⟨hk, hreadable.mono fun j hj => (hcomplete j).mpr (.inl hj), ?_⟩
    rw [hsettled]
    unfold Honest at hhonest ⊢
    split
    · next r hr =>
      rw [hr] at hhonest
      exact hhonest
    · next d hdone =>
      rw [hdone] at hhonest
      rw [hwindow t.range hreadable]
      exact hhonest
    · trivial
  · obtain ⟨hk, hanswer⟩ := h.answers pre offset len k post hq
    refine ⟨hk, fun t ht => ?_⟩
    obtain ⟨hsent, rfl, rfl, hseen⟩ := hanswer t ht
    obtain ⟨-, hreadable, -⟩ := h.reads k t ht
    rw [hsettled, hwindow t.range hreadable]
    exact ⟨hsent, rfl, rfl, hseen⟩

end Intact

section

variable {sha1 : Sha1} {clientId : PeerId} {m : Metainfo} {s : Swarm}

theorem readable_of_valid {pm : PieceManager} (hm : Described m pm) {range : BlockRange}
    (h : pm.validUploadRange range = true) : Readable m pm range := by
  unfold validUploadRange at h
  cases hp : pm.pieces[range.pieceIndex]? with
  | none =>
    rw [hp] at h
    contradiction
  | some p =>
    rw [hp] at h
    simp only [Option.any_some, Bool.and_eq_true, decide_eq_true_eq] at h
    obtain ⟨⟨⟨⟨hcomplete, hlen⟩, -⟩, -⟩, hwithin⟩ := h
    have hi := (List.getElem?_eq_some_iff.mp hp).1
    exact ⟨⟨p, hp, hcomplete⟩, hm.length ▸ hi, hlen, p.length, (hm.piece _ p hp).1, hwithin⟩

theorem Swarm.Completes.handedOut {x : SocketAddr} {range : BlockRange} {data : Bytes} {t : Swarm}
    {outputs : List Output} {c : CompletedPiece}
    (h : Swarm.Completes sha1 s x range data t outputs c) :
    handedOut m outputs = [(position m c.range, c.data)] := by
  obtain ⟨rest, rfl, honly, -⟩ := h.outputs
  have hrest : Tortue.handedOut m rest = [] := by
    refine handedOut_silent fun range data hin => ?_
    have heq := honly _ hin rfl
    contradiction
  have hsplit := handedOut_append (m := m)
    [.broadcast (.havePiece c.range.pieceIndex), .writePiece c.range c.data] rest
  rw [hrest, List.append_nil] at hsplit
  exact hsplit

theorem Swarm.readable_of_output {inp : Input × Entropy} (hdescribed : Described m s.pieces)
    {id : UploadReadId} {range : BlockRange}
    (h : .readForUpload id range ∈ (s.step sha1 inp).2) :
    (∃ x, inp.1 = .messageReceived x (.request range)) ∧ Readable m s.pieces range := by
  rcases Swarm.step_uploads sha1 s inp h rfl with
    ⟨x, id', range', hi, ho, hvalid⟩ | ⟨x, id', range', data, -, ho⟩
  · rw [Output.readForUpload.injEq] at ho
    obtain ⟨rfl, rfl⟩ := ho
    exact ⟨⟨x, hi⟩, readable_of_valid hdescribed hvalid⟩
  · contradiction

theorem Swarm.Completes.whole {trace : Trace}
    (hist : History (Swarm.step sha1) (Swarm.Started clientId m) trace s) {x : SocketAddr}
    {range : BlockRange} {data : Bytes} {t : Swarm} {outputs : List Output} {c : CompletedPiece}
    (h : Swarm.Completes sha1 s x range data t outputs c) : WholePiece m c.range c.data := by
  have hverified := (completed_verified (Swarm.deliveries_delivered hist)
    (d := (range, data)) h.result).1
  exact ⟨(List.getElem?_eq_some_iff.mp hverified.hash).1, hverified.offset, hverified.len,
    hverified.length⟩

theorem Intact.step {c : Custody} (h : Intact sha1 m c) (hd : m.Divided)
    (hr : Swarm.Reachable sha1 clientId m s) (hp : c.pieces = s.pieces) (hnil : c.outputs = [])
    (inp : Input × Entropy) (hlocal : ∀ j data, inp.1 ≠ .localPiece j data) :
    Intact sha1 m { c with
      pieces := (s.step sha1 inp).1.pieces
      outputs := (s.step sha1 inp).2 } := by
  obtain ⟨trace, hist⟩ := hr
  have hs : s.pieces.Sound := Swarm.history_sound hist
  have hdelivered := Swarm.deliveries_delivered hist
  have hdescribed : Described m s.pieces := delivered_described hdelivered
  have hmono : ∀ j, s.pieces.CompleteAt j → (s.step sha1 inp).1.pieces.CompleteAt j :=
    fun j hj => (Swarm.complete_step sha1 j s inp ⟨hs, hj⟩).2
  rcases Swarm.step_completion hs inp hlocal with
    ⟨hsilent, hkept⟩ | ⟨x, range, data, piece, hi, hc⟩
  · refine h.quiet hnil (fun j => ?_) (fun range data hin => ?_) fun id range hin => ?_
    · rw [hp]
      exact ⟨hkept j, hmono j⟩
    · have hfalse := hsilent _ hin
      contradiction
    · exact (Swarm.readable_of_output hdescribed hin).2.mono hmono
  · obtain ⟨hverified, hmissing⟩ :=
      completed_verified hdelivered (d := (range, data)) hc.result
    refine h.handOut hd hnil (hc.whole hist) hverified.hash (hp ▸ hmissing) (fun j => ?_)
      (fun j hj => ?_) hc.handedOut (fun r d hin => ?_) fun id r hin => ?_
    · rw [hp]
      exact hc.completeAt_iff hs j
    · obtain ⟨q, hq, -⟩ := hp ▸ hj
      exact ⟨hdescribed.length ▸ (List.getElem?_eq_some_iff.mp hq).1, _,
        (hdescribed.piece j q hq).1⟩
    · rcases hc.writes_iff hin rfl with ho | ho | ho
      · contradiction
      · rw [Output.writePiece.injEq] at ho
        exact ho
      · contradiction
    · obtain ⟨⟨x', hi'⟩, -⟩ := Swarm.readable_of_output hdescribed hin
      rw [hi] at hi'
      simp at hi'

end

end Tortue
