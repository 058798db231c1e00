import Tortue.Properties.Restoration
import Tortue.Adapters.Restart
import Tortue.Adapters.UnixFiles

namespace Tortue

open Collections PieceManager

namespace Sample

def lives : List (Life.Move × Entropy) := sharing.map fun move => (.loop move, env)

end Sample

namespace SwarmIo

variable {sha1 : Sha1} {env : Entropy} {clientId : PeerId} {m : Metainfo} {io io' : SwarmIo}
  {files : List OutputFile}

instance {i : Nat} : Decidable (Holds sha1 m files i) :=
  inferInstanceAs (Decidable (_ = _))

def Kept (sha1 : Sha1) (m : Metainfo) (io : SwarmIo) : Prop :=
  OnDisk sha1 m io.swarm.pieces io.worker.files (io.custody.pending m)

structure Alive (sha1 : Sha1) (m : Metainfo) (io : SwarmIo) : Prop where
  secured : ∃ clientId, Secured sha1 clientId m io
  divided : m.Divided
  kept : Kept sha1 m io

theorem holds_iff_complete (hvalid : m.validate = .ok ()) (hsum : m.fileLengths.sum < 2 ^ 64)
    (hlaid : DiskStorage.Laid m files) {fresh : SwarmIo}
    (hnew : SwarmIo.new clientId m files = some fresh)
    (hrestore : fresh.restore sha1 env = .ok io) {i : Nat} (hi : i < m.pieces.length) :
    Holds sha1 m files i ↔ io.swarm.pieces.CompleteAt i := by
  obtain ⟨⟨h, hist⟩, hsettled⟩ := restore_settles hvalid hsum hlaid hnew hrestore
  have hcount := (Swarm.history_marked hist).count
  have hhash := List.getElem?_eq_getElem hi
  obtain ⟨p, hp, hcomplete, -⟩ := SettledTo.exact (hcount ▸ hsettled) hcount hhash
  unfold Holds
  rw [hhash, Option.some.injEq, eq_comm, ← hcomplete]
  constructor
  · exact fun hdone => ⟨p, hp, hdone⟩
  · rintro ⟨q, hq, hdone⟩
    rw [hp, Option.some.injEq] at hq
    exact hq ▸ hdone

theorem restored_files {fresh : SwarmIo} (hnew : SwarmIo.new clientId m files = some fresh)
    (hrestore : fresh.restore sha1 env = .ok io) : io.worker.files = files := by
  obtain ⟨-, swarm, rfl, -⟩ := restore_steps hnew hrestore
  exact (new_fields hnew).2.2

theorem started_alive (hvalid : m.validate = .ok ()) (hsum : m.fileLengths.sum < 2 ^ 64)
    (h : Started sha1 clientId m io) : Alive sha1 m io := by
  have hrestored := started_restored hvalid hsum h
  obtain ⟨files, fresh, env, hlaid, hnew, hrestore⟩ := h
  have hpending : io.custody.pending m = [] := by
    simp only [Custody.pending, custody, hrestored.queue, hrestored.outputs]
    rfl
  refine ⟨⟨clientId, hrestored.secured⟩, hrestored.divided, ?_⟩
  unfold Kept
  rw [hpending]
  refine ⟨by simp, .nil, fun i _ hawaits => ?_, fun i hi => ?_⟩
  · obtain ⟨data, hdata⟩ := hawaits
    contradiction
  · rw [restored_files hnew hrestore, holds_iff_complete hvalid hsum hlaid hnew hrestore hi]
    simp [Awaits]

theorem Kept.step (h : Kept sha1 m io) (hs : Secured sha1 clientId m io) (hd : m.Divided)
    (hpassage : Passage sha1 m env io io') : Kept sha1 m io' := by
  unfold Kept at h ⊢
  cases hpassage with
  | keep hpieces hfiles hpending =>
    rw [hpieces, hfiles, hpending]
    exact h
  | store offset data hpieces hfiles hpending =>
    rw [hpending] at h
    rw [hpieces, hfiles]
    exact h.store hd hs.intact.laid
  | step input hlocal hpieces hfiles hpending =>
    obtain ⟨trace, hist⟩ := hs.reachable
    have hsound := Swarm.history_sound hist
    rw [hpieces, hfiles, hpending]
    rcases Swarm.step_completion hsound (input, env) hlocal with
      ⟨hsilent, hback⟩ | ⟨x, range, data, c, -, hc⟩
    · have hnone : handedOut m (Swarm.step sha1 io.swarm (input, env)).2 = [] := by
        refine handedOut_silent fun range data hin => ?_
        have hfalse := hsilent _ hin
        contradiction
      rw [hnone, List.append_nil]
      exact h.quiet fun i =>
        ⟨hback i, fun hi => (Swarm.complete_step sha1 i io.swarm (input, env) ⟨hsound, hi⟩).2⟩
    · obtain ⟨hverified, hmissing⟩ :=
        completed_verified (Swarm.deliveries_delivered hist) (d := (range, data)) hc.result
      have hwhole := hc.whole hist
      have hsealed : Sealed sha1 m c.range.pieceIndex (position m c.range, c.data) := by
        refine ⟨hwhole.index, ?_, hverified.length, hverified.hash⟩
        simp only [position, hverified.offset, Nat.add_zero]
      rw [hc.handedOut]
      exact h.handOut hd hsealed hmissing fun j => hc.completeAt_iff hsound j

theorem alive_step (h : Alive sha1 m io) {move : Move} (hmove : move.faultless = true) :
    Alive sha1 m (io.step sha1 (move, env)).1 := by
  obtain ⟨clientId, hs⟩ := h.secured
  refine ⟨⟨clientId, hs.step h.divided fun fault hfault => ?_⟩, h.divided,
    h.kept.step hs h.divided (passage_step hs h.divided hmove)⟩
  rw [hfault] at hmove
  contradiction

theorem holds_step (h : Alive sha1 m io) {move : Move} (hmove : move.faultless = true) {i : Nat}
    (hi : i < m.pieces.length) (hheld : Holds sha1 m io.worker.files i) :
    Holds sha1 m (io.step sha1 (move, env)).1.worker.files i := by
  obtain ⟨clientId, hs⟩ := h.secured
  have hpassage : Passage sha1 m env io (io.step sha1 (move, env)).1 :=
    passage_step hs h.divided hmove
  cases hpassage with
  | keep hpieces hfiles hpending => rwa [hfiles]
  | step input hlocal hpieces hfiles hpending => rwa [hfiles]
  | store offset data hpieces hfiles hpending =>
    obtain ⟨j, hw⟩ := h.kept.whole (offset, data) (by
      rw [hpending]
      exact List.mem_cons_self ..)
    rw [hfiles]
    by_cases hij : j = i
    · exact hij ▸ OnDisk.holds_self h.divided hs.intact.laid hw
    · exact (OnDisk.holds_other h.divided hs.intact.laid hw hi hij).mpr hheld

theorem executed_head (hs : Secured sha1 clientId m io) (move : Move) {cmd : DiskCommand}
    (h : .executed cmd ∈ (io.step sha1 (move, env)).2) : io.worker.queue.head? = some cmd := by
  have hdrained : io.core.Drained := fun hstopped =>
    absurd hs.running (Bool.eq_false_iff.mp hstopped)
  have hcourse : Course sha1 io (move, env) (io.step sha1 (move, env)).1.core
    (io.step sha1 (move, env)).2 := course_step hdrained (move, env)
  generalize (io.step sha1 (move, env)).1.core = c at hcourse
  generalize (io.step sha1 (move, env)).2 = effects at hcourse h
  cases hcourse with
  | pass _ _ _ _ _ _ _ hsent =>
    obtain ⟨k, x, message, heq⟩ := hsent _ h
    contradiction
  | serve offset len task queue _ hqueue hserved =>
    rw [Effect.executed.inj (hserved _ h), hqueue]
    rfl
  | store offset data queue _ hqueue =>
    rw [Effect.executed.inj (List.mem_singleton.mp h), hqueue]
    rfl
  | flushed queue _ hqueue =>
    rw [Effect.executed.inj (List.mem_singleton.mp h), hqueue]
    rfl
  | _ => simp [publish] at h

end SwarmIo

namespace Life

open SwarmIo

variable {sha1 : Sha1} {env : Entropy} {clientId : PeerId} {m : Metainfo} {life : Life}
  {files : List OutputFile}

structure OfPiece (m : Metainfo) (w : Outstanding) (i : Nat) : Prop where
  index : i < m.pieces.length
  offset : w.offset = i * m.pieceLength
  length : pieceLengthAt m i = some w.len

structure Tracked (sha1 : Sha1) (m : Metainfo) (life : Life) : Prop where
  alive : Alive sha1 m life.io
  late : ∀ w ∈ life.late, ∃ i, OfPiece m w i

structure Settled (sha1 : Sha1) (m : Metainfo) (life : Life) (i : Nat) : Prop where
  holds : Holds sha1 m life.io.worker.files i
  written : ∀ w ∈ life.late, w.offset ≠ i * m.pieceLength

theorem pending_of_head {offset : Nat} {data : Bytes}
    (hhead : life.io.worker.queue.head? = some (.write offset data)) :
    (offset, data) ∈ life.io.custody.pending m := by
  obtain ⟨queue, hqueue⟩ := List.head?_eq_some_iff.mp hhead
  simp only [Custody.pending, custody, hqueue]
  exact List.mem_append_left _ (List.mem_cons_self ..)

theorem mem_begun {offset len : Nat} {w : Outstanding}
    (h : w ∈ Outstanding.begun files offset len) :
    w.offset = offset ∧ w.len = len := by
  obtain ⟨k, -, rfl⟩ := List.mem_map.mp h
  exact ⟨rfl, rfl⟩

theorem ofPiece_pending (h : Alive sha1 m life.io) {w : Outstanding} {data : Bytes}
    (hin : (w.offset, data) ∈ life.io.custody.pending m) (hlen : w.len = data.length) :
    ∃ i, OfPiece m w i := by
  obtain ⟨i, hw⟩ := h.kept.whole _ hin
  exact ⟨i, hw.index, hw.offset, hlen ▸ hw.length⟩

theorem mem_after {effects : List Effect} {late : List Outstanding} {w : Outstanding}
    (h : w ∈ effects.foldl (Outstanding.after files) late) :
    w ∈ late ∨ ∃ data, .executed (.write w.offset data) ∈ effects ∧ w.len = data.length := by
  induction effects generalizing late with
  | nil => exact .inl h
  | cons effect effects ih =>
    rcases ih h with hw | ⟨data, hin, hlen⟩
    · cases effect with
      | executed cmd =>
        cases cmd with
        | write offset data =>
          rcases List.mem_append.mp hw with hold | hnew
          · exact .inl (List.mem_filter.mp hold).1
          · obtain ⟨rfl, hlen⟩ := mem_begun hnew
            exact .inr ⟨data, List.mem_cons_self .., hlen⟩
        | read offset len reply => exact .inl hw
        | flush => exact absurd hw List.not_mem_nil
      | stepped input outputs => exact .inl hw
      | sent session addr message => exact .inl hw
      | published snapshot stats => exact .inl hw
    · exact .inr ⟨data, List.mem_cons_of_mem _ hin, hlen⟩

theorem late_step (h : Tracked sha1 m life) (move : SwarmIo.Move) {w : Outstanding}
    (hw : w ∈ (life.step sha1 (.loop move, env)).1.late) : w ∈ life.late ∨
      ∃ data, (w.offset, data) ∈ life.io.custody.pending m ∧ w.len = data.length := by
  obtain ⟨clientId, hs⟩ := h.alive.secured
  refine (mem_after hw).imp_right ?_
  rintro ⟨data, hin, hlen⟩
  exact ⟨data, pending_of_head (executed_head hs move hin), hlen⟩

theorem tracked_loop (h : Tracked sha1 m life) {move : SwarmIo.Move}
    (hmove : move.faultless = true) :
    Tracked sha1 m (life.step sha1 (.loop move, env)).1 := by
  refine ⟨alive_step h.alive hmove, fun w hw => ?_⟩
  rcases late_step h move hw with hold | ⟨data, hin, hlen⟩
  · exact h.late w hold
  · exact ofPiece_pending h.alive hin hlen

theorem settled_loop (h : Tracked sha1 m life) {move : SwarmIo.Move}
    (hmove : move.faultless = true) {i : Nat} (hi : i < m.pieces.length)
    (hsettled : life.Settled sha1 m i) :
    Settled sha1 m (life.step sha1 (.loop move, env)).1 i := by
  refine ⟨holds_step h.alive hmove hi hsettled.holds, fun w hw => ?_⟩
  rcases late_step h move hw with hold | ⟨data, hin, -⟩
  · exact hsettled.written w hold
  · intro heq
    exact ((h.alive.kept.held i hi).mp hsettled.holds).2 ⟨data, heq ▸ hin⟩

theorem ofPiece_inHand (h : Tracked sha1 m life) {w : Outstanding} (hw : w ∈ life.inHand) :
    (∃ i, OfPiece m w i) ∧ ∃ data, (w.offset, data) ∈ life.io.custody.pending m := by
  unfold inHand at hw
  split at hw
  · next offset data queue hqueue =>
    obtain ⟨rfl, hlen⟩ := mem_begun hw
    have hhead : life.io.worker.queue.head? = some (.write w.offset data) := by
      rw [hqueue]
      rfl
    have hin : (w.offset, data) ∈ life.io.custody.pending m := pending_of_head hhead
    exact ⟨ofPiece_pending h.alive hin hlen, data, hin⟩
  · contradiction

theorem lost (sha1 : Sha1) (hd : m.Divided) (loss : Outstanding → Bytes) {ws : List Outstanding}
    (hws : ∀ w ∈ ws, ∃ i, OfPiece m w i) (hlaid : DiskStorage.Laid m files) :
    DiskStorage.Laid m (ws.foldl (Outstanding.lose loss) files) ∧ ∀ i < m.pieces.length,
      (∀ w ∈ ws, w.offset ≠ i * m.pieceLength) → Holds sha1 m files i →
        Holds sha1 m (ws.foldl (Outstanding.lose loss) files) i := by
  induction ws generalizing files with
  | nil => exact ⟨hlaid, fun i _ _ hheld => hheld⟩
  | cons w ws ih =>
    obtain ⟨j, hj, hoffset, hlength⟩ := hws w (List.mem_cons_self ..)
    have hlen : ((loss w).takeD w.len 0).length = w.len := List.takeD_length ..
    have hfit := hd.piece_fits hj hlength
    have hnext : DiskStorage.Laid m (Outstanding.lose loss files w) := by
      refine hlaid.writeToOne (hd.total ▸ hd.small) ?_
      rw [hlen, ← hd.total, hoffset]
      omega
    obtain ⟨hlast, hkeeps⟩ := ih (fun v hv => hws v (List.mem_cons_of_mem _ hv)) hnext
    refine ⟨hlast, fun i hi hapart hheld => ?_⟩
    refine hkeeps i hi (fun v hv => hapart v (List.mem_cons_of_mem _ hv)) ?_
    have hne : j ≠ i := fun heq => hapart w (List.mem_cons_self ..) (heq ▸ hoffset)
    have hother := OnDisk.holds_writeToOne sha1 hd hlaid hj (hlen.symm ▸ hlength) hi hne
      w.file
    rw [← hoffset] at hother
    exact hother.mpr hheld

theorem crashed_laid (h : Tracked sha1 m life) (loss : Outstanding → Bytes) :
    DiskStorage.Laid m (life.crashed loss) := by
  obtain ⟨clientId, hs⟩ := h.alive.secured
  refine (lost sha1 h.alive.divided loss (fun w hw => ?_) hs.intact.laid).1
  rcases List.mem_append.mp hw with hlate | hhand
  · exact h.late w hlate
  · exact (ofPiece_inHand h hhand).1

theorem holds_crashed (h : Tracked sha1 m life) (loss : Outstanding → Bytes) {i : Nat}
    (hi : i < m.pieces.length) (hsettled : life.Settled sha1 m i) :
    Holds sha1 m (life.crashed loss) i := by
  obtain ⟨clientId, hs⟩ := h.alive.secured
  refine (lost sha1 h.alive.divided loss (fun w hw => ?_) hs.intact.laid).2 i hi (fun w hw => ?_)
    hsettled.holds
  · rcases List.mem_append.mp hw with hlate | hhand
    · exact h.late w hlate
    · exact (ofPiece_inHand h hhand).1
  · rcases List.mem_append.mp hw with hlate | hhand
    · exact hsettled.written w hlate
    · obtain ⟨data, hin⟩ := (ofPiece_inHand h hhand).2
      intro heq
      exact ((h.alive.kept.held i hi).mp hsettled.holds).2 ⟨data, heq ▸ hin⟩

theorem fresh_started (h : Tracked sha1 m life) {files : List OutputFile}
    (hlaid : DiskStorage.Laid m files) (env : Entropy) (clientId : PeerId) :
    ∃ fresh io', SwarmIo.new clientId m files = some fresh ∧ fresh.restore sha1 env = .ok io' ∧
      Started sha1 clientId m io' := by
  obtain ⟨owner, hs⟩ := h.alive.secured
  obtain ⟨fresh, hnew⟩ := new_succeeds hs.reachable clientId files
  obtain ⟨io', hrestore⟩ : ∃ io', fresh.restore sha1 env = .ok io' :=
    restore_succeeds h.alive.divided hlaid hnew env
  exact ⟨fresh, io', hnew, hrestore, files, fresh, env, hlaid, hnew, hrestore⟩

theorem restart_started (h : Tracked sha1 m life) (hsum : m.fileLengths.sum < 2 ^ 64)
    (env : Entropy) (clientId : PeerId) (loss : Outstanding → Bytes) :
    ∃ io', life.restart sha1 env clientId loss = some ⟨io', []⟩ ∧
      Started sha1 clientId m io' ∧ io'.worker.files = life.crashed loss := by
  obtain ⟨owner, hs⟩ := h.alive.secured
  have hlaid := crashed_laid h loss
  obtain ⟨fresh, io', hnew, hrestore, hstarted⟩ := fresh_started h hlaid env clientId
  refine ⟨io', ?_, hstarted, restored_files hnew hrestore⟩
  unfold restart
  simp only [hs.metainfo, DiskStorage.createFiles_again hlaid hsum, Except.toOption,
    Option.bind_eq_bind, Option.bind_some, hnew, hrestore, Option.pure_def]

theorem tracked_step (hvalid : m.validate = .ok ()) (hsum : m.fileLengths.sum < 2 ^ 64)
    (h : Tracked sha1 m life) (i : Move × Entropy) (hmove : i.1.faultless = true) :
    Tracked sha1 m (life.step sha1 i).1 ∧ ∀ j < m.pieces.length,
      life.Settled sha1 m j → (life.step sha1 i).1.Settled sha1 m j := by
  obtain ⟨move, env⟩ := i
  cases move with
  | loop move => exact ⟨tracked_loop h hmove, fun j hj => settled_loop h hmove hj⟩
  | restart clientId loss =>
    obtain ⟨io', hrestart, hstarted, hfiles⟩ := restart_started h hsum env clientId loss
    simp only [step, hrestart, Option.getD_some]
    refine ⟨⟨started_alive hvalid hsum hstarted, by simp⟩, fun j hj hsettled => ⟨?_, by simp⟩⟩
    rw [hfiles]
    exact holds_crashed h loss hj hsettled

abbrev Lives := List (Event Life (Move × Entropy) Effect)

theorem history_tracked {trace : Lives} (hvalid : m.validate = .ok ())
    (hsum : m.fileLengths.sum < 2 ^ 64) (hist : History (step sha1) (Born sha1 m) trace life)
    (hdisk : ∀ e ∈ trace, e.input.1.faultless = true) :
    Tracked sha1 m life ∧ ∀ e ∈ trace, ∀ j < m.pieces.length,
      e.before.Settled sha1 m j → life.Settled sha1 m j := by
  induction hist with
  | start hs =>
    obtain ⟨clientId, hstarted, hlate⟩ := hs
    exact ⟨⟨started_alive hvalid hsum hstarted, by simp [hlate]⟩, by simp⟩
  | next i hist ih =>
    obtain ⟨htracked, hearlier⟩ := ih fun e he => hdisk e (List.mem_cons_of_mem _ he)
    obtain ⟨hnext, hkept⟩ := tracked_step hvalid hsum htracked i (hdisk _ (List.mem_cons_self ..))
    refine ⟨hnext, fun e he j hj hsettled => ?_⟩
    rcases List.mem_cons.mp he with rfl | he
    · exact hkept j hj hsettled
    · exact hkept j hj (hearlier e he j hj hsettled)

theorem progress_survives_crashes {torrent : Bytes} {trace : Lives}
    (hm : Metainfo.tryFrom sha1 torrent = .ok m) (hsum : m.fileLengths.sum < 2 ^ 64)
    (hist : History (step sha1) (Born sha1 m) trace life)
    (hdisk : ∀ e ∈ trace, e.input.1.faultless = true) :
    (∀ i < m.pieces.length, Holds sha1 m life.io.worker.files i ↔
      life.io.swarm.pieces.CompleteAt i ∧ ¬ Awaits m (life.io.custody.pending m) i) ∧
    (∀ e ∈ trace, ∀ i < m.pieces.length,
      e.before.Settled sha1 m i → life.Settled sha1 m i) ∧
    (∀ env clientId loss, ∃ io', life.restart sha1 env clientId loss = some ⟨io', []⟩ ∧
      Started sha1 clientId m io' ∧ ∀ i < m.pieces.length,
        (io'.swarm.pieces.CompleteAt i ↔ Holds sha1 m (life.crashed loss) i) ∧
        (life.Settled sha1 m i → io'.swarm.pieces.CompleteAt i)) ∧
    ∀ fs root outs t, CreateFiles.Distinct m → CreateFiles.EmptyDirectory fs root →
      CreateFiles.createFiles CreateFiles.unix m root ⟨fs, []⟩ = (.ok outs, t) →
        ∀ env clientId, ∃ fresh io',
          SwarmIo.new clientId m (outs.map (CreateFiles.OpenFile.flat t.os)) = some fresh ∧
            fresh.restore sha1 env = .ok io' ∧ Started sha1 clientId m io' := by
  have hvalid := Metainfo.tryFrom_validates hm
  obtain ⟨htracked, hearlier⟩ := history_tracked hvalid hsum hist hdisk
  refine ⟨htracked.alive.kept.held, hearlier, fun env clientId loss => ?_,
    fun fs root outs t hdistinct hroot hfiles env clientId => ?_⟩
  · obtain ⟨io', hrestart, hstarted, hfiles⟩ := restart_started htracked hsum env clientId loss
    refine ⟨io', hrestart, hstarted, fun i hi => ?_⟩
    have hiff : io'.swarm.pieces.CompleteAt i ↔ Holds sha1 m (life.crashed loss) i := by
      obtain ⟨files, fresh, env', hlaid, hnew, hrestore⟩ := hstarted
      rw [← hfiles, restored_files hnew hrestore]
      exact (holds_iff_complete hvalid hsum hlaid hnew hrestore hi).symm
    exact ⟨hiff, fun hsettled => hiff.mpr (holds_crashed htracked loss hi hsettled)⟩
  · have hlaid := CreateFiles.createFiles_fresh_laid hdistinct hsum hroot hfiles
    exact fresh_started htracked hlaid env clientId

end Life

namespace Sample

open Life

def flushed (life : Life) : Bool :=
  decide (SwarmIo.Holds contentSha1 torrent life.io.worker.files 0 ∧ life.late = [])

theorem flushed_settled {life : Life} (h : flushed life = true) :
    life.Settled contentSha1 torrent 0 := by
  obtain ⟨hholds, hlate⟩ := of_decide_eq_true h
  exact ⟨hholds, fun w hw => by rw [hlate] at hw; contradiction⟩

theorem lives_history (h : (opened.any fun io =>
    flushed (History.run (step contentSha1) ⟨io, []⟩ lives).1) = true) :
    ∃ life trace, History (step contentSha1) (Born contentSha1 torrent) trace life ∧
      (∀ e ∈ trace, e.input.1.faultless = true) ∧ flushed life = true := by
  obtain ⟨io, hio, hcheck⟩ := (Option.any_eq_true _ _).mp h
  have hstart : History (step contentSha1) (Born contentSha1 torrent) [] ⟨io, []⟩ :=
    .start ⟨_, opened_started hio, rfl⟩
  have hist := hstart.run_events lives
  rw [List.append_nil] at hist
  have hdisk : lives.all (fun i => i.1.faultless) = true := by decide
  exact ⟨_, _, hist, fun e he => List.all_eq_true.mp hdisk _ (History.mem_events he), hcheck⟩

end Sample

namespace Life

theorem sample_piece_survives_crash : ∃ life trace,
    History (step Sample.contentSha1) (Born Sample.contentSha1 Sample.torrent) trace life ∧
    ∃ io', life.restart Sample.contentSha1 Sample.env (Sample.peerId 4) (fun _ => [9]) =
      some ⟨io', []⟩ ∧ io'.swarm.pieces.CompleteAt 0 := by
  obtain ⟨life, trace, hist, hdisk, hflushed⟩ := Sample.lives_history (by decide +kernel)
  obtain ⟨-, -, hrestart, -⟩ := progress_survives_crashes Sample.torrent_accepted
    (by decide +kernel) hist hdisk
  obtain ⟨io', hio', -, hpieces⟩ := hrestart Sample.env (Sample.peerId 4) fun _ => [9]
  exact ⟨life, trace, hist, io', hio',
    (hpieces 0 (by decide +kernel)).2 (Sample.flushed_settled hflushed)⟩

end Life

end Tortue
