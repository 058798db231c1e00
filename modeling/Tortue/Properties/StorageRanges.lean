import Tortue.Adapters.ReadTasks
import Tortue.Properties.Integrity

namespace Tortue

open Collections PieceManager

structure Stored (m : Metainfo) (range : BlockRange) : Prop where
  offset : (DiskStorage.new m).storageOffset range =
    .ok (range.pieceIndex * m.pieceLength + range.pieceOffset)
  small : range.pieceIndex * m.pieceLength + range.pieceOffset + range.len < 2 ^ 64

def Output.Storable (m : Metainfo) : Output → Prop
  | .writePiece range data => Stored m range ∧ data.length = range.len
  | .readForUpload _ range => Stored m range
  | _ => True

section

variable {sha1 : Sha1} {clientId : PeerId} {m : Metainfo} {s : Swarm}

theorem stored_of_offset {range : BlockRange}
    (h : (DiskStorage.new m).storageOffset range = .ok (position m range)) : Stored m range :=
  ⟨h, (DiskStorage.storageOffset_ok h).2.2.2.2.2⟩

theorem Stored.write {range : BlockRange} {data : Bytes} (h : Stored m range)
    (hlen : data.length = range.len) :
    (DiskStorage.new m).write range data = .ok (.write (position m range) data) := by
  unfold DiskStorage.write
  rw [if_neg (not_not_intro hlen), h.offset]
  rfl

theorem Swarm.storable_of_output (hd : m.Divided) (hr : Swarm.Reachable sha1 clientId m s)
    (inp : Input × Entropy) : ∀ o ∈ (s.step sha1 inp).2, o.Storable m := by
  intro o ho
  obtain ⟨trace, hist⟩ := hr
  cases o with
  | writePiece range data =>
    rcases Swarm.step_announces sha1 s inp with ⟨hsilent, -⟩ | ⟨x, r, d, c, -, hc⟩
    · have hfalse := hsilent _ ho
      contradiction
    · rcases hc.writes_iff ho rfl with heq | heq | heq
      · contradiction
      · rw [Output.writePiece.injEq] at heq
        obtain ⟨rfl, rfl⟩ := heq
        have hwhole := hc.whole hist
        exact ⟨stored_of_offset (hwhole.storageOffset hd), hwhole.len.symm⟩
      · contradiction
  | readForUpload id range =>
    have hdescribed := delivered_described (Swarm.deliveries_delivered hist)
    have hreadable := (Swarm.readable_of_output hdescribed ho).2
    exact stored_of_offset (hreadable.storageOffset hd)
  | _ => trivial

end

namespace SwarmIo

variable {sha1 : Sha1} {clientId : PeerId} {m : Metainfo} {io : SwarmIo}

def Faulted (trace : Run) (e : IoError) : Prop :=
  ∃ f ∈ trace, ∃ fault, f.input.1 = .runWorker (some fault) ∧ fault.error = e

def Harmless (trace : Run) (e : IoError) : Prop := e.kind = .invalidInput → Faulted trace e

structure Contained (m : Metainfo) (trace : Run) (io : SwarmIo) : Prop where
  store : io.pieceStore = .new m
  stacked : ∀ o ∈ io.outputs, o.Storable m
  unsent : ∀ k t e, io.reads.get k = some t → t.state ≠ .unsent (.error e)
  failed : ∀ k t e, io.reads.get k = some t → t.state = .finished (.error e) → Harmless trace e
  ended : ∀ e, io.phase = .finished (.error (.storage e)) → Harmless trace e

variable {trace : Run}

theorem Harmless.later {e : IoError} (h : Harmless trace e)
    (f : Event SwarmIo (Move × Entropy) Effect) : Harmless (f :: trace) e := by
  intro hkind
  obtain ⟨g, hg, hfault⟩ := h hkind
  exact ⟨g, List.mem_cons_of_mem _ hg, hfault⟩

theorem harmless_fault {e : IoError} {f : Event SwarmIo (Move × Entropy) Effect}
    {fault : DiskStorage.Fault} (hmove : f.input.1 = .runWorker (some fault))
    (herror : fault.error = e) : Harmless (f :: trace) e :=
  fun _ => ⟨f, List.mem_cons_self .., fault, hmove, herror⟩

namespace Contained

theorem restored (h : Restored sha1 clientId m io) : Contained m [] io where
  store := h.store
  stacked o ho := by
    rw [h.outputs] at ho
    contradiction
  unsent k t e ht := by
    rw [h.reads] at ht
    contradiction
  failed k t e ht := by
    rw [h.reads] at ht
    contradiction
  ended e hphase := by
    rw [h.selecting] at hphase
    contradiction

theorem task_step (h : Contained m trace io) (i : Move × Entropy) (effects : List Effect)
    {k : Nat} {t : ReadTask} (ht : (io.step sha1 i).1.reads.get k = some t) :
    (∀ e, t.state ≠ .unsent (.error e)) ∧
      ∀ e, t.state = .finished (.error e) → Harmless (⟨io, i, effects⟩ :: trace) e := by
  rcases step_reads sha1 io i with hcarried | ⟨-, id, range, rest, hout, hreads⟩
  · obtain ⟨before, hget, hinherits⟩ := hcarried k t ht
    refine ⟨fun e he => h.unsent k before e hget (hinherits.unsent _ he), fun e he => ?_⟩
    rcases hinherits.failed e he with hold | hunsent | hkind | ⟨fault, hmove, herror⟩
    · exact (h.failed k before e hget hold).later _
    · exact absurd hunsent (h.unsent k before e hget)
    · exact fun hinvalid => absurd hinvalid hkind
    · exact harmless_fault hmove herror
  · rw [hreads, HashMap.get_insert] at ht
    split at ht
    · have hstored : Output.Storable m (.readForUpload id range) :=
        h.stacked _ (hout ▸ List.mem_cons_self ..)
      rw [Option.some.injEq] at ht
      subst ht
      rw [h.store, hstored.offset]
      exact ⟨fun e he => by simp at he, fun e he => by contradiction⟩
    · exact ⟨fun e => h.unsent k t e ht, fun e he => (h.failed k t e ht he).later _⟩

theorem caused (h : Contained m trace io) {i : Move × Entropy} {outputs : List Effect} {e : IoError}
    (hcaused : Caused io i.1 (.error (.storage e))) :
    Harmless (⟨io, i, outputs⟩ :: trace) e := by
  cases hcaused e rfl with
  | read k t hget hstate => exact (h.failed k t e hget hstate).later _
  | write range data rest hout hwrite =>
    obtain ⟨hstored, hlen⟩ := h.stacked _ (hout ▸ List.mem_cons_self ..)
    rw [h.store, hstored.write hlen] at hwrite
    contradiction
  | other hkind => exact fun hinvalid => absurd hinvalid hkind
  | fault fault hmove herror => exact harmless_fault hmove herror

theorem step (h : Contained m trace io) (hd : m.Divided)
    (hr : Swarm.Reachable sha1 clientId m io.swarm) {i : Move × Entropy} {effects : List Effect}
    (hcourse : Course sha1 io i (io.step sha1 i).1.core effects) :
    Contained m (⟨io, i, effects⟩ :: trace) (io.step sha1 i).1 where
  store := hcourse.pieceStore.trans h.store
  stacked o ho := by
    rcases hcourse.outputs_mem ho with hold | ⟨x, rfl⟩ | ⟨input, hnew⟩
    · exact h.stacked o hold
    · trivial
    · exact Swarm.storable_of_output hd hr _ o hnew
  unsent k t e ht := (h.task_step i effects ht).1 e
  failed k t e ht := (h.task_step i effects ht).2 e
  ended e hphase := by
    rcases hcourse.ended hphase with hold | hcaused
    · exact (h.ended e hold).later _
    · exact h.caused hcaused

end Contained

theorem history_contained (hvalid : m.validate = .ok ()) (hsum : m.fileLengths.sum < 2 ^ 64)
    (hist : History (step sha1) (Started sha1 clientId m) trace io) :
    Contained m trace io ∧ m.Divided := by
  induction hist with
  | start hs =>
    have hrestored := started_restored hvalid hsum hs
    exact ⟨.restored hrestored, hrestored.divided⟩
  | next i hist ih =>
    obtain ⟨restored, -, hswarm⟩ := history_projects hist
    exact ⟨ih.1.step ih.2 ⟨_, hswarm⟩ (course_step (history_drained hist) i), ih.2⟩

theorem storage_ranges_accepted {torrent : Bytes} (hm : Metainfo.tryFrom sha1 torrent = .ok m)
    (hsum : m.fileLengths.sum < 2 ^ 64)
    (hist : History (step sha1) (Started sha1 clientId m) trace io) :
    (∀ e ∈ trace, ∀ input outputs, .stepped input outputs ∈ e.outputs → ∀ o ∈ outputs,
      o.Storable m) ∧
    io.pieceStore = .new m ∧
    (∀ k t e, io.reads.get k = some t → t.state ≠ .unsent (.error e)) ∧
    ∀ e, io.phase = .finished (.error (.storage e)) → e.kind = .invalidInput →
      Faulted trace e := by
  have hvalid := Metainfo.tryFrom_validates hm
  obtain ⟨hcontained, hd⟩ := history_contained hvalid hsum hist
  refine ⟨fun e he input outputs hstep o ho => ?_, hcontained.store, hcontained.unsent,
    hcontained.ended⟩
  obtain ⟨newer, older, hh⟩ := List.append_of_mem he
  obtain ⟨hbefore, houtputs⟩ := hist.event_before hh
  obtain ⟨restored, -, hswarm⟩ := history_projects hbefore
  rw [houtputs] at hstep
  rw [(step_stepped hstep).1] at ho
  exact Swarm.storable_of_output hd ⟨_, hswarm⟩ _ o ho

end SwarmIo

namespace Sample

def handsOut (o : Output) : SwarmIo.Effect → Bool
  | .stepped _ outputs => decide (o ∈ outputs)
  | _ => false

end Sample

namespace SwarmIo

theorem asked_range_stored : ∃ io trace,
    History (step Sample.contentSha1) (Started Sample.contentSha1 (Sample.peerId 1) Sample.torrent)
      trace io ∧
    ∃ e ∈ trace, ∃ input outputs, .stepped input outputs ∈ e.outputs ∧
      .readForUpload ⟨0⟩ ⟨0, 1, 3⟩ ∈ outputs ∧ Stored Sample.torrent ⟨0, 1, 3⟩ := by
  have hrun : (Sample.opened.any fun io =>
      (History.events (step Sample.contentSha1) io (Sample.drawn Sample.sharing)).any fun e =>
        e.outputs.any (Sample.handsOut (.readForUpload ⟨0⟩ ⟨0, 1, 3⟩))) = true := by decide +kernel
  obtain ⟨io, hcheck, hist⟩ := Sample.opened_history hrun
  obtain ⟨hstored, -⟩ := storage_ranges_accepted Sample.torrent_accepted (by decide +kernel)
    (hist Sample.sharing)
  obtain ⟨e, he, hany⟩ := List.any_eq_true.mp hcheck
  obtain ⟨effect, heffect, hs⟩ := List.any_eq_true.mp hany
  refine ⟨_, _, hist Sample.sharing, e, he, ?_⟩
  cases effect with
  | stepped input outputs =>
    have hout := of_decide_eq_true hs
    exact ⟨input, outputs, heffect, hout, hstored e he input outputs heffect _ hout⟩
  | _ => simp [Sample.handsOut] at hs

end SwarmIo

end Tortue
