import Mathlib.Data.List.Infix
import Tortue.Adapters.Published
import Tortue.Properties.CompletionSignals

namespace Tortue

open Collections

namespace SwarmIo

variable {sha1 : Sha1} {clientId : PeerId} {m : Metainfo} {io : SwarmIo} {i : Move × Entropy}
  {effects : List Effect} {trace : Run}

def Fails (sha1 : Sha1) (e : Event SwarmIo (Move × Entropy) Effect) : Prop :=
  (∃ fault cmd queue, e.input.1 = .runWorker (some fault) ∧ e.before.worker.queue = cmd :: queue ∧
    cmd.reads = false) ∨
  ∃ o rest, e.before.phase = .handling ∧ e.before.outputs = o :: rest ∧ o.stores = true ∧
    (step sha1 e.before e.input).1.phase.over = true

theorem Core.Settled.not_fails (h : io.core.Settled) : ¬ Fails sha1 ⟨io, i, effects⟩ := by
  have hqueue : ∀ cmd ∈ io.worker.queue, cmd.reads = true := h.queue
  have houtputs : ∀ o ∈ io.outputs, o.stores = false := h.outputs
  rintro (⟨fault, cmd, queue, -, heq, hcmd⟩ | ⟨o, rest, -, hout, ho, -⟩)
  · have hreads := hqueue cmd (heq ▸ List.mem_cons_self ..)
    rw [hcmd] at hreads
    contradiction
  · have hstill := houtputs o (hout ▸ List.mem_cons_self ..)
    rw [ho] at hstill
    contradiction

theorem fails_halts (h : Fails sha1 ⟨io, i, effects⟩) :
    (io.step sha1 i).1.phase.over = true ∨ (io.step sha1 i).1.worker.running = false := by
  rcases h with ⟨fault, cmd, queue, hmove, hqueue, hcmd⟩ | ⟨o, rest, -, -, -, hover⟩
  · obtain ⟨move, env⟩ := i
    simp only at hmove hqueue
    subst hmove
    refine .inr ?_
    cases cmd with
    | read => contradiction
    | write offset data =>
      simp [step, runWorker, DiskStorage.Worker.next, hqueue, DiskStorage.Worker.execute,
        DiskStorage.Worker.stop, receiveReply, dropReplies_worker]
    | flush =>
      simp [step, runWorker, DiskStorage.Worker.next, hqueue, DiskStorage.Worker.execute,
        DiskStorage.Worker.stop, receiveReply, finish, dropReplies_worker]
  · exact .inl hover

theorem halted_of_fails (hist : History (step sha1) (Started sha1 clientId m) trace io)
    (h : ∃ e ∈ trace, Fails sha1 e) : io.phase.over = true ∨ io.worker.running = false := by
  induction hist with
  | start _ => simp at h
  | @next trace io i hist ih =>
    have hcourse : Course sha1 io i _ _ := course_step (history_drained hist) i
    obtain ⟨e, he, hfails⟩ := h
    rcases List.mem_cons.mp he with rfl | he
    · exact fails_halts hfails
    · rcases ih ⟨e, he, hfails⟩ with hover | hstopped
      · exact .inl (hcourse.stays_over (history_awaited hist) hover)
      · exact .inr (hcourse.stopped hstopped)

theorem unpublished_of_fails (hist : History (step sha1) (Started sha1 clientId m) trace io)
    (h : ∃ e ∈ trace, Fails sha1 e) {older : Run} {snapshot : Swarm.SwarmSnapshot}
    (hpublished : Published trace io older snapshot) : ¬ Whole snapshot := by
  induction hist with
  | start _ => simp at h
  | @next trace io i hist ih =>
    intro hwhole
    obtain ⟨e, he, hfails⟩ := h
    rcases published_cons hpublished with hbefore | ⟨-, stats, hnow⟩
    · have hsettled := settled_of_published hist hbefore hwhole
      rcases List.mem_cons.mp he with rfl | he
      · exact hsettled.not_fails hfails
      · exact ih ⟨e, he, hfails⟩ hbefore hwhole
    · obtain ⟨hphase, -, hrunning, hsettled, -⟩ := published_whole hist hnow hwhole
      rcases List.mem_cons.mp he with rfl | he
      · exact hsettled.not_fails hfails
      · rcases halted_of_fails hist ⟨e, he, hfails⟩ with hover | hstopped
        · rw [hphase] at hover
          contradiction
        · rw [hrunning] at hstopped
          contradiction

theorem history_pieceStore (hist : History (step sha1) (Started sha1 clientId m) trace io) :
    ∀ e ∈ trace, e.before.pieceStore = io.pieceStore := by
  induction hist with
  | start _ => simp
  | @next trace io i hist ih =>
    have hcourse : Course sha1 io i _ _ := course_step (history_drained hist) i
    have hkeep : (io.step sha1 i).1.pieceStore = io.pieceStore := hcourse.pieceStore
    intro e he
    rw [hkeep]
    rcases List.mem_cons.mp he with rfl | he
    · rfl
    · exact ih e he

theorem completion_behind_barrier
    (hist : History (step sha1) (Started sha1 clientId m) trace io) :
    (∀ older snapshot, Published trace io older snapshot → Whole snapshot →
      Synced io.pieceStore older) ∧
    ((∃ e ∈ trace, Fails sha1 e) →
      ∀ older snapshot, Published trace io older snapshot → ¬ Whole snapshot) := by
  refine ⟨fun older snapshot hpublished hwhole => ?_, fun hfails older snapshot hpublished =>
    unpublished_of_fails hist hfails hpublished⟩
  rcases hpublished with ⟨rfl, -⟩ | ⟨newer, e, stats, htrace, he⟩
  · exact ⟨by simp [asked, executed], by simp [asked]⟩
  · obtain ⟨hbefore, houtputs⟩ := hist.event_before htrace
    rw [houtputs] at he
    have hsynced := (published_whole hbefore he hwhole).2.2.2.2.1
    rw [history_pieceStore hist e (htrace ▸ List.mem_append_right _ (List.mem_cons_self ..))]
      at hsynced
    exact hsynced

end SwarmIo

namespace Sample

def reports : SwarmIo.Effect → Bool
  | .published snapshot _ =>
    decide (0 < snapshot.bytesTotal ∧ snapshot.bytesAvailable = snapshot.bytesTotal)
  | _ => false

def reported : SwarmIo.Run → Bool
  | [] => false
  | e :: older => e.outputs.any reports && !(SwarmIo.asked older).isEmpty

theorem reported_published {trace : SwarmIo.Run} (io : SwarmIo)
    (h : trace.tails.any reported = true) : ∃ older snapshot,
      SwarmIo.Published trace io older snapshot ∧ SwarmIo.Whole snapshot ∧
        SwarmIo.asked older ≠ [] := by
  obtain ⟨tail, htail, hreported⟩ := List.any_eq_true.mp h
  obtain ⟨newer, htrace⟩ := (List.mem_tails _ _).mp htail
  cases tail with
  | nil => contradiction
  | cons e older =>
    rw [reported, Bool.and_eq_true, Bool.not_eq_true', List.isEmpty_eq_false_iff] at hreported
    obtain ⟨effect, heffect, hs⟩ := List.any_eq_true.mp hreported.1
    cases effect with
    | published snapshot stats =>
      have hwhole : 0 < snapshot.bytesTotal ∧ snapshot.bytesAvailable = snapshot.bytesTotal :=
        of_decide_eq_true hs
      exact ⟨older, snapshot, .inr ⟨newer, e, stats, htrace.symm, heffect⟩, hwhole, hreported.2⟩
    | _ => simp [reports] at hs

end Sample

namespace SwarmIo

theorem piece_flushed_before_report : ∃ io trace,
    History (step Sample.contentSha1) (Started Sample.contentSha1 (Sample.peerId 1) Sample.torrent)
      trace io ∧
    ∃ older snapshot, Published trace io older snapshot ∧ Whole snapshot ∧ asked older ≠ [] ∧
      Synced io.pieceStore older := by
  have hrun : (Sample.opened.any fun io =>
      (History.events (step Sample.contentSha1) io (Sample.drawn Sample.sharing)).tails.any
        Sample.reported) = true := by decide +kernel
  obtain ⟨io, hcheck, hist⟩ := Sample.opened_history hrun
  obtain ⟨older, snapshot, hpublished, hwhole, hasked⟩ := Sample.reported_published _ hcheck
  obtain ⟨hsynced, -⟩ := completion_behind_barrier (hist Sample.sharing)
  exact ⟨_, _, hist Sample.sharing, older, snapshot, hpublished, hwhole, hasked,
    hsynced older snapshot hpublished hwhole⟩

end SwarmIo

end Tortue
