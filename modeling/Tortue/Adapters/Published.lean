import Mathlib.Data.List.Infix
import Tortue.Adapters.Barrier
import Tortue.Domain.Swarm.Counters

namespace Tortue

open Collections

namespace SwarmIo

variable {sha1 : Sha1} {clientId : PeerId} {m : Metainfo} {io : SwarmIo} {i : Move × Entropy}
  {c : Core} {effects : List Effect} {trace : Run}

theorem askedBy_sent {effects : List Effect} (h : ∀ f ∈ effects, ∃ k x m, f = .sent k x m) :
    askedBy effects = [] ∧ executedBy effects = [] := by
  refine ⟨List.flatMap_eq_nil_iff.mpr fun f hf => ?_, List.filterMap_eq_nil_iff.mpr fun f hf => ?_⟩
  · obtain ⟨k, x, m, rfl⟩ := h f hf
    rfl
  · obtain ⟨k, x, m, rfl⟩ := h f hf
    rfl

theorem Course.live {h : Swarm.Trace} (hcourse : Course sha1 io i c effects)
    (hist : History (Swarm.step sha1) (Swarm.Started clientId m) h io.swarm)
    (hidle : Idle io) (ha : io.core.Awaited) (hlive : io.core.Live trace) :
    c.phase.over = true ∨ c.Doomed ∨ c.Live (⟨io, i, effects⟩ :: trace) := by
  have hnone : ∀ o ∈ ([] : List Output), o.stores = false := by simp
  cases hcourse with
  | stop | failed => exact .inl rfl
  | input input hphase houtside =>
    exact .inr (.inr (hlive.absorb hist hphase (hidle hphase) input
      (Input.not_local_of_outside houtside) io.readHandles))
  | complete task read _ input hphase _ _ _ _ hinput =>
    exact .inr (.inr (hlive.absorb hist hphase (hidle hphase) input (by simp [hinput])
      (io.readHandles.remove read.id)))
  | disconnect x rest hphase hout =>
    have hstill : ∀ o ∈ (io.swarm.step sha1 (.peerDisconnected x, i.2)).2, o.stores = false :=
      fun o ho => Output.silent_stores ((Swarm.plain_onDisconnected i.2 io.swarm x).silent o ho)
    have hback : (io.swarm.step sha1 (.peerDisconnected x, i.2)).1.pieces.isComplete = true →
        io.swarm.pieces.isComplete = true := by
      rw [Swarm.step_pieces]
      exact id
    refine .inr (.inr (Core.Live.later (hlive.pop hphase hout rfl hstill hback io.readHandles)
      ?_ ?_))
    · simp [askedBy, written_nil hstill]
    · simp [executedBy]
  | publish hphase hout =>
    refine .inr (.inr (Core.Live.later ⟨hlive.running, hlive.paid, fun hcomplete => ?_⟩ rfl
      (by simp [executedBy, SwarmIo.publish])))
    obtain ⟨hsettled, hflushed⟩ := (hlive.stage hcomplete).rested (by simp [core, hphase]) hout
    exact .settled ⟨hcomplete, hsettled.queue, hsettled.outputs⟩ hflushed
  | write range data rest cmd hphase hout hrunning hwrite =>
    exact .inr (.inr ((hlive.write hout hwrite).later rfl (by simp [executedBy])))
  | flush rest hphase hout =>
    exact .inr (.inr ((hlive.flush hout).later rfl (by simp [executedBy])))
  | opened id range rest _ hphase hout =>
    exact .inr (.inr ((hlive.pop hphase hout rfl hnone (fun h => h)
      (io.readHandles.insert id io.nextTask)).later rfl (by simp [executedBy])))
  | cancel id rest hphase hout =>
    exact .inr (.inr ((hlive.pop hphase hout rfl hnone (fun h => h)
      (io.readHandles.remove id)).later rfl (by simp [executedBy])))
  | pass out rest failed _ hphase hout hpassing hsent =>
    have hout' : out.stores = false := by
      cases out <;> first | rfl | contradiction
    obtain ⟨hasked, hexecuted⟩ := askedBy_sent hsent
    refine .inr (.inr (Core.Live.later (hlive.pop hphase hout hout' (fun o ho => ?_) (fun h => h)
      io.readHandles) hasked (by simp [hexecuted])))
    obtain ⟨x, -, rfl⟩ := List.mem_map.mp ho
    rfl
  | send offset len task =>
    exact .inr (.inr ((hlive.send offset len task).later rfl (by simp [executedBy])))
  | serve offset len task queue _ hqueue heffects =>
    refine .inr (.inr (hlive.take hqueue (by simp) ?_ (.inr ⟨rfl, fun cmd hcmd => ?_⟩)))
    · refine List.flatMap_eq_nil_iff.mpr fun f hf => ?_
      rw [heffects f hf]
    · obtain ⟨f, hf, hcmd⟩ := List.mem_filterMap.mp hcmd
      rw [heffects f hf, Option.some.injEq] at hcmd
      exact hcmd ▸ rfl
  | store offset data queue _ hqueue =>
    exact .inr (.inr (hlive.take hqueue (by simp) rfl (.inl rfl)))
  | flushed queue _ hqueue => exact .inr (.inr (hlive.flushed ha hqueue))
  | broken fault cmd queue _ hqueue hcmd _ hphase =>
    exact .inr (.inl (hlive.broken hqueue hcmd hphase))
  | idle => exact .inr (.inr (hlive.later rfl (by simp [executedBy])))

theorem history_barred (hist : History (step sha1) (Started sha1 clientId m) trace io) :
    io.core.Barred trace := by
  induction hist with
  | @start io hs =>
    obtain ⟨hout, -, -, -, hqueue, hrunning⟩ := started_idle hs
    refine .inr (.inr ⟨hrunning, ?_, fun hcomplete => ?_⟩)
    · simp [asked, executed, core, hout, hqueue]
    · refine .settled ⟨hcomplete, ?_, ?_⟩ (by simp [asked])
      · simp [core, hqueue]
      · simp [core, hout]
  | @next trace io i hist ih =>
    obtain ⟨h, hswarm⟩ := swarm_reachable hist
    have hcourse : Course sha1 io i _ _ := course_step (history_drained hist) i
    rcases ih with hover | hdoomed | hlive
    · exact .inl (hcourse.stays_over (history_awaited hist) hover)
    · exact (hcourse.doomed hswarm (history_idle hist) hdoomed).imp_right .inl
    · exact hcourse.live hswarm (history_idle hist) (history_awaited hist) hlive

def opening (trace : Run) (io : SwarmIo) : SwarmIo := (trace.getLast?.map Event.before).getD io

def Published (trace : Run) (io : SwarmIo) (older : Run) (snapshot : Swarm.SwarmSnapshot) : Prop :=
  (older = [] ∧ snapshot = (opening trace io).swarm.snapshot) ∨
    ∃ newer e stats, trace = newer ++ e :: older ∧ .published snapshot stats ∈ e.outputs

def Whole (snapshot : Swarm.SwarmSnapshot) : Prop :=
  0 < snapshot.bytesTotal ∧ snapshot.bytesAvailable = snapshot.bytesTotal

structure Synced (st : DiskStorage) (trace : Run) : Prop where
  writes : (asked trace).map (fun w => st.write w.1 w.2) =
    ((executed trace).filter DiskCommand.writes).map .ok
  flushed : asked trace ≠ [] → Flushed (executed trace)

theorem published_cons {older : Run} {snapshot : Swarm.SwarmSnapshot} {io' : SwarmIo}
    (h : Published (⟨io, i, effects⟩ :: trace) io' older snapshot) :
    Published trace io older snapshot ∨
      (older = trace ∧ ∃ stats, .published snapshot stats ∈ effects) := by
  rcases h with ⟨rfl, hsnapshot⟩ | ⟨newer, e, stats, htrace, he⟩
  · refine .inl (.inl ⟨rfl, ?_⟩)
    cases htrace : trace with
    | nil => simpa [opening, htrace] using hsnapshot
    | cons e trace' => simpa [opening, htrace, List.getLast?_cons] using hsnapshot
  · cases newer with
    | nil =>
      rw [List.nil_append, List.cons.injEq] at htrace
      obtain ⟨rfl, rfl⟩ := htrace
      exact .inr ⟨rfl, stats, he⟩
    | cons f newer =>
      rw [List.cons_append, List.cons.injEq] at htrace
      exact .inl (.inr ⟨newer, e, stats, htrace.2, he⟩)

theorem Course.published (hcourse : Course sha1 io i c effects) {snapshot : Swarm.SwarmSnapshot}
    {stats : SessionStats} (h : .published snapshot stats ∈ effects) :
    io.phase = .handling ∧ io.outputs = [] ∧ snapshot = io.swarm.snapshot ∧
      c = { io.core with phase := .selecting } := by
  cases hcourse with
  | publish hphase hout =>
    rw [List.mem_singleton, SwarmIo.publish, Effect.published.injEq] at h
    exact ⟨hphase, hout, h.1, rfl⟩
  | pass _ _ _ _ _ _ _ hsent =>
    obtain ⟨k, x, m, heq⟩ := hsent _ h
    contradiction
  | serve _ _ _ _ _ _ heffects =>
    have heq := heffects _ h
    contradiction
  | _ => simp at h

theorem whole_complete (hist : History (step sha1) (Started sha1 clientId m) trace io)
    (h : Whole io.swarm.snapshot) : io.swarm.pieces.isComplete = true := by
  obtain ⟨t, hswarm⟩ := swarm_reachable hist
  rcases Nat.eq_zero_or_pos m.pieces.length with hzero | hn
  · have hlength : io.swarm.pieces.pieces.length = m.pieces.length :=
      (PieceManager.delivered_described (Swarm.deliveries_delivered hswarm)).length
    rw [hzero, List.length_eq_zero_iff] at hlength
    simp [PieceManager.isComplete, hlength]
  · exact (Swarm.available_iff_complete (history_reached hist) hn hswarm).2.mp h.2

theorem published_whole (hist : History (step sha1) (Started sha1 clientId m) trace io)
    {snapshot : Swarm.SwarmSnapshot} {stats : SessionStats}
    (h : .published snapshot stats ∈ (io.step sha1 i).2) (hwhole : Whole snapshot) :
    io.phase = .handling ∧ io.outputs = [] ∧ io.worker.running = true ∧ io.core.Settled ∧
      Synced io.pieceStore trace ∧ (io.step sha1 i).1.core.Settled := by
  have hcourse : Course sha1 io i _ _ := course_step (history_drained hist) i
  obtain ⟨hphase, hout, rfl, hnext⟩ := hcourse.published h
  have hcomplete := whole_complete hist hwhole
  rcases history_barred hist with hover | hdoomed | hlive
  · have hover' : io.phase.over = true := hover
    rw [hphase] at hover'
    contradiction
  · have hin : .completed ∈ io.outputs := hdoomed.unfinished hcomplete
    rw [hout] at hin
    contradiction
  · obtain ⟨hsettled, hflushed⟩ := (hlive.stage hcomplete).rested (by simp [core, hphase]) hout
    refine ⟨hphase, hout, hlive.running, hsettled, ⟨?_, hflushed⟩, ?_⟩
    · have hpaid := hlive.paid
      rw [List.filter_append, writes_nil hsettled.queue] at hpaid
      simpa [core, hout] using hpaid
    · rw [hnext]
      exact ⟨hsettled.complete, hsettled.queue, hsettled.outputs⟩

theorem started_settled (h : Started sha1 clientId m io) (hwhole : Whole io.swarm.snapshot) :
    io.core.Settled := by
  obtain ⟨hout, -, -, -, hqueue, -⟩ := started_idle h
  refine ⟨whole_complete (.start h) hwhole, ?_, ?_⟩
  · simp [core, hqueue]
  · simp [core, hout]

theorem settled_of_published (hist : History (step sha1) (Started sha1 clientId m) trace io)
    {older : Run} {snapshot : Swarm.SwarmSnapshot} (h : Published trace io older snapshot)
    (hwhole : Whole snapshot) : io.core.Settled := by
  induction hist with
  | start hs =>
    rcases h with ⟨-, rfl⟩ | ⟨newer, e, stats, htrace, -⟩
    · exact started_settled hs hwhole
    · simp at htrace
  | @next trace io i hist ih =>
    rcases published_cons h with hbefore | ⟨-, stats, hnow⟩
    · obtain ⟨t, hswarm⟩ := swarm_reachable hist
      have hcourse : Course sha1 io i _ _ := course_step (history_drained hist) i
      exact hcourse.settled hswarm (ih hbefore)
    · exact (published_whole hist hnow hwhole).2.2.2.2.2

theorem Course.stopped (hcourse : Course sha1 io i c effects) (h : io.worker.running = false) :
    c.running = false := by
  cases hcourse with
  | broken | failed => rfl
  | _ => exact h

theorem dropReplies_worker (io : SwarmIo) : io.dropReplies.worker = io.worker := by
  unfold dropReplies
  dsimp only
  split
  · rfl
  · rfl

end SwarmIo

end Tortue
