import Tortue.Adapters.Faults
import Tortue.Application.Client
import Tortue.Properties.CompletionSignals

namespace Tortue

open Collections

namespace SwarmIo

variable {sha1 : Sha1} {clientId : PeerId} {m : Metainfo} {io : SwarmIo} {i : Move × Entropy}
  {trace : Run}

theorem Published.later {older : Run} {snapshot : Swarm.SwarmSnapshot} {effects : List Effect}
    (h : Published trace io older snapshot) (io' : SwarmIo) :
    Published (⟨io, i, effects⟩ :: trace) io' older snapshot := by
  rcases h with ⟨rfl, rfl⟩ | ⟨newer, e, stats, rfl, he⟩
  · refine .inl ⟨rfl, ?_⟩
    cases trace with
    | nil => rfl
    | cons e trace => simp [opening, List.getLast?_cons]
  · exact .inr ⟨_ :: newer, e, stats, rfl, he⟩

theorem step_publishes (hist : History (step sha1) (Started sha1 clientId m) trace io)
    (i : Move × Entropy) : (io.step sha1 i).2 = [io.publish] ∨
      ∀ snapshot stats, .published snapshot stats ∉ (io.step sha1 i).2 := by
  have hcourse : Course sha1 io i (io.step sha1 i).1.core (io.step sha1 i).2 :=
    course_step (history_drained hist) i
  generalize (io.step sha1 i).1.core = c at hcourse
  generalize (io.step sha1 i).2 = effects at hcourse ⊢
  cases hcourse with
  | publish => exact .inl rfl
  | pass _ _ _ _ _ _ _ hsent =>
    refine .inr fun snapshot stats hin => ?_
    obtain ⟨k, x, m, heq⟩ := hsent _ hin
    contradiction
  | serve _ _ _ _ _ _ heffects =>
    refine .inr fun snapshot stats hin => ?_
    have heq := heffects _ hin
    contradiction
  | _ => exact .inr (by simp)

theorem stats_step (hist : History (step sha1) (Started sha1 clientId m) trace io)
    (i : Move × Entropy) : (sessionStats io.swarm.snapshot).Advances
      (sessionStats (io.step sha1 i).1.swarm.snapshot) := by
  have hcourse : Course sha1 io i (io.step sha1 i).1.core (io.step sha1 i).2 :=
    course_step (history_drained hist) i
  rcases hcourse.projects with ⟨hsame, -⟩ | ⟨input, -, hnext, -⟩
  · have hswarm : (io.step sha1 i).1.swarm = io.swarm := hsame
    rw [hswarm]
    exact .refl _
  · have hswarm : (io.step sha1 i).1.swarm = (io.swarm.step sha1 (input, i.2)).1 := hnext
    obtain ⟨t, ht⟩ := swarm_reachable hist
    have havailable := Swarm.availableBytes_step ht (input, i.2)
    have htotal := congrArg Prod.snd (Swarm.step_origin sha1 io.swarm (input, i.2))
    simp only [Swarm.origin] at htotal
    rw [hswarm]
    refine ⟨Swarm.uploadedBytes_le sha1 ht _, Swarm.downloadedBytes_step sha1 io.swarm _, ?_⟩
    simp only [sessionStats, Swarm.snapshot, htotal]
    omega

theorem published_bounds (hreach : m.Reached) (hn : 0 < m.pieces.length)
    (hist : History (step sha1) (Started sha1 clientId m) trace io) {older : Run}
    {snapshot : Swarm.SwarmSnapshot} (h : Published trace io older snapshot) :
    snapshot.bytesAvailable ≤ snapshot.bytesTotal ∧ snapshot.bytesTotal = m.totalSize := by
  have hcurrent : ∀ {trace io}, History (step sha1) (Started sha1 clientId m) trace io →
      io.swarm.snapshot.bytesAvailable ≤ io.swarm.snapshot.bytesTotal ∧
        io.swarm.snapshot.bytesTotal = m.totalSize := by
    intro trace io hist
    obtain ⟨t, ht⟩ := swarm_reachable hist
    refine ⟨(Swarm.available_iff_complete hreach hn ht).1, ?_⟩
    exact congrArg Metainfo.totalSize (Swarm.reachable_metainfo sha1 ⟨t, ht⟩)
  induction hist with
  | start hs =>
    rcases h with ⟨-, rfl⟩ | ⟨newer, e, stats, htrace, -⟩
    · exact hcurrent (.start hs)
    · simp at htrace
  | @next trace io i hist ih =>
    rcases published_cons h with hbefore | ⟨-, stats, hnow⟩
    · exact ih hbefore
    · have hcourse : Course sha1 io i _ _ := course_step (history_drained hist) i
      obtain ⟨-, -, rfl, -⟩ := hcourse.published hnow
      exact hcurrent hist

end SwarmIo

namespace Client

abbrev Run := List (Event Client (Move × Entropy) Effect)

def initialStats (m : Metainfo) : SessionStats := ⟨.active, 0, 0, m.totalSize⟩

inductive Stage (sha1 : Sha1) (node : Node) (m : Metainfo) (c : Client) : Prop
  | waiting : (∀ io, c.task ≠ .looping io) → (∀ fresh, c.task = .restoring fresh →
      ∃ files, DiskStorage.Laid m files ∧ SwarmIo.new node.id m files = some fresh) →
      c.progress = ⟨.default, true⟩ → c.stats = initialStats m → c.outcome ≠ some .completed →
      Stage sha1 node m c
  | told (io : SwarmIo) (trace older : SwarmIo.Run) : c.task = .looping io →
      History (SwarmIo.step sha1) (SwarmIo.Started sha1 node.id m) trace io →
      SwarmIo.Published trace io older c.progress.value →
      c.stats = SwarmIo.sessionStats c.progress.value →
      c.stats.Advances (SwarmIo.sessionStats io.swarm.snapshot) →
      (c.outcome = some .completed → ∃ older snapshot,
        SwarmIo.Published trace io older snapshot ∧ SwarmIo.Whole snapshot) →
      Stage sha1 node m c

variable {sha1 : Sha1} {node : Node} {m : Metainfo} {c : Client} {env : Entropy}

theorem publish_silent {effects : List SwarmIo.Effect}
    (h : ∀ snapshot stats, .published snapshot stats ∉ effects) : c.publish effects = c := by
  induction effects with
  | nil => rfl
  | cons effect effects ih =>
    have hrest := ih fun snapshot stats hin => h snapshot stats (List.mem_cons_of_mem _ hin)
    cases effect with
    | published snapshot stats => exact absurd (List.mem_cons_self ..) (h snapshot stats)
    | stepped | sent | executed => exact hrest

theorem started_stage (h : Started node m c) : Stage sha1 node m c := by
  obtain ⟨supported, files, hlaid, hstart⟩ := h
  obtain ⟨fresh, hnew, hc⟩ := Option.bind_eq_some_iff.mp hstart
  rw [Option.pure_def, Option.some.injEq] at hc
  subst hc
  refine .waiting (by simp) (fun fresh' hfresh => ⟨files, hlaid, ?_⟩) rfl rfl (by simp)
  rw [Task.restoring.injEq] at hfresh
  exact hfresh ▸ hnew

theorem stage_restore (h : Stage sha1 node m c) : Stage sha1 node m (c.restore sha1 env) := by
  unfold restore
  split
  · next fresh hfresh =>
    cases h with
    | told io trace older htask =>
      rw [hfresh] at htask
      contradiction
    | waiting hloop hnew hprogress hstats hout =>
      obtain ⟨files, hlaid, hmade⟩ := hnew fresh hfresh
      split
      · next io hrestore =>
        have hstarted : SwarmIo.Started sha1 node.id m io :=
          ⟨files, fresh, env, hlaid, hmade, hrestore⟩
        refine .told io [] [] rfl (.start hstarted) (.inl ⟨rfl, rfl⟩) rfl (.refl _) fun h => ?_
        exact absurd h hout
      · exact .waiting (by simp) (by simp) hprogress hstats hout
  · exact h

theorem stage_loop (h : Stage sha1 node m c) (move : SwarmIo.Move) :
    Stage sha1 node m (c.loop sha1 env move) := by
  unfold loop
  split
  · next io hio =>
    cases h with
    | waiting hloop => exact absurd hio (hloop io)
    | told io' trace older htask hist hpublished hstats hadvances hout =>
      obtain rfl : io = io' := by
        rw [hio, Task.looping.injEq] at htask
        exact htask
      have hlater := hist.next (move, env)
      rcases SwarmIo.step_publishes hist (move, env) with heffects | hsilent
      · have hnow : SwarmIo.Published (⟨io, (move, env), (io.step sha1 (move, env)).2⟩ :: trace)
            (io.step sha1 (move, env)).1 trace io.swarm.snapshot := by
          refine .inr ⟨[], _, SwarmIo.sessionStats io.swarm.snapshot, rfl, ?_⟩
          rw [heffects]
          exact List.mem_singleton.mpr rfl
        rw [heffects] at hnow hlater ⊢
        refine .told _ _ trace rfl hlater hnow rfl (SwarmIo.stats_step hist _) fun h => ?_
        obtain ⟨older', snapshot, hold, hwhole⟩ := hout h
        exact ⟨older', snapshot, hold.later _, hwhole⟩
      · rw [publish_silent hsilent]
        refine .told _ _ older rfl hlater (hpublished.later _) hstats
          (hadvances.trans (SwarmIo.stats_step hist _)) fun h => ?_
        obtain ⟨older', snapshot, hold, hwhole⟩ := hout h
        exact ⟨older', snapshot, hold.later _, hwhole⟩
  · exact h

theorem Stage.keep (h : Stage sha1 node m c) {c' : Client} (htask : c'.task = c.task)
    (hstats : c'.stats = c.stats) (hprogress : c'.progress = c.progress)
    (hout : c'.outcome = some .completed → c.outcome = some .completed) : Stage sha1 node m c' := by
  cases h with
  | waiting hloop hnew hvalue hinitial hopen =>
    exact .waiting (htask ▸ hloop) (htask ▸ hnew) (hprogress ▸ hvalue) (hstats ▸ hinitial)
      fun h => hopen (hout h)
  | told io trace older hio hist hpublished hsession hadvances hdone =>
    refine .told io trace older (htask.trans hio) hist (hprogress ▸ hpublished) ?_
      (hstats ▸ hadvances) fun h => hdone (hout h)
    rw [hstats, hprogress]
    exact hsession

theorem stage_finish (h : Stage sha1 node m c) (result : Except SwarmIo.Error Unit)
    (message : String) : Stage sha1 node m (c.finish result message) := by
  unfold finish
  split
  · exact h.keep rfl rfl rfl (by simp)
  · exact h.keep rfl rfl rfl (by simp)

theorem stage_joinTask (h : Stage sha1 node m c) : Stage sha1 node m c.joinTask := by
  unfold joinTask
  split
  · exact h
  · exact stage_finish h _ _

theorem stage_observe (h : Stage sha1 node m c) : Stage sha1 node m c.observe := by
  unfold observe
  split
  · split
    · exact h
    · exact stage_finish h _ _
  · next hunseen =>
    cases h with
    | waiting _ _ hprogress =>
      rw [hprogress] at hunseen
      exact absurd rfl hunseen
    | told io trace older hio hist hpublished hsession hadvances hdone =>
      dsimp only
      split
      · next hwhole =>
        exact .told io trace older hio hist hpublished hsession hadvances fun _ =>
          ⟨older, c.progress.value, hpublished, hwhole⟩
      · exact .told io trace older hio hist hpublished hsession hadvances hdone

theorem stage_turn (h : Stage sha1 node m c) (tracker : Nat) (t : TrackerIo) (next : Turn) :
    Stage sha1 node m (c.turn tracker t next) := h.keep rfl rfl rfl fun h => h

theorem stage_wake (h : Stage sha1 node m c) (tracker : Nat) :
    Stage sha1 node m (c.wake tracker) := by
  unfold wake
  split
  · exact stage_turn h ..
  · exact h

theorem stage_send (h : Stage sha1 node m c) (tracker : Nat) :
    Stage sha1 node m (c.send tracker).1 := by
  unfold send
  split
  · exact stage_turn h ..
  · exact h

theorem stage_answer (h : Stage sha1 node m c) (tracker : Nat)
    (response : Option TrackerResponse) (delivered : Bool) :
    Stage sha1 node m (c.answer tracker response delivered) := by
  unfold answer
  split
  · split
    · exact h
    · split
      · exact stage_turn h ..
      · exact stage_turn h ..
  · exact h

theorem stage_step (h : Stage sha1 node m c) (i : Move × Entropy) :
    Stage sha1 node m (c.step sha1 i).1 := by
  obtain ⟨move, env⟩ := i
  cases move with
  | restore => exact stage_restore h
  | loop move => exact stage_loop h move
  | wake tracker => exact stage_wake h tracker
  | send tracker => exact stage_send h tracker
  | answer tracker response delivered => exact stage_answer h tracker response delivered
  | task =>
    simp only [step]
    split
    · exact stage_joinTask h
    · exact h
  | changed =>
    simp only [step]
    split
    · exact stage_observe h
    · exact h

theorem history_stage {trace : Run} (hist : History (step sha1) (Started node m) trace c) :
    Stage sha1 node m c :=
  hist.invariant (fun _ hs => started_stage hs) fun _ i hs => stage_step hs i

def Holding (sha1 : Sha1) (m : Metainfo) (c : Client) : Prop :=
  ∃ io, c.task = .looping io ∧ SwarmIo.Held sha1 m io.worker.files

theorem publish_outcome (effects : List SwarmIo.Effect) :
    (c.publish effects).outcome = c.outcome := by
  induction effects generalizing c with
  | nil => rfl
  | cons effect effects ih =>
    cases effect with
    | published snapshot stats => exact ih
    | stepped | sent | executed => exact ih

theorem step_outcome (sha1 : Sha1) (i : Move × Entropy) {o : Outcome} (ho : c.outcome = some o) :
    (c.step sha1 i).1.outcome = some o := by
  obtain ⟨move, env⟩ := i
  cases move with
  | restore =>
    simp only [step, restore]
    split
    · split
      · rw [publish_outcome]
        exact ho
      · exact ho
    · exact ho
  | loop move =>
    simp only [step, loop]
    split
    · rw [publish_outcome]
      exact ho
    · exact ho
  | wake tracker =>
    simp only [step, wake]
    split
    · exact ho
    · exact ho
  | send tracker =>
    simp only [step, send]
    split
    · exact ho
    · exact ho
  | answer tracker response delivered =>
    simp only [step, answer]
    split
    · split
      · exact ho
      · split
        · exact ho
        · exact ho
    · exact ho
  | task =>
    simp only [step, ho]
    exact ho
  | changed =>
    simp only [step, ho]
    exact ho

theorem run_outcome (sha1 : Sha1) {o : Outcome} (ho : c.outcome = some o)
    (later : List (Move × Entropy)) : (History.run (step sha1) c later).1.outcome = some o :=
  History.run_invariant (P := fun (c : Client) => c.outcome = some o) (G := fun _ => True)
    (fun _ i _ h => step_outcome sha1 i h) ho later fun _ _ => trivial

theorem completed_holding {torrent : Bytes} {trace : Run}
    (hm : Metainfo.tryFrom sha1 torrent = .ok m) (hsum : m.fileLengths.sum < 2 ^ 64)
    (hist : History (step sha1) (Started node m) trace c)
    (hcompleted : c.outcome = some .completed) : c.Holding sha1 m := by
  cases history_stage hist with
  | waiting _ _ _ _ hopen => exact absurd hcompleted hopen
  | told io trace older hio hrun _ _ _ hdone =>
    obtain ⟨older', snapshot, hpublished, hwhole⟩ := hdone hcompleted
    exact ⟨io, hio, SwarmIo.published_held (Metainfo.tryFrom_validates hm) hsum hrun hpublished
      hwhole⟩

theorem completed_download_is_held {torrent : Bytes} {trace : Run}
    (hm : Metainfo.tryFrom sha1 torrent = .ok m) (hsum : m.fileLengths.sum < 2 ^ 64)
    (hist : History (step sha1) (Started node m) trace c)
    (hcompleted : c.outcome = some .completed) (later : List (Move × Entropy)) :
    (History.run (step sha1) c later).1.Holding sha1 m :=
  completed_holding hm hsum (hist.run_events later) (run_outcome sha1 hcompleted later)

end Client

namespace Sample

@[irreducible] def client : Option Client :=
  Client.start (fun _ => true) ⟨peerId 1, 1234⟩ torrent [blankFile]

def clientMoves : List Client.Move :=
  [.wake 0, .restore, .send 0, .answer 0 none true] ++ sharing.map Client.Move.loop ++
    [.changed, .wake 0, .send 0]

def downloading : List (Client.Move × Entropy) := clientMoves.map fun move => (move, env)

def completed (c : Client) : Bool :=
  match c.outcome with
  | some .completed => true
  | _ => false

theorem completed_iff {c : Client} : completed c = true ↔ c.outcome = some .completed := by
  unfold completed
  split
  · next heq => exact iff_of_true rfl heq
  · next hne => exact iff_of_false (by simp) hne

theorem client_history {check : Client → Bool} (h : client.any check = true) :
    ∃ c, check c = true ∧ History (Client.step contentSha1)
      (Client.Started ⟨peerId 1, 1234⟩ torrent)
      (History.events (Client.step contentSha1) c downloading)
      (History.run (Client.step contentSha1) c downloading).1 := by
  obtain ⟨c, hc, hcheck⟩ := (Option.any_eq_true _ _).mp h
  unfold client at hc
  refine ⟨c, hcheck, ?_⟩
  have hstart : History (Client.step contentSha1) (Client.Started ⟨peerId 1, 1234⟩ torrent) [] c :=
    .start ⟨_, _, blankFile_laid, hc⟩
  have hist := hstart.run_events downloading
  rwa [List.append_nil] at hist

end Sample

namespace Client

theorem sample_download_is_held : ∃ c trace,
    History (step Sample.contentSha1) (Started ⟨Sample.peerId 1, 1234⟩ Sample.torrent) trace c ∧
    c.outcome = some .completed ∧ c.Holding Sample.contentSha1 Sample.torrent ∧
    (History.run (step Sample.contentSha1) c Sample.downloading).1.Holding Sample.contentSha1
      Sample.torrent := by
  have hrun : (Sample.client.any fun c => Sample.completed
      (History.run (step Sample.contentSha1) c Sample.downloading).1) = true := by decide +kernel
  obtain ⟨c, hcheck, hist⟩ := Sample.client_history hrun
  have hcompleted := Sample.completed_iff.mp hcheck
  have hsum : Sample.torrent.fileLengths.sum < 2 ^ 64 := by decide +kernel
  have hnow := completed_holding Sample.torrent_accepted hsum hist hcompleted
  exact ⟨_, _, hist, hcompleted, hnow, completed_download_is_held Sample.torrent_accepted hsum hist
    hcompleted Sample.downloading⟩

section

variable {sha1 : Sha1} {node : Node} {m : Metainfo} {c : Client} {env : Entropy}

def announced (trace : Run) : List Effect := trace.reverse.flatMap Event.outputs

theorem announced_cons (e : Event Client (Move × Entropy) Effect) (trace : Run) :
    announced (e :: trace) = announced trace ++ e.outputs := by
  simp [announced]

theorem stats_restore (h : Stage sha1 node m c) :
    c.stats.Advances (c.restore sha1 env).stats := by
  unfold restore
  split
  · next fresh hfresh =>
    cases h with
    | told io trace older htask =>
      rw [hfresh] at htask
      contradiction
    | waiting hloop hnew hprogress hstats hopen =>
      obtain ⟨files, hlaid, hmade⟩ := hnew fresh hfresh
      split
      · next io hrestore =>
        have hstarted : SwarmIo.Started sha1 node.id m io :=
          ⟨files, fresh, env, hlaid, hmade, hrestore⟩
        have hmeta := Swarm.reachable_metainfo sha1 (SwarmIo.swarm_reachable (.start hstarted))
        rw [hstats]
        refine ⟨Nat.zero_le _, Nat.zero_le _, ?_⟩
        show io.swarm.metainfo.totalSize - io.swarm.pieces.availableBytes ≤ m.totalSize
        rw [hmeta]
        exact Nat.sub_le ..
      · exact .refl _
  · exact .refl _

theorem stats_loop (h : Stage sha1 node m c) (move : SwarmIo.Move) :
    c.stats.Advances (c.loop sha1 env move).stats := by
  unfold loop
  split
  · next io hio =>
    cases h with
    | waiting hloop => exact absurd hio (hloop io)
    | told io' trace older htask hist _ _ hadvances =>
      obtain rfl : io = io' := by
        rw [hio, Task.looping.injEq] at htask
        exact htask
      rcases SwarmIo.step_publishes hist (move, env) with heffects | hsilent
      · rw [heffects]
        exact hadvances
      · rw [publish_silent hsilent]
        exact .refl _
  · exact .refl _

theorem finish_stats (result : Except SwarmIo.Error Unit) (message : String) :
    (c.finish result message).stats = c.stats := by
  unfold finish
  split
  · rfl
  · rfl

theorem observe_stats : c.observe.stats = c.stats := by
  unfold observe
  split
  · split
    · rfl
    · exact finish_stats _ _
  · dsimp only
    split
    · rfl
    · rfl

theorem joinTask_stats : c.joinTask.stats = c.stats := by
  unfold joinTask
  split
  · rfl
  · exact finish_stats _ _

theorem wake_stats (tracker : Nat) : (c.wake tracker).stats = c.stats := by
  unfold wake
  split
  · rfl
  · rfl

theorem send_stats (tracker : Nat) : (c.send tracker).1.stats = c.stats := by
  unfold send
  split
  · rfl
  · rfl

theorem answer_stats (tracker : Nat) (response : Option TrackerResponse) (delivered : Bool) :
    (c.answer tracker response delivered).stats = c.stats := by
  unfold answer
  split
  · split
    · rfl
    · split
      · rfl
      · rfl
  · rfl

theorem stats_step (h : Stage sha1 node m c) (i : Move × Entropy) :
    c.stats.Advances (c.step sha1 i).1.stats := by
  obtain ⟨move, env⟩ := i
  cases move with
  | restore => exact stats_restore h
  | loop move => exact stats_loop h move
  | wake tracker =>
    rw [step, wake_stats]
    exact .refl _
  | send tracker =>
    rw [step, send_stats]
    exact .refl _
  | answer tracker response delivered =>
    rw [step, answer_stats]
    exact .refl _
  | task =>
    simp only [step]
    split
    · rw [joinTask_stats]
      exact .refl _
    · exact .refl _
  | changed =>
    simp only [step]
    split
    · rw [observe_stats]
      exact .refl _
    · exact .refl _

theorem publish_trackers (effects : List SwarmIo.Effect) :
    (c.publish effects).trackers = c.trackers := by
  induction effects generalizing c with
  | nil => rfl
  | cons effect effects ih =>
    cases effect with
    | published snapshot stats => exact ih
    | stepped | sent | executed => exact ih

theorem finish_trackers (result : Except SwarmIo.Error Unit) (message : String) :
    (c.finish result message).trackers = c.trackers := by
  unfold finish
  split
  · rfl
  · rfl

inductive Turned (c : Client) : Client → List Effect → Prop
  | still {c' : Client} : c'.trackers = c.trackers → Turned c c' []
  | wake (k : Nat) (t : TrackerIo) (l : TrackerIo.Loop) : c.trackers[k]? = some (t, .sleeping l) →
      Turned c (c.turn k t (.announcing l c.stats false)) []
  | send (k : Nat) (t : TrackerIo) (l : TrackerIo.Loop) (stats : SessionStats) :
      c.trackers[k]? = some (t, .announcing l stats false) →
      Turned c (c.turn k t (.announcing l stats true))
        [⟨k, t.announceRequest (TrackerIo.nextEvent l.event stats) stats⟩]
  | sleep (k : Nat) (t : TrackerIo) (l l' : TrackerIo.Loop) (stats : SessionStats) (sent : Bool) :
      c.trackers[k]? = some (t, .announcing l stats sent) →
      l'.event = TrackerIo.nextEvent l.event stats → Turned c (c.turn k t (.sleeping l')) []
  | stop (k : Nat) (t : TrackerIo) (l : TrackerIo.Loop) (stats : SessionStats) (sent : Bool) :
      c.trackers[k]? = some (t, .announcing l stats sent) → Turned c (c.turn k t .ended) []

theorem turned_answer (tracker : Nat) (response : Option TrackerResponse) (delivered : Bool) :
    Turned c (c.answer tracker response delivered) [] := by
  unfold answer
  split
  · next t l stats sent hget =>
    split
    · exact .still rfl
    · split
      · next l' hnext => exact .sleep tracker t l l' stats sent hget (TrackerIo.advance_event hnext)
      · exact .stop tracker t l stats sent hget
  · exact .still rfl

theorem step_turned (sha1 : Sha1) (c : Client) (i : Move × Entropy) :
    Turned c (c.step sha1 i).1 (c.step sha1 i).2 := by
  obtain ⟨move, env⟩ := i
  cases move with
  | restore =>
    refine .still ?_
    simp only [step, restore]
    split
    · split
      · exact publish_trackers _
      · rfl
    · rfl
  | loop move =>
    refine .still ?_
    simp only [step, loop]
    split
    · exact publish_trackers _
    · rfl
  | wake tracker =>
    simp only [step, wake]
    split
    · next t l hget => exact .wake tracker t l hget
    · exact .still rfl
  | send tracker =>
    simp only [step, send]
    split
    · next t l stats hget => exact .send tracker t l stats hget
    · exact .still rfl
  | answer tracker response delivered => exact turned_answer tracker response delivered
  | task =>
    refine .still ?_
    simp only [step, joinTask]
    split
    · split
      · rfl
      · exact finish_trackers _ _
    · rfl
  | changed =>
    refine .still ?_
    simp only [step, observe]
    split
    · split
      · split
        · rfl
        · exact finish_trackers _ _
      · split
        · rfl
        · rfl
    · rfl

namespace Turn

def event : Turn → AnnounceEvent
  | .sleeping l => l.event
  | .announcing l _ _ => l.event
  | .ended => .started

def pending (now : SessionStats) : Turn → SessionStats
  | .announcing _ stats _ => stats
  | _ => now

structure Behind (m : Metainfo) (now : SessionStats) (turn : Turn) : Prop where
  initial : (initialStats m).Advances (turn.pending now)
  current : (turn.pending now).Advances now
  completed : turn.event = .completed → (turn.pending now).left = 0

theorem Behind.advance {turn : Turn} {now later : SessionStats} (h : Behind m now turn)
    (hlater : now.Advances later) : Behind m later turn := by
  cases turn with
  | announcing l stats sent => exact ⟨h.initial, h.current.trans hlater, h.completed⟩
  | sleeping l =>
    refine ⟨h.initial.trans hlater, .refl _, fun hevent => ?_⟩
    exact Nat.le_zero.mp (h.completed hevent ▸ hlater.left)
  | ended => exact ⟨h.initial.trans hlater, .refl _, fun hevent => by contradiction⟩

theorem pending_advances {turn : Turn} {now later : SessionStats} (hlater : now.Advances later) :
    (turn.pending now).Advances (turn.pending later) := by
  cases turn with
  | announcing l stats sent => exact .refl _
  | sleeping l => exact hlater
  | ended => exact hlater

end Turn

structure Reported (m : Metainfo) (c : Client) (told : List Effect) : Prop where
  turns : ∀ (k : Nat) (t : TrackerIo) (turn : Turn), c.trackers[k]? = some (t, turn) →
    turn.Behind m c.stats
  initial : ∀ e ∈ told, (initialStats m).Advances e.request.stats
  events : ∀ e ∈ told, e.request.event = .completed ↔ e.request.stats.left = 0
  pending : ∀ e ∈ told, ∃ t turn, c.trackers[e.tracker]? = some (t, turn) ∧
    e.request.stats.Advances (turn.pending c.stats)
  ordered : ∀ k, (told.filter (·.tracker = k)).Pairwise fun a b =>
    a.request.stats.Advances b.request.stats

theorem nextEvent_completed {event : AnnounceEvent} {stats : SessionStats}
    (h : event = .completed → stats.left = 0) :
    TrackerIo.nextEvent event stats = .completed ↔ stats.left = 0 := by
  unfold TrackerIo.nextEvent
  dsimp only
  split
  · next hleft => exact iff_of_true rfl hleft
  · next hleft =>
    refine iff_of_false (fun heq => ?_) hleft
    split at heq
    · contradiction
    · exact hleft (h heq)

theorem started_reported (h : Started node m c) : Reported m c [] := by
  obtain ⟨supported, files, hlaid, hstart⟩ := h
  obtain ⟨fresh, hnew, hc⟩ := Option.bind_eq_some_iff.mp hstart
  rw [Option.pure_def, Option.some.injEq] at hc
  subst hc
  refine ⟨fun k t turn hget => ?_, by simp, by simp, by simp, by simp⟩
  obtain ⟨url, -, heq⟩ := List.mem_map.mp (List.mem_of_getElem? hget)
  rw [Prod.mk.injEq] at heq
  rw [← heq.2]
  exact ⟨.refl _, .refl _, fun hevent => by contradiction⟩

theorem getElem?_turn {k k' : Nat} {t t' : TrackerIo} {next turn : Turn}
    (h : (c.turn k t next).trackers[k']? = some (t', turn)) :
    (k = k' ∧ turn = next) ∨ c.trackers[k']? = some (t', turn) := by
  simp only [Client.turn, List.getElem?_set] at h
  split_ifs at h with hk hlt
  · rw [Option.some.injEq, Prod.mk.injEq] at h
    exact .inl ⟨hk, h.2.symm⟩
  · exact .inr h

theorem Reported.turned {told : List Effect} (h : Reported m c told) {k : Nat} {t : TrackerIo}
    {old next : Turn} (hget : c.trackers[k]? = some (t, old)) (hnext : next.Behind m c.stats)
    (hoff : (old.pending c.stats).Advances (next.pending c.stats)) :
    Reported m (c.turn k t next) told := by
  refine ⟨fun k' t' turn hturn => ?_, h.initial, h.events, fun e he => ?_, h.ordered⟩
  · rcases getElem?_turn hturn with ⟨-, rfl⟩ | hold
    · exact hnext
    · exact h.turns k' t' turn hold
  · obtain ⟨t', turn, hold, hbefore⟩ := h.pending e he
    rcases eq_or_ne k e.tracker with hk | hk
    · rw [← hk, hget, Option.some.injEq, Prod.mk.injEq] at hold
      rw [← hold.2] at hbefore
      have hlt := (List.getElem?_eq_some_iff.mp hget).1
      refine ⟨t, next, ?_, hbefore.trans hoff⟩
      rw [← hk]
      exact List.getElem?_set_self hlt
    · refine ⟨t', turn, ?_, hbefore⟩
      rw [← hold]
      exact List.getElem?_set_ne hk

theorem Reported.told {told : List Effect} (h : Reported m c told) {k : Nat} {t : TrackerIo}
    {l : TrackerIo.Loop} {stats : SessionStats} {sent : Bool}
    (hget : c.trackers[k]? = some (t, .announcing l stats sent)) :
    Reported m c (told ++ [⟨k, t.announceRequest (TrackerIo.nextEvent l.event stats) stats⟩]) := by
  have hbehind := h.turns k t _ hget
  refine ⟨h.turns, fun e he => ?_, fun e he => ?_, fun e he => ?_, fun k' => ?_⟩
  · rcases List.mem_append.mp he with hold | hnew
    · exact h.initial e hold
    · rw [List.mem_singleton.mp hnew]
      exact hbehind.initial
  · rcases List.mem_append.mp he with hold | hnew
    · exact h.events e hold
    · rw [List.mem_singleton.mp hnew]
      exact nextEvent_completed hbehind.completed
  · rcases List.mem_append.mp he with hold | hnew
    · exact h.pending e hold
    · rw [List.mem_singleton.mp hnew]
      exact ⟨t, _, hget, .refl _⟩
  · rw [List.filter_append, List.pairwise_append]
    refine ⟨h.ordered k', (List.pairwise_singleton _ _).filter _, fun a ha b hb => ?_⟩
    obtain ⟨ha, hka⟩ := List.mem_filter.mp ha
    obtain ⟨hb, hkb⟩ := List.mem_filter.mp hb
    rw [List.mem_singleton] at hb
    subst hb
    obtain ⟨t', turn, hold, hbefore⟩ := h.pending a ha
    have hsame : a.tracker = k := (of_decide_eq_true hka).trans (of_decide_eq_true hkb).symm
    rw [hsame, hget, Option.some.injEq, Prod.mk.injEq] at hold
    rw [← hold.2] at hbefore
    exact hbefore

theorem Reported.still {told : List Effect} (h : Reported m c told) {c' : Client}
    (htrackers : c'.trackers = c.trackers) (hstats : c.stats.Advances c'.stats) :
    Reported m c' told := by
  refine ⟨fun k t turn hget => ?_, h.initial, h.events, fun e he => ?_, h.ordered⟩
  · exact (h.turns k t turn (htrackers ▸ hget)).advance hstats
  · obtain ⟨t, turn, hget, hbefore⟩ := h.pending e he
    exact ⟨t, turn, htrackers ▸ hget, hbefore.trans (Turn.pending_advances hstats)⟩

theorem Reported.step {told : List Effect} (h : Reported m c told)
    (hstage : Stage sha1 node m c) (i : Move × Entropy) :
    Reported m (c.step sha1 i).1 (told ++ (c.step sha1 i).2) := by
  have hadvances := stats_step hstage i
  have hturned := step_turned sha1 c i
  generalize (c.step sha1 i).1 = c' at hadvances hturned ⊢
  generalize (c.step sha1 i).2 = effects at hturned ⊢
  cases hturned with
  | still htrackers =>
    rw [List.append_nil]
    exact h.still htrackers hadvances
  | wake k t l hget =>
    have hbehind := h.turns k t _ hget
    rw [List.append_nil]
    exact h.turned hget ⟨hbehind.initial, .refl _, hbehind.completed⟩ (.refl _)
  | send k t l stats hget =>
    have hbehind := h.turns k t _ hget
    have hsent : Reported m (c.turn k t (.announcing l stats true)) told :=
      h.turned hget ⟨hbehind.initial, hbehind.current, hbehind.completed⟩ (.refl _)
    exact hsent.told (List.getElem?_set_self (List.getElem?_eq_some_iff.mp hget).1)
  | sleep k t l l' stats sent hget hevent =>
    have hbehind := h.turns k t _ hget
    rw [List.append_nil]
    refine h.turned hget ⟨hbehind.initial.trans hbehind.current, .refl _, fun hcompleted => ?_⟩
      hbehind.current
    have hzero : stats.left = 0 :=
      (nextEvent_completed hbehind.completed).mp (hevent.symm.trans hcompleted)
    exact Nat.le_zero.mp (hzero ▸ hbehind.current.left)
  | stop k t l stats sent hget =>
    have hbehind := h.turns k t _ hget
    rw [List.append_nil]
    exact h.turned hget
      ⟨hbehind.initial.trans hbehind.current, .refl _, fun hevent => by contradiction⟩
      hbehind.current

theorem history_reported {trace : Run} (hist : History (step sha1) (Started node m) trace c) :
    Reported m c (announced trace) := by
  induction hist with
  | start hs => exact started_reported hs
  | next i hist ih =>
    rw [announced_cons]
    exact ih.step (history_stage hist) i

theorem holding_of_nothing_left {trace : Run} (hvalid : m.validate = .ok ())
    (hsum : m.fileLengths.sum < 2 ^ 64) (hpos : 0 < m.totalSize)
    (hist : History (step sha1) (Started node m) trace c) (hleft : c.stats.left = 0) :
    c.Holding sha1 m := by
  cases history_stage hist with
  | waiting _ _ _ hstats =>
    rw [hstats] at hleft
    exact absurd hleft (Nat.ne_of_gt hpos)
  | told io run older hio hrun hpublished hstats =>
    refine ⟨io, hio, SwarmIo.published_held hvalid hsum hrun hpublished ?_⟩
    rw [hstats] at hleft
    have hzero : c.progress.value.bytesTotal - c.progress.value.bytesAvailable = 0 := hleft
    obtain ⟨hle, htotal⟩ := SwarmIo.published_bounds (SwarmIo.history_reached hrun)
      (Metainfo.pieces_pos hvalid) hrun hpublished
    refine ⟨htotal ▸ hpos, ?_⟩
    omega

theorem announces_are_truthful {torrent : Bytes} {trace : Run}
    (hm : Metainfo.tryFrom sha1 torrent = .ok m) (hsum : m.fileLengths.sum < 2 ^ 64)
    (hpos : 0 < m.totalSize) (hist : History (step sha1) (Started node m) trace c) :
    (∀ k, ((announced trace).filter (·.tracker = k)).Pairwise fun a b =>
      a.request.stats.Advances b.request.stats ∧
        (a.request.event = .completed → b.request.event = .completed)) ∧
    ∀ a ∈ announced trace, a.request.stats.left ≤ m.totalSize ∧
      (a.request.event = .completed ↔ a.request.stats.left = 0) ∧
      (a.request.event = .completed → c.Holding sha1 m) := by
  have hreported := history_reported hist
  refine ⟨fun k => (hreported.ordered k).imp_of_mem fun {a b} ha hb hadvances =>
    ⟨hadvances, fun hevent => ?_⟩, fun a ha => ?_⟩
  · have hleft := (hreported.events a (List.mem_filter.mp ha).1).mp hevent
    have hless : b.request.stats.left ≤ 0 := hleft ▸ hadvances.left
    exact (hreported.events b (List.mem_filter.mp hb).1).mpr (Nat.le_zero.mp hless)
  · refine ⟨(hreported.initial a ha).left, hreported.events a ha, fun hevent => ?_⟩
    have hleft := (hreported.events a ha).mp hevent
    obtain ⟨t, turn, hget, hpending⟩ := hreported.pending a ha
    have hcurrent := hpending.trans (hreported.turns _ t turn hget).current
    exact holding_of_nothing_left (Metainfo.tryFrom_validates hm) hsum hpos hist
      (Nat.le_zero.mp (hleft ▸ hcurrent.left))

end

theorem sample_completion_announced : ∃ c trace,
    History (step Sample.contentSha1) (Started ⟨Sample.peerId 1, 1234⟩ Sample.torrent) trace c ∧
    (announced trace).map (·.request.event) = [.started, .completed] ∧
    ∀ a ∈ announced trace, a.request.event = .completed →
      c.Holding Sample.contentSha1 Sample.torrent := by
  have hrun : (Sample.client.any fun c => decide ((announced
      (History.events (step Sample.contentSha1) c Sample.downloading)).map (·.request.event) =
        [.started, .completed])) = true := by decide +kernel
  obtain ⟨c, hcheck, hist⟩ := Sample.client_history hrun
  obtain ⟨-, htruth⟩ := announces_are_truthful Sample.torrent_accepted (by decide +kernel)
    (by decide +kernel) hist
  exact ⟨_, _, hist, of_decide_eq_true hcheck, fun a ha => (htruth a ha).2.2⟩

end Client

end Tortue
