import Tortue.Adapters.Turns
import Tortue.Adapters.PeeringRuns

namespace Tortue

open Collections

def PeerAct.take? : PeerAct → Option Message
  | .take message => some message
  | _ => none

namespace PeerTask

def Spawned (t : PeerTask) : Prop :=
  ∃ config addr, t = connect config addr ∨ ∃ inbound, t = accept config addr inbound

inductive Life (spawned : PeerTask) : List Message → List PeerAct → PeerTask → Prop
  | start : Life spawned [] [] spawned
  | deliver {placed : List Message} {acts : List PeerAct} {t : PeerTask}
      (messages : List Message) : Life spawned placed acts t →
      Life spawned (placed ++ messages) acts { t with commands := t.commands ++ messages }
  | step {placed : List Message} {acts : List PeerAct} {t : PeerTask} {s : PeerSignals}
      {r : PeerTask × List PeerAct} : Life spawned placed acts t → t.Took s r →
      Life spawned placed (acts ++ r.2) r.1

theorem Took.commands {t : PeerTask} {s : PeerSignals} {r : PeerTask × List PeerAct}
    (h : t.Took s r) : t.commands = r.2.filterMap PeerAct.take? ++ r.1.commands := by
  cases h with
  | enter handshake reader o =>
    have hquiet : ((opener t.config handshake o).map PeerAct.send).filterMap PeerAct.take? = [] :=
      by simp [PeerAct.take?]
    rw [List.filterMap_cons_none rfl, hquiet]
    rfl
  | take reader o message commands hstage hcommands => exact hcommands
  | _ => rfl

theorem Life.channel {spawned t : PeerTask} {placed : List Message} {acts : List PeerAct}
    (h : Life spawned placed acts t) (hempty : spawned.commands = []) :
    placed = acts.filterMap PeerAct.take? ++ t.commands := by
  induction h with
  | start => rw [hempty, List.filterMap_nil, List.append_nil]
  | deliver messages _ ih => rw [ih, List.append_assoc]
  | step _ htook ih =>
    rw [ih, htook.commands, List.filterMap_append, List.append_assoc]

end PeerTask

namespace Peering

variable {sha1 : Sha1} {clientId : PeerId} {metainfo : Metainfo} {p : Peering} {number : Nat}
  {i : Move × Entropy} {t : PeerTask}

abbrev Log := List (Event Peering (Move × Entropy) Output)

def Output.act? (number : Nat) : Output → Option PeerAct
  | .effect _ => none
  | .act k a => if k = number then some a else none

def effects (log : Log) : List SwarmIo.Effect := (History.transcript log).filterMap Output.effect?

def acts (number : Nat) (log : Log) : List PeerAct :=
  (History.transcript log).filterMap (Output.act? number)

def placed (number : Nat) (log : Log) : List Message :=
  (effects log).filterMap (SwarmIo.Effect.messageOn number)

theorem acts_cons (number : Nat) (e : Event Peering (Move × Entropy) Output) (log : Log) :
    acts number (e :: log) = acts number log ++ e.outputs.filterMap (Output.act? number) := by
  rw [acts, History.transcript_cons, List.filterMap_append]
  rfl

theorem placed_cons (number : Nat) (e : Event Peering (Move × Entropy) Output) (log : Log) :
    placed number (e :: log) = placed number log ++
      (e.outputs.filterMap Output.effect?).filterMap (SwarmIo.Effect.messageOn number) := by
  rw [placed, effects, History.transcript_cons, List.filterMap_append, List.filterMap_append]
  rfl

theorem sent_channel {io : SwarmIo} {j : SwarmIo.Move × Entropy} {k : Nat} {x : SocketAddr}
    {m : Message} (h : .sent k x m ∈ (io.step sha1 j).2) : io.peerCmds.get x = some k := by
  cases SwarmIo.turn_step sha1 io j with
  | rest _ _ hsilent => exact absurd h (hsilent k x m)
  | input _ _ _ _ _ hsilent => exact absurd h (hsilent k x m)
  | spawn _ _ _ _ _ _ hsilent => exact absurd h (hsilent k x m)
  | pass _ _ _ _ _ hsilent => exact absurd h (hsilent k x m)
  | disconnect _ _ _ _ _ _ hsilent => exact absurd h (hsilent k x m)
  | send y m' j _ hget _ heffects =>
    rw [heffects, List.mem_singleton, SwarmIo.Effect.sent.injEq] at h
    obtain ⟨rfl, rfl, -⟩ := h
    exact hget
  | refuse _ _ _ _ _ _ hsilent => exact absurd h (hsilent k x m)
  | broadcast accepts m' rest failed _ _ _ _ _ heffects => exact (heffects k x m h).2.1

theorem get_deliver (tasks : List PeerTask) (es : List SwarmIo.Effect) (k : Nat) :
    (es.foldl deliver tasks)[k]? = tasks[k]?.map fun t =>
      { t with commands := t.commands ++ es.filterMap (SwarmIo.Effect.messageOn k) } := by
  induction es generalizing tasks with
  | nil =>
    simp only [List.foldl_nil, List.filterMap_nil, List.append_nil]
    exact (congrFun Option.map_id _).symm
  | cons e es ih =>
    rw [List.foldl_cons, ih]
    cases e with
    | sent j x m =>
      rw [deliver, List.getElem?_modify]
      cases tasks[k]? with
      | none => rfl
      | some t =>
        by_cases hk : j = k
        · simp [SwarmIo.Effect.messageOn, hk]
        · simp [SwarmIo.Effect.messageOn, hk]
    | _ => rfl

variable {log : Log}

theorem tracked (hist : History (step sha1) (Started sha1 clientId metainfo) log p) :
    p.Tracks ∧ p.io.links.Tracked := by
  obtain ⟨log', io, hist', ⟨rfl, htracks⟩, -⟩ := (refines sha1 clientId metainfo).transfer hist
  exact ⟨htracks, SwarmIo.history_tracked hist'⟩

structure Populated (log : Log) (p : Peering) : Prop where
  lives : ∀ number t, p.tasks[number]? = some t →
    ∃ spawned : PeerTask, spawned.Spawned ∧ spawned.Life (placed number log) (acts number log) t
  fresh : ∀ number, p.tasks.length ≤ number → placed number log = [] ∧ acts number log = []

theorem spawned_spawn (config : PeerConfig) (move : Move) (s : Session) :
    (spawn config move s).Spawned := by
  unfold spawn
  split
  · next addr peer => exact ⟨config, s.addr, .inr ⟨peer, rfl⟩⟩
  · exact ⟨config, s.addr, .inl rfl⟩

theorem effects_loop (number : Nat) (es : List SwarmIo.Effect) :
    (es.map Output.effect).filterMap Output.effect? = es ∧
      (es.map Output.effect).filterMap (Output.act? number) = [] := by
  rw [List.filterMap_map, List.filterMap_map]
  exact ⟨List.filterMap_some, List.filterMap_eq_nil_iff.mpr fun e _ => rfl⟩

theorem effects_task (number k : Nat) (done : List PeerAct) :
    (done.map (Output.act k)).filterMap Output.effect? = [] ∧
      (done.map (Output.act k)).filterMap (Output.act? number) =
        if k = number then done else [] := by
  rw [List.filterMap_map, List.filterMap_map]
  refine ⟨List.filterMap_eq_nil_iff.mpr fun e _ => rfl, ?_⟩
  split_ifs with hk
  · exact (List.filterMap_congr fun a _ => if_pos hk).trans List.filterMap_some
  · exact List.filterMap_eq_nil_iff.mpr fun a _ => if_neg hk

theorem messageOn_free (htracks : p.Tracks) (htracked : p.io.links.Tracked)
    (j : SwarmIo.Move × Entropy) (hnumber : p.tasks.length ≤ number) :
    (p.io.step sha1 j).2.filterMap (SwarmIo.Effect.messageOn number) = [] := by
  refine List.eq_nil_iff_forall_not_mem.mpr fun m hm => ?_
  obtain ⟨x, hsent⟩ := SwarmIo.mem_messageOn.mp hm
  have hlt : number < p.io.peerConnector.sessions.length :=
    (htracked.channel x number (sent_channel hsent)).1.lt
  rw [htracks.length] at hnumber
  omega

theorem Populated.loop (h : Populated log p) (htracks : p.Tracks) (htracked : p.io.links.Tracked)
    (move : Move) (j : SwarmIo.Move × Entropy) {e : Event Peering (Move × Entropy) Output}
    (he : e.outputs = (p.runLoop move (p.io.step sha1 j)).2) :
    Populated (e :: log) (p.runLoop move (p.io.step sha1 j)).1 := by
  have hacts (number : Nat) : acts number (e :: log) = acts number log := by
    rw [acts_cons, he, runLoop, (effects_loop number _).2, List.append_nil]
  have hplaced (number : Nat) : placed number (e :: log) = placed number log ++
      (p.io.step sha1 j).2.filterMap (SwarmIo.Effect.messageOn number) := by
    rw [placed_cons, he, runLoop, (effects_loop number _).1]
  refine ⟨fun number t ht => ?_, fun number hnumber => ?_⟩
  · simp only [runLoop, get_deliver] at ht
    obtain ⟨t, hget, rfl⟩ := Option.map_eq_some_iff.mp ht
    rw [hacts, hplaced]
    rw [List.getElem?_append] at hget
    split_ifs at hget with hold
    · obtain ⟨spawned, hspawned, hlife⟩ := h.lives number t hget
      exact ⟨spawned, hspawned, hlife.deliver _⟩
    · obtain ⟨hempty, hquiet⟩ := h.fresh number (Nat.le_of_not_lt hold)
      obtain ⟨s, -, rfl⟩ := List.mem_map.mp (List.mem_of_getElem? hget)
      rw [hempty, hquiet]
      exact ⟨_, spawned_spawn p.config move s, PeerTask.Life.start.deliver _⟩
  · have hnone := List.getElem?_eq_none hnumber
    simp only [runLoop, get_deliver, Option.map_eq_none_iff, List.getElem?_eq_none_iff,
      List.length_append] at hnone
    obtain ⟨hempty, hquiet⟩ := h.fresh number (by omega)
    rw [hacts, hplaced, hempty, hquiet, messageOn_free htracks htracked j (by omega)]
    exact ⟨rfl, rfl⟩

theorem Populated.task (h : Populated log p) {r : PeerTask × List PeerAct} {k : Nat}
    (ht : p.tasks[k]? = some t) (hr : t.Took (signals p.io k t) r)
    {e : Event Peering (Move × Entropy) Output} (he : e.outputs = r.2.map (.act k)) :
    Populated (e :: log)
      { p with io := p.io.hear k r.1 r.2, tasks := p.tasks.set k r.1 } := by
  have hacts (number : Nat) : acts number (e :: log) =
      acts number log ++ if k = number then r.2 else [] := by
    rw [acts_cons, he, (effects_task number k r.2).2]
  have hplaced (number : Nat) : placed number (e :: log) = placed number log := by
    rw [placed_cons, he, (effects_task number k r.2).1, List.filterMap_nil, List.append_nil]
  have hlt : k < p.tasks.length := (List.getElem?_eq_some_iff.mp ht).1
  refine ⟨fun number u hu => ?_, fun number hnumber => ?_⟩
  · rw [hacts, hplaced]
    rw [List.getElem?_set] at hu
    split_ifs at hu ⊢ with hk
    · obtain rfl := Option.some.inj hu
      obtain ⟨spawned, hspawned, hlife⟩ := h.lives k t ht
      exact ⟨spawned, hspawned, hk ▸ hlife.step hr⟩
    · rw [List.append_nil]
      exact h.lives number u hu
  · rw [List.length_set] at hnumber
    rw [hacts, hplaced, if_neg (by omega), List.append_nil]
    exact h.fresh number hnumber

theorem populated (hist : History (step sha1) (Started sha1 clientId metainfo) log p) :
    Populated log p := by
  induction hist with
  | start hp =>
    refine ⟨fun number t ht => ?_, fun number _ => ⟨rfl, rfl⟩⟩
    rw [hp.tasks] at ht
    contradiction
  | @next log p i hist ih =>
    obtain ⟨htracks, htracked⟩ := tracked hist
    have hstep := stepped sha1 p i
    generalize hr : p.step sha1 i = r at hstep
    cases hstep with
    | rest =>
      refine ⟨fun number t ht => ?_, fun number hnumber => ?_⟩
      · rw [acts_cons, placed_cons]
        simpa using ih.lives number t ht
      · rw [acts_cons, placed_cons]
        simpa using ih.fresh number hnumber
    | loop loop hmove => exact ih.loop htracks htracked i.1 (loop, i.2) rfl
    | task k t r ht htook => exact ih.task ht htook rfl

end Peering

end Tortue
