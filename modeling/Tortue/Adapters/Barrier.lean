import Tortue.Adapters.Courses

namespace Tortue

open Collections

def Output.stores : Output → Bool
  | .writePiece _ _ | .completed => true
  | _ => false

def Output.written : Output → Option (BlockRange × Bytes)
  | .writePiece range data => some (range, data)
  | _ => none

def DiskCommand.writes : DiskCommand → Bool
  | .write _ _ => true
  | _ => false

theorem Output.silent_stores {o : Output} (h : o.announces = false) : o.stores = false := by
  cases o <;> first | rfl | contradiction

theorem written_nil {outputs : List Output} (h : ∀ o ∈ outputs, o.stores = false) :
    outputs.filterMap Output.written = [] := by
  refine List.filterMap_eq_nil_iff.mpr fun o ho => ?_
  have hkeeps := h o ho
  cases o <;> first | rfl | contradiction

def Pending (outputs : List Output) : Prop :=
  ∃ before rest, outputs = before ++ .completed :: rest ∧ .completed ∉ before ∧
    ∀ o ∈ rest, o.stores = false

section

variable {outputs rest front : List Output} {o : Output}

theorem Pending.mem (h : Pending outputs) : .completed ∈ outputs := by
  obtain ⟨before, rest, rfl, -, -⟩ := h
  simp

theorem Pending.tail (h : Pending (o :: rest)) :
    (o = .completed ∧ ∀ o' ∈ rest, o'.stores = false) ∨ (o ≠ .completed ∧ Pending rest) := by
  obtain ⟨before, after, heq, hfirst, hstill⟩ := h
  cases before with
  | nil =>
    rw [List.nil_append, List.cons.injEq] at heq
    obtain ⟨rfl, rfl⟩ := heq
    exact .inl ⟨rfl, hstill⟩
  | cons b before =>
    rw [List.cons_append, List.cons.injEq] at heq
    obtain ⟨rfl, rfl⟩ := heq
    rw [List.mem_cons, not_or] at hfirst
    exact .inr ⟨Ne.symm hfirst.1, before, after, rfl, hfirst.2, hstill⟩

theorem Pending.push (h : Pending outputs) (hfront : ∀ o ∈ front, o.stores = false) :
    Pending (front ++ outputs) := by
  obtain ⟨before, after, rfl, hfirst, hstill⟩ := h
  refine ⟨front ++ before, after, (List.append_assoc ..).symm, fun hin => ?_, hstill⟩
  rcases List.mem_append.mp hin with hin | hin
  · have hfalse := hfront _ hin
    contradiction
  · exact hfirst hin

end

namespace Swarm

open PieceManager

variable {sha1 : Sha1} {clientId : PeerId} {m : Metainfo} {s : Swarm}

theorem Completes.pending {x : SocketAddr} {range : BlockRange} {data : Bytes} {t : Swarm}
    {outputs : List Output} {c : CompletedPiece} (h : Completes sha1 s x range data t outputs c)
    (hcomplete : t.pieces.isComplete = true) : Pending outputs := by
  obtain ⟨rest, rfl, honly, hcount⟩ := h.outputs
  rw [if_pos hcomplete] at hcount
  have hin : .completed ∈ rest := List.count_pos_iff.mp (by omega)
  obtain ⟨before, after, rfl, hfirst⟩ := List.eq_append_cons_of_mem hin
  refine ⟨.broadcast _ :: .writePiece _ _ :: before, after, rfl, by simp [hfirst], fun o ho => ?_⟩
  rw [List.count_append, List.count_cons_self] at hcount
  by_contra hstores
  have hann : o.announces = true := by
    by_contra hsilent
    exact hstores (Output.silent_stores (by simpa using hsilent))
  obtain rfl : o = .completed := honly o (by simp [ho]) hann
  have hpos := List.count_pos_iff.mpr ho
  omega

theorem step_barrier {h : Trace} (hist : History (step sha1) (Started clientId m) h s)
    (inp : Input × Entropy) (hlocal : ∀ j data, inp.1 ≠ .localPiece j data) :
    ((∀ o ∈ (step sha1 s inp).2, o.stores = false) ∧
      ((step sha1 s inp).1.pieces.isComplete = true → s.pieces.isComplete = true)) ∨
    (s.pieces.isComplete = false ∧
      ((step sha1 s inp).1.pieces.isComplete = true → Pending (step sha1 s inp).2)) := by
  have hs := history_sound hist
  rcases step_completion hs inp hlocal with ⟨hsilent, hback⟩ | ⟨x, range, data, c, -, hc⟩
  · refine .inl ⟨fun o ho => Output.silent_stores (hsilent o ho), fun hcomplete => ?_⟩
    rw [isComplete_iff] at hcomplete ⊢
    intro j hj
    refine hback j (hcomplete j ?_)
    rw [step_length sha1 s inp]
    exact hj
  · exact .inr ⟨(completes_missing hist hc).2, hc.pending⟩

theorem step_unfinished {h : Trace} (hist : History (step sha1) (Started clientId m) h s)
    (inp : Input × Entropy) (hlocal : ∀ j data, inp.1 ≠ .localPiece j data)
    (hcomplete : (step sha1 s inp).1.pieces.isComplete = true) :
    s.pieces.isComplete = true ∨ .completed ∈ (step sha1 s inp).2 := by
  rcases step_barrier hist inp hlocal with ⟨-, hback⟩ | ⟨-, hpending⟩
  · exact .inl (hback hcomplete)
  · exact .inr (hpending hcomplete).mem

theorem step_complete {h : Trace} (hist : History (step sha1) (Started clientId m) h s)
    (inp : Input × Entropy) (hlocal : ∀ j data, inp.1 ≠ .localPiece j data)
    (hcomplete : s.pieces.isComplete = true) : (step sha1 s inp).1.pieces.isComplete = true ∧
      ∀ o ∈ (step sha1 s inp).2, o.stores = false := by
  refine ⟨isComplete_stable sha1 s inp (history_sound hist) hcomplete, ?_⟩
  rcases step_barrier hist inp hlocal with ⟨hstill, -⟩ | ⟨hopen, -⟩
  · exact hstill
  · rw [hopen] at hcomplete
    contradiction

end Swarm

namespace SwarmIo

def askedBy (effects : List Effect) : List (BlockRange × Bytes) :=
  effects.flatMap fun
    | .stepped _ outputs => outputs.filterMap Output.written
    | _ => []

def executedBy (effects : List Effect) : List DiskCommand :=
  effects.filterMap fun
    | .executed cmd => some cmd
    | _ => none

def asked (trace : Run) : List (BlockRange × Bytes) :=
  trace.reverse.flatMap fun e => askedBy e.outputs

def executed (trace : Run) : List DiskCommand := trace.reverse.flatMap fun e => executedBy e.outputs

def Flushed (cmds : List DiskCommand) : Prop :=
  ∃ before after, cmds = before ++ .flush :: after ∧ ∀ cmd ∈ after, cmd.reads = true

theorem asked_cons (e : Event SwarmIo (Move × Entropy) Effect) (trace : Run) :
    asked (e :: trace) = asked trace ++ askedBy e.outputs := by
  simp [asked]

theorem executed_cons (e : Event SwarmIo (Move × Entropy) Effect) (trace : Run) :
    executed (e :: trace) = executed trace ++ executedBy e.outputs := by
  simp [executed]

theorem Flushed.append {cmds later : List DiskCommand} (h : Flushed cmds)
    (hlater : ∀ cmd ∈ later, cmd.reads = true) : Flushed (cmds ++ later) := by
  obtain ⟨before, after, rfl, hreads⟩ := h
  refine ⟨before, after ++ later, by simp, fun cmd hcmd => ?_⟩
  exact (List.mem_append.mp hcmd).elim (hreads cmd) (hlater cmd)

theorem writes_nil {cmds : List DiskCommand} (h : ∀ cmd ∈ cmds, cmd.reads = true) :
    cmds.filter DiskCommand.writes = [] := by
  refine List.filter_eq_nil_iff.mpr fun cmd hcmd => ?_
  have hreads := h cmd hcmd
  cases cmd with
  | read => simp [DiskCommand.writes]
  | write | flush => contradiction

theorem reads_push {cmds : List DiskCommand} (h : ∀ cmd ∈ cmds, cmd.reads = true)
    (offset len task : Nat) : ∀ cmd ∈ cmds ++ [.read offset len task], cmd.reads = true := by
  intro cmd hcmd
  rcases List.mem_append.mp hcmd with hold | hnew
  · exact h cmd hold
  · rw [List.mem_singleton.mp hnew]
    rfl

structure Core.Settled (c : Core) : Prop where
  complete : c.swarm.pieces.isComplete = true
  queue : ∀ cmd ∈ c.queue, cmd.reads = true
  outputs : ∀ o ∈ c.outputs, o.stores = false

inductive Core.Stage (trace : Run) (c : Core) : Prop
  | pending : Pending c.outputs → Stage trace c
  | flushing (before after : List DiskCommand) : c.phase = .flushing →
      c.queue = before ++ .flush :: after → (∀ cmd ∈ after, cmd.reads = true) →
      (∀ o ∈ c.outputs, o.stores = false) → Stage trace c
  | settled : c.Settled → (asked trace ≠ [] → Flushed (executed trace)) → Stage trace c

structure Core.Live (trace : Run) (c : Core) : Prop where
  running : c.running = true
  paid : (asked trace).map (fun w => c.pieceStore.write w.1 w.2) =
    ((executed trace ++ c.queue).filter DiskCommand.writes).map .ok ++
      (c.outputs.filterMap Output.written).map fun w => c.pieceStore.write w.1 w.2
  stage : c.swarm.pieces.isComplete = true → c.Stage trace

structure Core.Doomed (c : Core) : Prop where
  stopped : c.running = false
  unfinished : c.swarm.pieces.isComplete = true → .completed ∈ c.outputs

def Core.Barred (trace : Run) (c : Core) : Prop :=
  c.phase.over = true ∨ c.Doomed ∨ c.Live trace

variable {sha1 : Sha1} {clientId : PeerId} {m : Metainfo} {io : SwarmIo} {i : Move × Entropy}
  {c : Core} {effects : List Effect} {trace : Run}

theorem Course.settled {h : Swarm.Trace} (hcourse : Course sha1 io i c effects)
    (hist : History (Swarm.step sha1) (Swarm.Started clientId m) h io.swarm)
    (hs : io.core.Settled) : c.Settled := by
  have hqueue : ∀ cmd ∈ io.worker.queue, cmd.reads = true := hs.queue
  have houtputs : ∀ o ∈ io.outputs, o.stores = false := hs.outputs
  have hrest : ∀ {o rest}, io.outputs = o :: rest → ∀ o' ∈ rest, o'.stores = false :=
    fun hout o' ho' => houtputs o' (hout ▸ List.mem_cons_of_mem _ ho')
  have htail : ∀ {cmd queue}, io.worker.queue = cmd :: queue → ∀ cmd' ∈ queue, cmd'.reads = true :=
    fun heq cmd' hcmd' => hqueue cmd' (heq ▸ List.mem_cons_of_mem _ hcmd')
  cases hcourse with
  | stop result outputs hsuffix =>
    exact ⟨hs.complete, hqueue, fun o ho => houtputs o (hsuffix.subset ho)⟩
  | input input _ houtside =>
    obtain ⟨hcomplete, hstill⟩ := Swarm.step_complete hist (input, i.2)
      (Input.not_local_of_outside houtside) hs.complete
    exact ⟨hcomplete, hqueue, hstill⟩
  | complete _ _ _ input _ _ _ _ _ hinput =>
    obtain ⟨hcomplete, hstill⟩ := Swarm.step_complete hist (input, i.2)
      (by simp [hinput]) hs.complete
    exact ⟨hcomplete, hqueue, hstill⟩
  | disconnect x rest _ hout =>
    obtain ⟨hcomplete, hstill⟩ := Swarm.step_complete hist (.peerDisconnected x, i.2) (by simp)
      hs.complete
    refine ⟨hcomplete, hqueue, fun o ho => ?_⟩
    exact (List.mem_append.mp ho).elim (hstill o) (hrest hout o)
  | write range data rest _ _ hout =>
    have hfalse := houtputs (.writePiece range data) (by simp [hout])
    contradiction
  | flush rest _ hout =>
    have hfalse := houtputs .completed (by simp [hout])
    contradiction
  | opened _ _ _ _ _ hout => exact ⟨hs.complete, hqueue, hrest hout⟩
  | cancel _ _ _ hout => exact ⟨hs.complete, hqueue, hrest hout⟩
  | pass out rest failed _ _ hout =>
    refine ⟨hs.complete, hqueue, fun o ho => ?_⟩
    rcases List.mem_append.mp ho with hfailed | hold
    · obtain ⟨x, -, rfl⟩ := List.mem_map.mp hfailed
      rfl
    · exact hrest hout o hold
  | send offset len task => exact ⟨hs.complete, reads_push hqueue offset len task, houtputs⟩
  | serve _ _ _ _ _ heq => exact ⟨hs.complete, htail heq, houtputs⟩
  | store _ _ _ _ heq => exact ⟨hs.complete, htail heq, houtputs⟩
  | flushed _ _ heq => exact ⟨hs.complete, htail heq, houtputs⟩
  | broken => exact ⟨hs.complete, by simp, houtputs⟩
  | failed => exact ⟨hs.complete, by simp, houtputs⟩
  | idle | publish => exact ⟨hs.complete, hqueue, houtputs⟩

theorem Course.doomed {h : Swarm.Trace} (hcourse : Course sha1 io i c effects)
    (hist : History (Swarm.step sha1) (Swarm.Started clientId m) h io.swarm)
    (hidle : Idle io) (hd : io.core.Doomed) : c.phase.over = true ∨ c.Doomed := by
  have hstopped : io.worker.running = false := hd.stopped
  have hunfinished : io.swarm.pieces.isComplete = true → .completed ∈ io.outputs := hd.unfinished
  have hopen : io.phase = .selecting → io.swarm.pieces.isComplete ≠ true := by
    intro hphase hcomplete
    have hin := hunfinished hcomplete
    rw [hidle hphase] at hin
    contradiction
  have hkept : ∀ {o rest}, io.outputs = o :: rest → o ≠ .completed →
      io.swarm.pieces.isComplete = true → .completed ∈ rest := by
    intro o rest hout ho hcomplete
    have hin := hunfinished hcomplete
    rw [hout, List.mem_cons] at hin
    exact hin.resolve_left (Ne.symm ho)
  cases hcourse with
  | stop | failed => exact .inl rfl
  | input input hphase houtside =>
    refine .inr ⟨hstopped, fun hcomplete => ?_⟩
    exact (Swarm.step_unfinished hist (input, i.2) (Input.not_local_of_outside houtside)
      hcomplete).resolve_left (hopen hphase)
  | complete _ _ _ input hphase _ _ _ _ hinput =>
    refine .inr ⟨hstopped, fun hcomplete => ?_⟩
    exact (Swarm.step_unfinished hist (input, i.2) (by simp [hinput]) hcomplete).resolve_left
      (hopen hphase)
  | disconnect x rest _ hout =>
    refine .inr ⟨hstopped, fun hcomplete => List.mem_append.mpr ?_⟩
    rcases Swarm.step_unfinished hist (.peerDisconnected x, i.2) (by simp) hcomplete with
      hold | hnew
    · exact .inr (hkept hout (by simp) hold)
    · exact .inl hnew
  | write _ _ _ _ _ _ hrunning =>
    rw [hstopped] at hrunning
    contradiction
  | flush _ _ _ hrunning =>
    rw [hstopped] at hrunning
    contradiction
  | opened _ _ _ _ _ hout => exact .inr ⟨hstopped, hkept hout (by simp)⟩
  | cancel _ _ _ hout => exact .inr ⟨hstopped, hkept hout (by simp)⟩
  | pass out rest failed _ _ hout hpassing =>
    refine .inr ⟨hstopped, fun hcomplete => List.mem_append.mpr (.inr (hkept hout ?_ hcomplete))⟩
    rintro rfl
    contradiction
  | broken => exact .inr ⟨rfl, hunfinished⟩
  | idle | publish | send | serve | store | flushed => exact .inr ⟨hstopped, hunfinished⟩

namespace Core

theorem Stage.later {e : Event SwarmIo (Move × Entropy) Effect} (h : c.Stage trace)
    (hasked : askedBy e.outputs = []) (hreads : ∀ cmd ∈ executedBy e.outputs, cmd.reads = true) :
    c.Stage (e :: trace) := by
  cases h with
  | pending hpending => exact .pending hpending
  | flushing before after hphase hqueue hafter hstill =>
    exact .flushing before after hphase hqueue hafter hstill
  | settled hsettled hflushed =>
    refine .settled hsettled fun hne => ?_
    rw [asked_cons, hasked, List.append_nil] at hne
    rw [executed_cons]
    exact (hflushed hne).append hreads

theorem Stage.rested (h : c.Stage trace) (hphase : c.phase ≠ .flushing) (hnil : c.outputs = []) :
    c.Settled ∧ (asked trace ≠ [] → Flushed (executed trace)) := by
  cases h with
  | pending hpending =>
    have hin := hpending.mem
    rw [hnil] at hin
    contradiction
  | flushing _ _ hflushing => exact absurd hflushing hphase
  | settled hsettled hflushed => exact ⟨hsettled, hflushed⟩

theorem Live.later {e : Event SwarmIo (Move × Entropy) Effect} (h : c.Live trace)
    (hasked : askedBy e.outputs = []) (hreads : ∀ cmd ∈ executedBy e.outputs, cmd.reads = true) :
    c.Live (e :: trace) := by
  refine ⟨h.running, ?_, fun hcomplete => (h.stage hcomplete).later hasked hreads⟩
  have hpaid := h.paid
  rw [List.filter_append] at hpaid
  rw [asked_cons, hasked, List.append_nil, executed_cons, List.filter_append, List.filter_append,
    writes_nil hreads, List.append_nil]
  exact hpaid

theorem Live.pop (h : io.core.Live trace) (hphase : io.phase = .handling) {o : Output}
    {rest : List Output} (hout : io.outputs = o :: rest) (ho : o.stores = false)
    {front : List Output} (hfront : ∀ o ∈ front, o.stores = false) {swarm : Swarm}
    (hback : swarm.pieces.isComplete = true → io.swarm.pieces.isComplete = true)
    (readHandles : HashMap UploadReadId Nat) :
    Live trace { io.core with swarm, outputs := front ++ rest, readHandles } := by
  refine ⟨h.running, ?_, fun hcomplete => ?_⟩
  · have hpaid := h.paid
    have hhead : o.written = none := by
      cases o <;> first | rfl | contradiction
    simp only [core, hout, List.filterMap_cons, hhead] at hpaid
    simpa [core, written_nil hfront] using hpaid
  · cases h.stage (hback hcomplete) with
    | pending hpending =>
      have hpending' : Pending (o :: rest) := hout ▸ hpending
      rcases hpending'.tail with ⟨rfl, -⟩ | ⟨-, hrest⟩
      · contradiction
      · exact .pending (hrest.push hfront)
    | flushing before after hflushing => exact absurd hflushing (by simp [core, hphase])
    | settled hsettled hflushed =>
      refine .settled ⟨hcomplete, hsettled.queue, fun o' ho' => ?_⟩ hflushed
      have hstill : ∀ o ∈ io.outputs, o.stores = false := hsettled.outputs
      rcases List.mem_append.mp ho' with hnew | hold
      · exact hfront o' hnew
      · exact hstill o' (hout ▸ List.mem_cons_of_mem _ hold)

theorem Live.absorb {h : Swarm.Trace} (hlive : io.core.Live trace)
    (hist : History (Swarm.step sha1) (Swarm.Started clientId m) h io.swarm)
    (hphase : io.phase = .selecting) (hnil : io.outputs = []) (input : Input)
    (hlocal : ∀ j data, input ≠ .localPiece j data) (readHandles : HashMap UploadReadId Nat) :
    Live (⟨io, i, [.stepped input (io.swarm.step sha1 (input, i.2)).2]⟩ :: trace)
      { io.core with
        swarm := (io.swarm.step sha1 (input, i.2)).1
        outputs := (io.swarm.step sha1 (input, i.2)).2
        phase := .handling
        readHandles } := by
  refine ⟨hlive.running, ?_, fun hcomplete => ?_⟩
  · have hpaid := hlive.paid
    simp only [core, hnil, List.filterMap_nil, List.map_nil, List.append_nil] at hpaid
    rw [asked_cons, executed_cons, List.map_append]
    simp [core, askedBy, executedBy, hpaid]
  · rcases Swarm.step_barrier hist (input, i.2) hlocal with ⟨hstill, hback⟩ | ⟨-, hpending⟩
    · obtain ⟨hsettled, hflushed⟩ :=
        (hlive.stage (hback hcomplete)).rested (by simp [core, hphase]) hnil
      refine .settled ⟨hcomplete, hsettled.queue, hstill⟩ fun hne => ?_
      rw [executed_cons]
      refine (hflushed ?_).append (by simp [executedBy])
      simpa [asked_cons, askedBy, written_nil hstill] using hne
    · exact .pending (hpending hcomplete)

theorem Live.write (h : io.core.Live trace) {range : BlockRange} {data : Bytes}
    {rest : List Output} {cmd : DiskCommand} (hout : io.outputs = .writePiece range data :: rest)
    (hwrite : io.pieceStore.write range data = .ok cmd) :
    Live trace { io.core with outputs := rest, queue := io.worker.queue ++ [cmd] } := by
  refine ⟨h.running, ?_, fun hcomplete => ?_⟩
  · have hwrites : cmd.writes = true := by
      unfold DiskStorage.write at hwrite
      split at hwrite
      · contradiction
      · cases hoffset : io.pieceStore.storageOffset range with
        | error e => simp [hoffset, Except.map] at hwrite
        | ok offset =>
          simp only [hoffset, Except.map, Except.ok.injEq] at hwrite
          exact hwrite ▸ rfl
    have hpaid := h.paid
    simp only [core, hout, List.filterMap_cons, Output.written, List.map_cons, hwrite] at hpaid
    simpa [core, hwrites] using hpaid
  · cases h.stage hcomplete with
    | pending hpending =>
      have hpending' : Pending (.writePiece range data :: rest) := hout ▸ hpending
      rcases hpending'.tail with ⟨heq, -⟩ | ⟨-, hrest⟩
      · contradiction
      · exact .pending hrest
    | flushing _ _ _ _ _ hstill =>
      have hfalse := hstill (.writePiece range data) (by simp [core, hout])
      contradiction
    | settled hsettled =>
      have hfalse := hsettled.outputs (.writePiece range data) (by simp [core, hout])
      contradiction

theorem Live.flush (h : io.core.Live trace) {rest : List Output}
    (hout : io.outputs = .completed :: rest) :
    Live trace { io.core with
      outputs := rest
      queue := io.worker.queue ++ [.flush]
      phase := .flushing } := by
  refine ⟨h.running, ?_, fun hcomplete => ?_⟩
  · have hpaid := h.paid
    simp only [core, hout, List.filterMap_cons, Output.written] at hpaid
    simpa [core, DiskCommand.writes] using hpaid
  · cases h.stage hcomplete with
    | pending hpending =>
      have hpending' : Pending (.completed :: rest) := hout ▸ hpending
      rcases hpending'.tail with ⟨-, hstill⟩ | ⟨hne, -⟩
      · exact .flushing io.worker.queue [] rfl rfl (by simp) hstill
      · contradiction
    | flushing _ _ _ _ _ hstill =>
      have hfalse := hstill .completed (by simp [core, hout])
      contradiction
    | settled hsettled =>
      have hfalse := hsettled.outputs .completed (by simp [core, hout])
      contradiction

theorem Live.send (h : io.core.Live trace) (offset len task : Nat) :
    Live trace { io.core with queue := io.worker.queue ++ [.read offset len task] } := by
  refine ⟨h.running, ?_, fun hcomplete => ?_⟩
  · have hpaid := h.paid
    simpa [core, DiskCommand.writes] using hpaid
  · cases h.stage hcomplete with
    | pending hpending => exact .pending hpending
    | flushing before after hphase hqueue hafter hstill =>
      have heq : io.worker.queue = before ++ .flush :: after := hqueue
      exact .flushing before (after ++ [.read offset len task]) hphase (by simp [heq])
        (reads_push hafter offset len task) hstill
    | settled hsettled hflushed =>
      exact .settled ⟨hcomplete, reads_push hsettled.queue offset len task, hsettled.outputs⟩
        hflushed

theorem Live.take (h : io.core.Live trace) {cmd : DiskCommand} {queue : List DiskCommand}
    (hqueue : io.worker.queue = cmd :: queue) (hcmd : cmd ≠ .flush) {effects : List Effect}
    (hasked : askedBy effects = []) (hexecuted : executedBy effects = [cmd] ∨
      cmd.reads = true ∧ ∀ cmd' ∈ executedBy effects, cmd'.reads = true) :
    Live (⟨io, i, effects⟩ :: trace) { io.core with queue } := by
  refine ⟨h.running, ?_, fun hcomplete => ?_⟩
  · have hpaid := h.paid
    rw [asked_cons, executed_cons, hasked, List.append_nil]
    simp only [core, hqueue] at hpaid
    rcases hexecuted with hone | ⟨hreads, hall⟩
    · simpa [core, hone] using hpaid
    · have hwrites : cmd.writes = false := by
        cases cmd <;> first | rfl | contradiction
      rw [List.filter_append, List.filter_append, writes_nil hall, List.append_nil]
      simpa [core, hwrites] using hpaid
  · cases h.stage hcomplete with
    | pending hpending => exact .pending hpending
    | flushing before after hphase heq hafter hstill =>
      have heq' : cmd :: queue = before ++ .flush :: after := hqueue ▸ heq
      cases before with
      | nil =>
        rw [List.nil_append, List.cons.injEq] at heq'
        exact absurd heq'.1 hcmd
      | cons b before =>
        rw [List.cons_append, List.cons.injEq] at heq'
        exact .flushing before after hphase heq'.2 hafter hstill
    | settled hsettled hflushed =>
      have hreads : ∀ cmd' ∈ cmd :: queue, cmd'.reads = true := hqueue ▸ hsettled.queue
      refine Stage.later (e := ⟨io, i, effects⟩) (.settled ⟨hcomplete, ?_, hsettled.outputs⟩
        hflushed) hasked fun cmd' hcmd' => ?_
      · exact fun cmd' hcmd' => hreads cmd' (List.mem_cons_of_mem _ hcmd')
      · rcases hexecuted with hone | ⟨-, hall⟩
        · rw [hone, List.mem_singleton] at hcmd'
          exact hreads cmd' (hcmd' ▸ List.mem_cons_self ..)
        · exact hall cmd' hcmd'

theorem Live.flushed (h : io.core.Live trace) (ha : io.core.Awaited) {queue : List DiskCommand}
    (hqueue : io.worker.queue = .flush :: queue) :
    Live (⟨io, i, [.executed .flush]⟩ :: trace) { io.core with queue, phase := .handling } := by
  refine ⟨h.running, ?_, fun hcomplete => ?_⟩
  · have hpaid := h.paid
    rw [asked_cons, executed_cons]
    simp only [core, hqueue] at hpaid
    simpa [core, askedBy, executedBy] using hpaid
  · cases h.stage hcomplete with
    | pending hpending => exact .pending hpending
    | flushing before after hphase heq hafter hstill =>
      have heq' : .flush :: queue = before ++ .flush :: after := hqueue ▸ heq
      cases before with
      | nil =>
        rw [List.nil_append, List.cons.injEq] at heq'
        refine .settled ⟨hcomplete, heq'.2 ▸ hafter, hstill⟩ fun _ => ?_
        rw [executed_cons]
        exact ⟨executed trace, [], rfl, by simp⟩
      | cons b before =>
        rw [List.cons_append, List.cons.injEq] at heq'
        have honce : io.worker.queue.count .flush ≤ 1 := ha.once
        rw [hqueue, heq'.2, List.count_cons_self, List.count_append, List.count_cons_self] at honce
        omega
    | settled hsettled =>
      have hfalse := hsettled.queue .flush (by simp [core, hqueue])
      contradiction

theorem Live.broken (h : io.core.Live trace) {cmd : DiskCommand} {queue : List DiskCommand}
    (hqueue : io.worker.queue = cmd :: queue) (hcmd : cmd.reads = false)
    (hphase : io.phase ≠ .flushing) :
    Doomed { io.core with queue := [], running := false } := by
  refine ⟨rfl, fun hcomplete => ?_⟩
  cases h.stage hcomplete with
  | pending hpending => exact hpending.mem
  | flushing _ _ hflushing => exact absurd hflushing hphase
  | settled hsettled =>
    have hreads := hsettled.queue cmd (by simp [core, hqueue])
    rw [hcmd] at hreads
    contradiction

end Core

end SwarmIo

end Tortue
