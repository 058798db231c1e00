import Tortue.Adapters.Restore
import Tortue.Adapters.Turns

namespace Tortue

open Collections

def Input.outside : Input → Bool
  | .localPiece _ _ | .uploadReadCompleted _ _ _ => false
  | _ => true

theorem Input.not_local_of_outside {input : Input} (h : input.outside = true) (j : Nat)
    (data : Bytes) : input ≠ .localPiece j data := by
  rintro rfl
  contradiction

def Output.passing : Output → Bool
  | .connectPeer _ | .sendToPeer _ _ | .broadcast _ => true
  | _ => false

def DiskCommand.reads : DiskCommand → Bool
  | .read _ _ _ => true
  | _ => false

namespace SwarmIo

abbrev Run := List (Event SwarmIo (Move × Entropy) Effect)

def Phase.over : Phase → Bool
  | .finished _ => true
  | _ => false

structure Core where
  swarm : Swarm
  outputs : List Output
  phase : Phase
  readHandles : HashMap UploadReadId Nat
  pieceStore : DiskStorage
  queue : List DiskCommand
  running : Bool

def core (io : SwarmIo) : Core :=
  ⟨io.swarm, io.outputs, io.phase, io.readHandles, io.pieceStore, io.worker.queue,
    io.worker.running⟩

def Core.Drained (c : Core) : Prop := c.running = false → c.queue = []

structure Core.Awaited (c : Core) : Prop where
  flushing : .flush ∈ c.queue → c.phase = .flushing
  once : c.queue.count .flush ≤ 1

inductive Failing (io : SwarmIo) (move : Move) (e : IoError) : Prop
  | read (k : Nat) (t : ReadTask) : io.reads.get k = some t → t.state = .finished (.error e) →
      Failing io move e
  | write (range : BlockRange) (data : Bytes) (rest : List Output) :
      io.outputs = .writePiece range data :: rest → io.pieceStore.write range data = .error e →
      Failing io move e
  | other : e.kind ≠ .invalidInput → Failing io move e
  | fault (fault : DiskStorage.Fault) : move = .runWorker (some fault) → fault.error = e →
      Failing io move e

def Caused (io : SwarmIo) (move : Move) (result : Except Error Unit) : Prop :=
  ∀ e, result = .error (.storage e) → Failing io move e

inductive Course (sha1 : Sha1) (io : SwarmIo) (i : Move × Entropy) : Core → List Effect → Prop
  | idle : Course sha1 io i io.core []
  | stop (result : Except Error Unit) (outputs : List Output) : outputs <:+ io.outputs →
      (io.phase = .flushing → io.worker.queue = []) → Caused io i.1 result →
      Course sha1 io i
        { io.core with outputs, phase := .finished result, readHandles := .empty } []
  | input (input : Input) : io.phase = .selecting → input.outside = true →
      Course sha1 io i
        { io.core with
          swarm := (io.swarm.step sha1 (input, i.2)).1
          outputs := (io.swarm.step sha1 (input, i.2)).2
          phase := .handling }
        [.stepped input (io.swarm.step sha1 (input, i.2)).2]
  | complete (task : Nat) (read : ReadTask) (data : Bytes) (input : Input) :
      io.phase = .selecting → io.reads.get task = some read →
      read.state = .finished (.ok data) → data.length = read.range.len →
      io.readHandles.contains read.id = true →
      input = .uploadReadCompleted read.id read.range data →
      Course sha1 io i
        { io.core with
          swarm := (io.swarm.step sha1 (input, i.2)).1
          outputs := (io.swarm.step sha1 (input, i.2)).2
          phase := .handling
          readHandles := io.readHandles.remove read.id }
        [.stepped input (io.swarm.step sha1 (input, i.2)).2]
  | disconnect (x : SocketAddr) (rest : List Output) : io.phase = .handling →
      io.outputs = .disconnectPeer x :: rest →
      Course sha1 io i
        { io.core with
          swarm := (io.swarm.step sha1 (.peerDisconnected x, i.2)).1
          outputs := (io.swarm.step sha1 (.peerDisconnected x, i.2)).2 ++ rest }
        [.stepped (.peerDisconnected x) (io.swarm.step sha1 (.peerDisconnected x, i.2)).2]
  | publish : io.phase = .handling → io.outputs = [] →
      Course sha1 io i { io.core with phase := .selecting } [io.publish]
  | write (range : BlockRange) (data : Bytes) (rest : List Output) (cmd : DiskCommand) :
      io.phase = .handling → io.outputs = .writePiece range data :: rest →
      io.worker.running = true → io.pieceStore.write range data = .ok cmd →
      Course sha1 io i { io.core with outputs := rest, queue := io.worker.queue ++ [cmd] } []
  | flush (rest : List Output) : io.phase = .handling → io.outputs = .completed :: rest →
      io.worker.running = true →
      Course sha1 io i
        { io.core with
          outputs := rest
          queue := io.worker.queue ++ [.flush]
          phase := .flushing } []
  | opened (id : UploadReadId) (range : BlockRange) (rest : List Output) :
      (∃ accepts, i.1 = .handle accepts) → io.phase = .handling →
      io.outputs = .readForUpload id range :: rest →
      Course sha1 io i
        { io.core with
          outputs := rest
          readHandles := io.readHandles.insert id io.nextTask } []
  | cancel (id : UploadReadId) (rest : List Output) : io.phase = .handling →
      io.outputs = .cancelUploadRead id :: rest →
      Course sha1 io i
        { io.core with outputs := rest, readHandles := io.readHandles.remove id } []
  | pass (out : Output) (rest : List Output) (failed : List SocketAddr) (effects : List Effect) :
      io.phase = .handling → io.outputs = out :: rest → out.passing = true →
      (∀ f ∈ effects, ∃ k x m, f = .sent k x m) →
      Course sha1 io i { io.core with outputs := failed.map .disconnectPeer ++ rest } effects
  | send (offset len task : Nat) : io.worker.running = true →
      Course sha1 io i
        { io.core with queue := io.worker.queue ++ [.read offset len task] } []
  | serve (offset len task : Nat) (queue : List DiskCommand) (effects : List Effect) :
      io.worker.queue = .read offset len task :: queue →
      (∀ f ∈ effects, f = .executed (.read offset len task)) →
      Course sha1 io i { io.core with queue } effects
  | store (offset : Nat) (data : Bytes) (queue : List DiskCommand) : i.1 = .runWorker none →
      io.worker.queue = .write offset data :: queue →
      Course sha1 io i { io.core with queue } [.executed (.write offset data)]
  | flushed (queue : List DiskCommand) : i.1 = .runWorker none →
      io.worker.queue = .flush :: queue →
      Course sha1 io i { io.core with queue, phase := .handling } [.executed .flush]
  | broken (fault : DiskStorage.Fault) (cmd : DiskCommand) (queue : List DiskCommand) :
      i.1 = .runWorker (some fault) → io.worker.queue = cmd :: queue → cmd.reads = false →
      cmd ≠ .flush → io.phase ≠ .flushing →
      Course sha1 io i { io.core with queue := [], running := false } []
  | failed (fault : DiskStorage.Fault) (cmd : DiskCommand) (queue : List DiskCommand)
      (result : Except Error Unit) :
      i.1 = .runWorker (some fault) → io.worker.queue = cmd :: queue → cmd.reads = false →
      Caused io i.1 result →
      Course sha1 io i
        { io.core with
          phase := .finished result
          readHandles := .empty
          queue := []
          running := false } []

variable {sha1 : Sha1} {env : Entropy} {io : SwarmIo}

theorem caused_other {move : Move} {e : IoError} (h : e.kind ≠ .invalidInput) :
    Caused io move (.error (.storage e)) := by
  intro e' he
  simp only [Except.error.injEq, Error.storage.injEq] at he
  exact he ▸ .other h

theorem course_finish (hphase : io.phase ≠ .flushing) {move : Move} {result : Except Error Unit}
    (h : Caused io move result) : Course sha1 io (move, env) (io.finish result).core [] :=
  .stop result io.outputs (List.suffix_refl _) (fun hflushing => absurd hflushing hphase) h

theorem course_joinNext (hphase : io.phase = .selecting) (task : Nat) :
    Course sha1 io (.joinNext task, env) (io.joinNext sha1 env task).1.core
      (io.joinNext sha1 env task).2 := by
  unfold joinNext
  split
  · exact .idle
  · next read hget =>
    split
    · exact .idle
    · exact .idle
    · exact .idle
    · next result hstate =>
      dsimp only
      split
      · exact .idle
      · next hopen =>
        rw [Bool.not_eq_true, Bool.not_eq_false'] at hopen
        split
        · next e =>
          refine course_finish (by simp [hphase]) fun e' he => ?_
          simp only [Except.error.injEq, Error.storage.injEq] at he
          exact .read task read hget (he ▸ hstate)
        · next data =>
          split
          · exact course_finish (by simp [hphase]) (caused_other (by decide))
          · next hlen =>
            exact .complete task read data _ hphase hget hstate (not_not.mp hlen) hopen rfl

theorem course_onPeerEvent (hphase : io.phase = .selecting) {move : Move} :
    Course sha1 io (move, env) (io.onPeerEvent sha1 env).1.core (io.onPeerEvent sha1 env).2 := by
  unfold onPeerEvent
  split
  · exact .idle
  · next k x event rest hevents =>
    cases event with
    | disconnected => exact .input (.peerDisconnected x) hphase rfl
    | connected id d e => exact .input (.peerConnected id d x e) hphase rfl
    | messageReceived message => exact .input (.messageReceived x message) hphase rfl

theorem course_select (hphase : io.phase = .selecting) (move : Move) :
    Course sha1 io (move, env) (io.select sha1 env move).1.core (io.select sha1 env move).2 := by
  cases move with
  | command cmd =>
    cases cmd with
    | none => exact course_finish (by simp [hphase]) fun e he => by contradiction
    | some cmd => exact .input (.swarmCommand cmd) hphase rfl
  | peers addrs =>
    cases addrs with
    | none => exact course_finish (by simp [hphase]) fun e he => by simp at he
    | some addrs => exact .input (.peersDiscovered addrs) hphase rfl
  | inbound peer =>
    cases peer with
    | none => exact .idle
    | some x =>
      simp only [select, acceptInbound]
      split
      · split
        · exact .idle
        · exact .idle
      · exact .idle
  | peerEvent => exact course_onPeerEvent hphase
  | joinNext task => exact course_joinNext hphase task
  | tick t => exact .input (.tick t) hphase rfl
  | _ => exact .idle

theorem course_writePiece {move : Move} {range : BlockRange} {data : Bytes} {rest : List Output}
    (hphase : io.phase = .handling) (hout : io.outputs = .writePiece range data :: rest) :
    Course sha1 io (move, env) ({ io with outputs := rest }.writePiece range data).core [] := by
  have hrest : rest <:+ io.outputs := hout ▸ List.suffix_cons ..
  have hbusy : io.phase = .flushing → io.worker.queue = [] := by simp [hphase]
  unfold writePiece
  split
  · next e hwrite =>
    refine .stop _ _ hrest hbusy fun e' he => ?_
    simp only [Except.error.injEq, Error.storage.injEq] at he
    exact .write range data rest hout (he ▸ hwrite)
  · next cmd hwrite =>
    split
    · next hrunning => exact .write range data rest cmd hphase hout hrunning hwrite
    · exact .stop _ _ hrest hbusy (caused_other (by decide))

theorem course_flush {move : Move} {rest : List Output} (hphase : io.phase = .handling)
    (hout : io.outputs = .completed :: rest) :
    Course sha1 io (move, env) { io with outputs := rest }.flush.core [] := by
  unfold flush
  split
  · next hrunning => exact .flush rest hphase hout hrunning
  · exact .stop _ _ (hout ▸ List.suffix_cons ..) (by simp [hphase]) (caused_other (by decide))

theorem course_cancelUploadRead {move : Move} {id : UploadReadId} {rest : List Output}
    (hphase : io.phase = .handling) (hout : io.outputs = .cancelUploadRead id :: rest) :
    Course sha1 io (move, env) ({ io with outputs := rest }.cancelUploadRead id).core [] := by
  have hcancel : Course sha1 io (move, env) _ [] := .cancel id rest hphase hout
  unfold cancelUploadRead
  split
  · next hnone =>
    rw [HashMap.remove_of_get_none hnone] at hcancel
    exact hcancel
  · exact hcancel

theorem course_handle (hphase : io.phase = .handling) (accepts : SocketAddr → Bool) :
    Course sha1 io (.handle accepts, env) (io.handle sha1 env accepts).1.core
      (io.handle sha1 env accepts).2 := by
  unfold handle
  split
  · next hout => exact .publish hphase hout
  · next out rest hout =>
    cases out with
    | connectPeer x =>
      simp only [handleOutput, spawnPeer]
      split
      · exact .pass _ rest [] [] hphase hout rfl (by simp)
      · exact .pass _ rest [] [] hphase hout rfl (by simp)
    | disconnectPeer x => exact .disconnect x rest hphase hout
    | sendToPeer x m =>
      simp only [handleOutput]
      split
      · next effect heffect =>
        obtain ⟨k, rfl, -⟩ := sendToPeer_some heffect
        exact .pass _ rest [] _ hphase hout rfl (by simp)
      · exact .pass _ rest [x] [] hphase hout rfl (by simp)
    | completed => exact course_flush hphase hout
    | writePiece range data => exact course_writePiece hphase hout
    | broadcast m =>
      refine .pass _ rest _ _ hphase hout rfl fun f hf => ?_
      obtain ⟨x, -, hsent⟩ := List.mem_filterMap.mp hf
      obtain ⟨k, rfl, -⟩ := sendToPeer_some hsent
      exact ⟨k, x, m, rfl⟩
    | readForUpload id range => exact .opened id range rest ⟨accepts, rfl⟩ hphase hout
    | cancelUploadRead id => exact course_cancelUploadRead hphase hout

theorem course_runRead {move : Move} (task : Nat) :
    Course sha1 io (move, env) (io.runRead task).core [] := by
  unfold runRead
  split
  · exact .idle
  · split
    · exact .idle
    · split
      · next hrunning => exact .send _ _ task hrunning
      · exact .idle
    · exact .idle

theorem course_dropRead {move : Move} (task : Nat) :
    Course sha1 io (move, env) (io.dropRead task).core [] := by
  unfold dropRead
  split
  · exact .idle
  · split
    · exact .idle
    · exact .idle
    · exact .idle

theorem readLoop_error {files : List OutputFile} {offset readEnd : Nat} {buffer : Bytes}
    {e : IoError} (h : DiskStorage.readLoop offset readEnd files buffer = .error e) :
    e.kind ≠ .invalidInput := by
  induction files generalizing buffer with
  | nil => contradiction
  | cons f files ih =>
    unfold DiskStorage.readLoop at h
    split at h
    · rw [Except.error.injEq] at h
      subst h
      decide
    · dsimp only at h
      split_ifs at h
      · exact ih h
      · exact ih h

theorem readFromFiles_error {files : List OutputFile} {offset len : Nat} {e : IoError}
    (h : DiskStorage.readFromFiles files offset len = .error e) : e.kind ≠ .invalidInput := by
  unfold DiskStorage.readFromFiles at h
  split at h
  · rw [Except.error.injEq] at h
    subst h
    decide
  · exact readLoop_error h

theorem dropReplies_cases (io : SwarmIo) :
    (io.phase = .flushing ∧ io.dropReplies.core =
      (io.finish (.error (.storage ReadTask.replyDropped))).core) ∨
    (io.phase ≠ .flushing ∧ io.dropReplies.core = io.core) := by
  unfold dropReplies
  dsimp only
  split
  · next hphase => exact .inl ⟨hphase, rfl⟩
  · next hphase => exact .inr ⟨hphase, rfl⟩

theorem course_stopped (hqueue : io.worker.queue = []) {move : Move} :
    Course sha1 io (move, env) io.dropReplies.core [] := by
  rcases dropReplies_cases io with ⟨-, hcore⟩ | ⟨-, hcore⟩
  · rw [hcore]
    exact .stop _ _ (List.suffix_refl _) (fun _ => hqueue) (caused_other (by decide))
  · rw [hcore]
    exact .idle

theorem course_runWorker (hdrained : io.core.Drained) (fault : Option DiskStorage.Fault) :
    Course sha1 io (.runWorker fault, env) (io.runWorker fault).1.core (io.runWorker fault).2 := by
  cases hqueue : io.worker.queue with
  | nil =>
    have hnext : io.worker.next fault io.replyClosed = (io.worker, none) := by
      unfold DiskStorage.Worker.next
      rw [hqueue]
    have heffects : (io.runWorker fault).2 = [] := by simp [runWorker, hqueue]
    rw [heffects]
    simp only [runWorker, hnext, receiveReply]
    split
    · exact .idle
    · exact course_stopped hqueue
  | cons cmd queue =>
    have hrunning : io.worker.running = true := by
      by_contra hstopped
      have hempty : io.worker.queue = [] := hdrained (by simpa [core] using hstopped)
      rw [hqueue] at hempty
      contradiction
    have hnext : io.worker.next fault io.replyClosed =
        DiskStorage.Worker.execute fault io.replyClosed { io.worker with queue } cmd := by
      unfold DiskStorage.Worker.next
      rw [hqueue]
    cases cmd with
    | read offset len task =>
      have hcore : (io.runWorker fault).1.core = { io.core with queue } := by
        simp only [runWorker, hnext, DiskStorage.Worker.execute]
        split <;> [skip; split] <;> simp [receiveReply, hrunning, core]
      rw [hcore]
      refine .serve offset len task queue _ hqueue fun f hf => ?_
      simp only [runWorker] at hf
      split at hf
      · contradiction
      · simpa [hqueue] using hf
    | write offset data =>
      cases fault with
      | none =>
        have hrun : Course sha1 io (.runWorker none, env) _ _ := .store offset data queue rfl hqueue
        simpa [runWorker, hnext, DiskStorage.Worker.execute, receiveReply, hrunning, core, hqueue]
          using hrun
      | some fault =>
        have hcore : (io.runWorker (some fault)).1.core =
            { io with worker := .stop fault.files }.dropReplies.core := by
          simp [runWorker, hnext, DiskStorage.Worker.execute, DiskStorage.Worker.stop, receiveReply]
        rw [hcore]
        rcases dropReplies_cases { io with worker := .stop fault.files } with
          ⟨-, hended⟩ | ⟨hphase, hkept⟩
        · rw [hended]
          exact .failed fault _ queue _ rfl hqueue rfl (caused_other (by decide))
        · rw [hkept]
          exact .broken fault _ queue rfl hqueue rfl (by simp) hphase
    | flush =>
      cases fault with
      | none =>
        have hrun : Course sha1 io (.runWorker none, env) _ _ := .flushed queue rfl hqueue
        simpa [runWorker, hnext, DiskStorage.Worker.execute, receiveReply, hrunning, core, hqueue]
          using hrun
      | some fault =>
        have hcore : (io.runWorker (some fault)).1.core =
            ({ io with worker := .stop fault.files }.finish
              (.error (.storage fault.error))).dropReplies.core := by
          simp [runWorker, hnext, DiskStorage.Worker.execute, DiskStorage.Worker.stop, receiveReply]
        have hended := (dropReplies_cases ({ io with worker := .stop fault.files }.finish
          (.error (.storage fault.error)))).resolve_left fun h => by
            have hphase := h.1
            contradiction
        rw [hcore, hended.2]
        refine .failed fault _ queue _ rfl hqueue rfl fun e he => ?_
        simp only [Except.error.injEq, Error.storage.injEq] at he
        exact .fault fault rfl he

theorem course_step (hdrained : io.core.Drained) (i : Move × Entropy) :
    Course sha1 io i (io.step sha1 i).1.core (io.step sha1 i).2 := by
  obtain ⟨move, env⟩ := i
  cases move with
  | session number move =>
    simp only [step, runSession]
    split
    · exact .idle
    · exact .idle
  | runRead task => exact course_runRead task
  | dropRead task => exact course_dropRead task
  | runWorker fault => exact course_runWorker hdrained fault
  | handle accepts =>
    simp only [step]
    split
    · next hphase => exact course_handle hphase accepts
    · exact .idle
  | _ =>
    simp only [step]
    split
    · next hphase => exact course_select hphase _
    · exact .idle

def swarmEvents (e : Event SwarmIo (Move × Entropy) Effect) :
    List (Event Swarm (Input × Entropy) Output) :=
  e.outputs.filterMap fun
    | .stepped input outputs => some ⟨e.before.swarm, (input, e.input.2), outputs⟩
    | _ => none

theorem swarmEvents_unstepped {i : Move × Entropy} {effects : List Effect}
    (h : ∀ input outputs, .stepped input outputs ∉ effects) :
    swarmEvents ⟨io, i, effects⟩ = [] := by
  refine List.filterMap_eq_nil_iff.mpr fun f hf => ?_
  cases f with
  | stepped input outputs => exact absurd hf (h input outputs)
  | _ => rfl

namespace Course

variable {i : Move × Entropy} {c : Core} {effects : List Effect}

theorem pieceStore (h : Course sha1 io i c effects) : c.pieceStore = io.pieceStore := by
  cases h <;> rfl

theorem outputs_mem (h : Course sha1 io i c effects) {o : Output} (ho : o ∈ c.outputs) :
    o ∈ io.outputs ∨ (∃ x, o = .disconnectPeer x) ∨
      ∃ input, o ∈ (io.swarm.step sha1 (input, i.2)).2 := by
  cases h with
  | stop result outputs hsuffix => exact .inl (hsuffix.subset ho)
  | input input => exact .inr (.inr ⟨input, ho⟩)
  | complete task read data input => exact .inr (.inr ⟨input, ho⟩)
  | disconnect x rest hphase hout =>
    rcases List.mem_append.mp ho with hnew | hrest
    · exact .inr (.inr ⟨_, hnew⟩)
    · exact .inl (hout ▸ List.mem_cons_of_mem _ hrest)
  | pass out rest failed _ hphase hout =>
    rcases List.mem_append.mp ho with hfailed | hrest
    · obtain ⟨x, -, rfl⟩ := List.mem_map.mp hfailed
      exact .inr (.inl ⟨x, rfl⟩)
    · exact .inl (hout ▸ List.mem_cons_of_mem _ hrest)
  | write _ _ _ _ _ hout => exact .inl (hout ▸ List.mem_cons_of_mem _ ho)
  | flush _ _ hout => exact .inl (hout ▸ List.mem_cons_of_mem _ ho)
  | opened _ _ _ _ _ hout => exact .inl (hout ▸ List.mem_cons_of_mem _ ho)
  | cancel _ _ _ hout => exact .inl (hout ▸ List.mem_cons_of_mem _ ho)
  | _ => exact .inl ho

theorem ended (h : Course sha1 io i c effects) {result : Except Error Unit}
    (hc : c.phase = .finished result) : io.phase = .finished result ∨ Caused io i.1 result := by
  cases h with
  | stop result' _ _ _ hcaused =>
    obtain rfl : result' = result := by simpa using hc
    exact .inr hcaused
  | failed _ _ _ result' _ _ _ hcaused =>
    obtain rfl : result' = result := by simpa using hc
    exact .inr hcaused
  | input | complete | publish | flush | flushed => contradiction
  | _ => exact .inl hc

theorem drained (h : Course sha1 io i c effects) (hdrained : io.core.Drained) : c.Drained := by
  intro hstopped
  cases h with
  | write _ _ _ _ _ _ hrunning => exact absurd hstopped (by simp [core, hrunning])
  | flush _ _ _ hrunning => exact absurd hstopped (by simp [core, hrunning])
  | send _ _ _ hrunning => exact absurd hstopped (by simp [core, hrunning])
  | serve _ _ _ _ _ hqueue => exact absurd (hdrained hstopped) (by simp [core, hqueue])
  | store _ _ _ _ hqueue => exact absurd (hdrained hstopped) (by simp [core, hqueue])
  | flushed _ _ hqueue => exact absurd (hdrained hstopped) (by simp [core, hqueue])
  | broken => rfl
  | failed => rfl
  | _ => exact hdrained hstopped

theorem awaited (h : Course sha1 io i c effects) (ha : io.core.Awaited) : c.Awaited := by
  have hflushing : .flush ∈ io.worker.queue → io.phase = .flushing := ha.flushing
  have honce : io.worker.queue.count .flush ≤ 1 := ha.once
  have hquiet : io.phase ≠ .flushing → .flush ∉ io.worker.queue := mt hflushing
  have htail : ∀ cmd queue, io.worker.queue = cmd :: queue →
      (.flush ∈ queue → io.phase = .flushing) ∧ queue.count .flush ≤ 1 := by
    intro cmd queue hqueue
    refine ⟨fun hin => hflushing (hqueue ▸ List.mem_cons_of_mem _ hin), ?_⟩
    rw [hqueue] at honce
    exact Nat.le_trans List.count_le_count_cons honce
  cases h with
  | stop result outputs hsuffix hqueue =>
    refine ⟨fun hin => ?_, honce⟩
    have hempty := hqueue (hflushing hin)
    simp [core, hempty] at hin
  | input input hphase => exact ⟨fun hin => absurd hin (hquiet (by simp [hphase])), honce⟩
  | complete task read data input hphase =>
    exact ⟨fun hin => absurd hin (hquiet (by simp [hphase])), honce⟩
  | publish hphase => exact ⟨fun hin => absurd hin (hquiet (by simp [hphase])), honce⟩
  | write range data rest cmd hphase hout hrunning hwrite =>
    have hcmd : cmd ≠ .flush := by
      rintro rfl
      unfold DiskStorage.write at hwrite
      split at hwrite
      · contradiction
      · cases hoffset : io.pieceStore.storageOffset range <;> simp [hoffset, Except.map] at hwrite
    refine ⟨fun hin => ?_, ?_⟩
    · rcases List.mem_append.mp hin with hold | hnew
      · exact hflushing hold
      · exact absurd (List.mem_singleton.mp hnew).symm hcmd
    · simpa [List.count_append, List.count_singleton, hcmd] using honce
  | flush rest hphase =>
    refine ⟨fun _ => rfl, ?_⟩
    simp [List.count_append, List.count_eq_zero.mpr (hquiet (by simp [hphase]))]
  | send offset len task =>
    refine ⟨fun hin => ?_, ?_⟩
    · rcases List.mem_append.mp hin with hold | hnew
      · exact hflushing hold
      · exact absurd (List.mem_singleton.mp hnew) (by simp)
    · simpa [List.count_append] using honce
  | serve offset len task queue _ hqueue => exact ⟨(htail _ _ hqueue).1, (htail _ _ hqueue).2⟩
  | store offset data queue _ hqueue => exact ⟨(htail _ _ hqueue).1, (htail _ _ hqueue).2⟩
  | flushed queue _ hqueue =>
    rw [hqueue, List.count_cons_self] at honce
    have hnone : queue.count .flush = 0 := by omega
    exact ⟨fun hin => absurd hin (List.count_eq_zero.mp hnone), by simp [hnone]⟩
  | broken => exact ⟨fun hin => absurd hin List.not_mem_nil, Nat.zero_le _⟩
  | failed => exact ⟨fun hin => absurd hin List.not_mem_nil, Nat.zero_le _⟩
  | _ => exact ⟨hflushing, honce⟩

theorem stays_over (h : Course sha1 io i c effects) (ha : io.core.Awaited)
    (hover : io.phase.over = true) : c.phase.over = true := by
  have hflush : .flush ∈ io.worker.queue → io.phase = .flushing := ha.flushing
  cases h with
  | stop => rfl
  | failed => rfl
  | input _ hphase => simp [hphase, Phase.over] at hover
  | complete _ _ _ _ hphase => simp [hphase, Phase.over] at hover
  | publish hphase => simp [hphase, Phase.over] at hover
  | flush _ hphase => simp [hphase, Phase.over] at hover
  | flushed queue hmove hqueue =>
    rw [hflush (hqueue ▸ List.mem_cons_self ..)] at hover
    contradiction
  | _ => exact hover

theorem projects (h : Course sha1 io i c effects) :
    (c.swarm = io.swarm ∧ swarmEvents ⟨io, i, effects⟩ = []) ∨
      ∃ input, (∀ j data, input ≠ .localPiece j data) ∧
        c.swarm = (io.swarm.step sha1 (input, i.2)).1 ∧
        swarmEvents ⟨io, i, effects⟩ =
          [⟨io.swarm, (input, i.2), (io.swarm.step sha1 (input, i.2)).2⟩] := by
  cases h with
  | input input hphase houtside =>
    exact .inr ⟨input, Input.not_local_of_outside houtside, rfl, rfl⟩
  | complete task read data input hphase hget hstate hlen hopen hinput =>
    refine .inr ⟨input, fun j data heq => ?_, rfl, rfl⟩
    rw [hinput] at heq
    contradiction
  | disconnect x rest => exact .inr ⟨.peerDisconnected x, by simp, rfl, rfl⟩
  | pass out rest failed _ hphase hout hpassing hsent =>
    refine .inl ⟨rfl, swarmEvents_unstepped fun input outputs hin => ?_⟩
    obtain ⟨k, x, m, heq⟩ := hsent _ hin
    contradiction
  | serve offset len task queue _ hqueue heffects =>
    refine .inl ⟨rfl, swarmEvents_unstepped fun input outputs hin => ?_⟩
    have heq := heffects _ hin
    contradiction
  | _ => exact .inl ⟨rfl, rfl⟩

end Course

section

variable {clientId : PeerId} {m : Metainfo}

theorem started_idle (h : Started sha1 clientId m io) :
    io.outputs = [] ∧ io.phase = .selecting ∧ io.readHandles = .empty ∧ io.reads = .empty ∧
      io.worker.queue = [] ∧ io.worker.running = true := by
  obtain ⟨files, fresh, env, hlaid, hnew, hall, swarm, rfl, hsteps⟩ := started_steps h
  unfold SwarmIo.new at hnew
  obtain ⟨swarm', hswarm, hfresh⟩ := Option.bind_eq_some_iff.mp hnew
  rw [Option.pure_def, Option.some.injEq] at hfresh
  subst hfresh
  exact ⟨rfl, rfl, rfl, rfl, rfl, rfl⟩

theorem started_drained (h : Started sha1 clientId m io) : io.core.Drained :=
  fun _ => (started_idle h).2.2.2.2.1

theorem history_drained {trace : Run}
    (hist : History (step sha1) (Started sha1 clientId m) trace io) : io.core.Drained :=
  hist.invariant (P := fun io => io.core.Drained) (fun _ hs => started_drained hs) fun _ i hs =>
    (course_step hs i).drained hs

theorem history_awaited {trace : Run}
    (hist : History (step sha1) (Started sha1 clientId m) trace io) : io.core.Awaited := by
  have hboth := hist.invariant (P := fun io => io.core.Drained ∧ io.core.Awaited)
    (fun io hs => by
      have hqueue := (started_idle hs).2.2.2.2.1
      exact ⟨started_drained hs, by simp [core, hqueue], by simp [core, hqueue]⟩)
    fun _ i hs => ⟨(course_step hs.1 i).drained hs.1, (course_step hs.1 i).awaited hs.2⟩
  exact hboth.2

theorem history_reached {trace : Run}
    (hist : History (step sha1) (Started sha1 clientId m) trace io) : m.Reached :=
  hist.invariant (P := fun _ => m.Reached) (fun _ hs => started_reached hs) fun _ _ h => h

theorem history_projects {trace : Run}
    (hist : History (step sha1) (Started sha1 clientId m) trace io) :
    ∃ restored, (∀ e ∈ restored, ∃ j data, e.input.1 = .localPiece j data) ∧
      History (Swarm.step sha1) (Swarm.Started clientId m)
        (trace.flatMap swarmEvents ++ restored) io.swarm := by
  induction hist with
  | start hs =>
    obtain ⟨files, fresh, env, hlaid, hnew, hall, swarm, rfl, hsteps⟩ := started_steps hs
    refine hsteps (fun s => ∃ restored, (∀ e ∈ restored, ∃ j data, e.input.1 = .localPiece j data) ∧
      History (Swarm.step sha1) (Swarm.Started clientId m) restored s)
      (fun s hs => ⟨[], by simp, .start hs⟩) fun s j data hs hj hdata => ?_
    obtain ⟨restored, hlocal, hist⟩ := hs
    refine ⟨_, fun e he => ?_, hist.next (.localPiece j data, env)⟩
    rcases List.mem_cons.mp he with rfl | he
    · exact ⟨j, data, rfl⟩
    · exact hlocal e he
  | next i hist ih =>
    obtain ⟨restored, hlocal, hswarm⟩ := ih
    refine ⟨restored, hlocal, ?_⟩
    rw [List.flatMap_cons, List.append_assoc]
    rcases (course_step (history_drained hist) i).projects with ⟨hsame, hnone⟩ |
      ⟨input, -, hnext, hevents⟩
    · have hkeep : (SwarmIo.step sha1 _ i).1.swarm = _ := hsame
      rw [hnone, List.nil_append, hkeep]
      exact hswarm
    · have hmove : (SwarmIo.step sha1 _ i).1.swarm = _ := hnext
      rw [hevents, hmove]
      exact hswarm.next (input, i.2)

theorem history_idle (hist : History (step sha1) (Started sha1 clientId m) trace io) : Idle io :=
  hist.invariant (P := Idle) (fun _ hs _ => (started_idle hs).1) fun io i h => idle_step sha1 io i h

theorem swarm_reachable (hist : History (step sha1) (Started sha1 clientId m) trace io) :
    Swarm.Reachable sha1 clientId m io.swarm := by
  obtain ⟨restored, -, hswarm⟩ := history_projects hist
  exact ⟨_, hswarm⟩

end

end SwarmIo

end Tortue
