import Tortue.Adapters.Secured
import Tortue.Adapters.Published

namespace Tortue

open Collections

namespace SwarmIo

variable {sha1 : Sha1} {clientId : PeerId} {m : Metainfo} {io : SwarmIo} {env : Entropy}
  {trace : Run}

@[simp] theorem files_finish (result : Except Error Unit) :
    (io.finish result).worker.files = io.worker.files := rfl

@[simp] theorem files_enqueue (cmd : DiskCommand) :
    (io.enqueue cmd).worker.files = io.worker.files := rfl

theorem files_writePiece (range : BlockRange) (data : Bytes) :
    (io.writePiece range data).worker.files = io.worker.files := by
  unfold writePiece
  split
  · rfl
  · split
    · rfl
    · rfl

theorem files_flush : io.flush.worker.files = io.worker.files := by
  unfold flush
  split
  · rfl
  · rfl

theorem files_handleOutput (accepts : SocketAddr → Bool) (out : Output) :
    (io.handleOutput sha1 env accepts out).1.worker.files = io.worker.files := by
  cases out with
  | connectPeer x =>
    simp only [handleOutput, spawnPeer]
    split
    · rfl
    · rfl
  | sendToPeer x message =>
    simp only [handleOutput]
    split
    · rfl
    · rfl
  | completed => exact files_flush
  | writePiece range data => exact files_writePiece range data
  | cancelUploadRead id =>
    simp only [handleOutput, cancelUploadRead]
    split
    · rfl
    · rfl
  | disconnectPeer x => rfl
  | broadcast message => rfl
  | readForUpload id range => rfl

theorem Selected.files {move : Move} {r : SwarmIo × List Effect}
    (h : Selected sha1 env io move r) : r.1.worker.files = io.worker.files := by
  cases h with
  | _ => rfl

theorem files_runRead (task : Nat) : (io.runRead task).worker.files = io.worker.files := by
  unfold runRead
  split
  · rfl
  · split
    · rfl
    · split
      · rfl
      · rfl
    · rfl

theorem worker_receiveReply (reply : Option DiskStorage.Reply) :
    (io.receiveReply reply).worker = io.worker := by
  unfold receiveReply
  split
  · rfl
  · rfl
  · rfl
  · rfl

theorem worker_runWorker (fault : Option DiskStorage.Fault) :
    (io.runWorker fault).1.worker = (io.worker.next fault io.replyClosed).1 := by
  simp only [runWorker]
  split
  · rw [worker_receiveReply]
  · rw [dropReplies_worker, worker_receiveReply]

theorem files_execute {fault : Option DiskStorage.Fault} {isClosed : Nat → Bool}
    {w : DiskStorage.Worker} {cmd : DiskCommand} (h : cmd.reads = true) :
    (w.execute fault isClosed cmd).1.files = w.files := by
  cases cmd with
  | read offset len reply =>
    simp only [DiskStorage.Worker.execute]
    split
    · rfl
    · split
      · rfl
      · rfl
  | write offset data => contradiction
  | flush => contradiction

theorem files_step (i : Move × Entropy) :
    (io.step sha1 i).1.worker.files = io.worker.files ∨
      ∃ fault cmd queue, i.1 = .runWorker fault ∧ io.worker.queue = cmd :: queue ∧
        cmd.reads = false := by
  obtain ⟨move, env⟩ := i
  cases move with
  | session number move =>
    refine .inl ?_
    simp only [step, runSession]
    split
    · rfl
    · rfl
  | runRead task => exact .inl (files_runRead task)
  | dropRead task =>
    refine .inl ?_
    simp only [step, dropRead]
    split
    · rfl
    · split
      · rfl
      · rfl
      · rfl
  | runWorker fault =>
    simp only [step, worker_runWorker, DiskStorage.Worker.next]
    split
    · exact .inl rfl
    · next cmd queue hqueue =>
      cases hreads : cmd.reads with
      | true => exact .inl (files_execute hreads)
      | false => exact .inr ⟨fault, cmd, queue, rfl, hqueue, hreads⟩
  | handle accepts =>
    refine .inl ?_
    simp only [step]
    split
    · unfold handle
      split
      · rfl
      · exact files_handleOutput accepts _
    · rfl
  | _ =>
    refine .inl ?_
    simp only [step]
    split
    · exact (selected sha1 _ io _).files
    · rfl

def Halted (io : SwarmIo) : Prop := io.phase.over = true ∨ io.worker.running = false

theorem halted_step (hist : History (step sha1) (Started sha1 clientId m) trace io)
    (i : Move × Entropy) (h : io.Halted) : (io.step sha1 i).1.Halted := by
  have hcourse : Course sha1 io i _ _ := course_step (history_drained hist) i
  rcases h with hover | hstopped
  · exact .inl (hcourse.stays_over (history_awaited hist) hover)
  · exact .inr (hcourse.stopped hstopped)

theorem Secured.dequeue (h : Secured sha1 clientId m io) {cmd : DiskCommand}
    {queue : List DiskCommand} (hqueue : io.worker.queue = cmd :: queue)
    (hcmd : writesOf [cmd] = []) :
    Secured sha1 clientId m { io with worker := { io.worker with queue } } :=
  ⟨h.metainfo, h.store, h.running, h.reachable, h.intact.drop hqueue hcmd, h.idle⟩

theorem Secured.refuse (h : Secured sha1 clientId m io) (task : Nat) (e : IoError) :
    Secured sha1 clientId m
      { io with reads := io.reads.modify task (ReadTask.finish (.error e)) } := by
  refine h.revise fun k t ht => ?_
  rw [HashMap.get_modify] at ht
  split at ht
  · obtain ⟨read, hget, rfl⟩ := Option.map_eq_some_iff.mp ht
    exact ⟨read, hget, rfl, fun r hr => by contradiction,
      fun data hr => by simp [ReadTask.finish] at hr⟩
  · exact ⟨t, ht, rfl, fun _ hr => hr, fun _ hr => hr⟩

theorem Secured.faulted (h : Secured sha1 clientId m io) (fault : DiskStorage.Fault) :
    Secured sha1 clientId m (io.runWorker (some fault)).1 ∨
      (io.runWorker (some fault)).1.worker.running = false := by
  cases hqueue : io.worker.queue with
  | nil =>
    refine .inl ?_
    simp only [SwarmIo.runWorker, DiskStorage.Worker.next, hqueue, receiveReply, h.running, if_true]
    exact h
  | cons cmd queue =>
    cases cmd with
    | read offset len task =>
      have hrest := h.dequeue hqueue rfl
      refine .inl ?_
      simp only [SwarmIo.runWorker, DiskStorage.Worker.next, hqueue, DiskStorage.Worker.execute]
      split
      · simp only [receiveReply, h.running, if_true]
        exact h.running ▸ hrest
      · simp only [receiveReply, h.running, if_true]
        exact h.running ▸ hrest.refuse task fault.error
    | write offset data =>
      refine .inr ?_
      simp [worker_runWorker, DiskStorage.Worker.next, hqueue, DiskStorage.Worker.execute,
        DiskStorage.Worker.stop]
    | flush =>
      refine .inr ?_
      simp [worker_runWorker, DiskStorage.Worker.next, hqueue, DiskStorage.Worker.execute,
        DiskStorage.Worker.stop]

theorem history_secured_or_halted (hvalid : m.validate = .ok ()) (hsum : m.fileLengths.sum < 2 ^ 64)
    (hist : History (step sha1) (Started sha1 clientId m) trace io) :
    m.Divided ∧ (Secured sha1 clientId m io ∨ io.Halted) := by
  induction hist with
  | start hs =>
    have hrestored := started_restored hvalid hsum hs
    exact ⟨hrestored.divided, .inl hrestored.secured⟩
  | @next trace io i hist ih =>
    obtain ⟨hd, hsecured | hhalted⟩ := ih
    · obtain ⟨move, env⟩ := i
      by_cases hmove : ∃ fault, move = .runWorker (some fault)
      · obtain ⟨fault, rfl⟩ := hmove
        exact ⟨hd, (hsecured.faulted fault).imp_right .inr⟩
      · exact ⟨hd, .inl (hsecured.step hd fun fault hfault => hmove ⟨fault, hfault⟩)⟩
    · exact ⟨hd, .inr (halted_step hist i hhalted)⟩

def Holds (sha1 : Sha1) (m : Metainfo) (files : List OutputFile) (i : Nat) : Prop :=
  m.pieces[i]? = some (sha1 (pieceBytes m (DiskStorage.bytes files) i))

structure Held (sha1 : Sha1) (m : Metainfo) (files : List OutputFile) : Prop where
  laid : DiskStorage.Laid m files
  pieces : ∀ i < m.pieces.length, Holds sha1 m files i

theorem writesOf_reads {queue : List DiskCommand} (h : ∀ cmd ∈ queue, cmd.reads = true) :
    writesOf queue = [] := by
  refine List.filterMap_eq_nil_iff.mpr fun cmd hcmd => ?_
  have hreads := h cmd hcmd
  cases cmd with
  | write offset data => contradiction
  | read offset len reply => rfl
  | flush => rfl

theorem Secured.held (h : Secured sha1 clientId m io) (hs : io.core.Settled) :
    Held sha1 m io.worker.files := by
  obtain ⟨trace, hist⟩ := h.reachable
  have hqueue : writesOf io.worker.queue = [] := writesOf_reads hs.queue
  have houtputs : handedOut m io.outputs = [] := by
    refine handedOut_silent fun range data hin => ?_
    have hstores := hs.outputs _ hin
    contradiction
  have hsettled : io.custody.settled m = DiskStorage.bytes io.worker.files := by
    simp only [Custody.settled, custody, hqueue, houtputs]
    rfl
  have hmarked := Swarm.history_marked hist
  have hall := (PieceManager.isComplete_iff io.swarm.pieces).mp hs.complete
  refine ⟨h.intact.laid, fun i hi => ?_⟩
  unfold Holds
  rw [← hsettled]
  exact h.intact.stored i (hall i (hmarked.count.symm ▸ hi))

theorem Core.Settled.files (h : io.core.Settled) (i : Move × Entropy) :
    (io.step sha1 i).1.worker.files = io.worker.files := by
  rcases @files_step sha1 io i with hkept | ⟨fault, cmd, queue, -, hqueue, hcmd⟩
  · exact hkept
  · have hreads := h.queue cmd (by
      simp only [core, hqueue]
      exact List.mem_cons_self ..)
    rw [hcmd] at hreads
    contradiction

theorem published_held (hvalid : m.validate = .ok ()) (hsum : m.fileLengths.sum < 2 ^ 64)
    (hist : History (step sha1) (Started sha1 clientId m) trace io) {older : Run}
    {snapshot : Swarm.SwarmSnapshot} (h : Published trace io older snapshot)
    (hwhole : Whole snapshot) : Held sha1 m io.worker.files := by
  induction hist with
  | @start io hs =>
    rcases h with ⟨-, rfl⟩ | ⟨newer, e, stats, htrace, -⟩
    · exact (started_restored hvalid hsum hs).secured.held (started_settled hs hwhole)
    · simp at htrace
  | @next trace io i hist ih =>
    rcases published_cons h with hbefore | ⟨-, stats, hnow⟩
    · have hsettled := settled_of_published hist hbefore hwhole
      rw [hsettled.files i]
      exact ih hbefore
    · obtain ⟨hphase, -, hrunning, hsettled, -⟩ := published_whole hist hnow hwhole
      rw [hsettled.files i]
      rcases (history_secured_or_halted hvalid hsum hist).2 with hsecured | hover | hstopped
      · exact hsecured.held hsettled
      · rw [hphase] at hover
        contradiction
      · rw [hrunning] at hstopped
        contradiction

end SwarmIo

end Tortue
