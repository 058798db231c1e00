import Tortue.Adapters.Courses

namespace Tortue

open Collections

namespace ReadTask

structure Inherits (move : SwarmIo.Move) (t t' : ReadTask) : Prop where
  id : t'.id = t.id
  range : t'.range = t.range
  unsent : ∀ r, t'.state = .unsent r → t.state = .unsent r
  failed : ∀ e, t'.state = .finished (.error e) → t.state = .finished (.error e) ∨
    t.state = .unsent (.error e) ∨ e.kind ≠ .invalidInput ∨
      ∃ fault, move = .runWorker (some fault) ∧ fault.error = e

variable {move : SwarmIo.Move} {t t' t'' : ReadTask}

theorem inherits_of_state (hid : t'.id = t.id) (hrange : t'.range = t.range)
    (hstate : t'.state = t.state) : Inherits move t t' :=
  ⟨hid, hrange, fun _ h => hstate ▸ h, fun _ h => .inl (hstate ▸ h)⟩

theorem inherits_refl (move : SwarmIo.Move) (t : ReadTask) : Inherits move t t :=
  inherits_of_state rfl rfl rfl

theorem inherits_abort (move : SwarmIo.Move) (t : ReadTask) : Inherits move t t.abort :=
  inherits_of_state rfl rfl rfl

theorem Inherits.trans (h : Inherits move t t') (h' : Inherits move t' t'') :
    Inherits move t t'' := by
  refine ⟨h'.id.trans h.id, h'.range.trans h.range, fun r hr => h.unsent r (h'.unsent r hr),
    fun e he => ?_⟩
  rcases h'.failed e he with hold | hunsent | hrest
  · exact h.failed e hold
  · exact .inr (.inl (h.unsent _ hunsent))
  · exact .inr (.inr hrest)

theorem inherits_finish {result : Except IoError Bytes}
    (h : ∀ e, result = .error e → t.state = .unsent (.error e) ∨ e.kind ≠ .invalidInput ∨
      ∃ fault, move = .runWorker (some fault) ∧ fault.error = e) :
    Inherits move t (t.finish result) := by
  refine ⟨rfl, rfl, fun r hr => by contradiction, fun e he => .inr (h e ?_)⟩
  simpa [finish] using he

theorem inherits_dropReply : Inherits move t t.dropReply := by
  unfold dropReply
  split
  · refine inherits_finish fun e he => .inr (.inl ?_)
    rw [Except.error.injEq] at he
    subst he
    decide
  · exact inherits_refl move t

end ReadTask

namespace SwarmIo

open ReadTask

def Carried (move : Move) (reads reads' : HashMap Nat ReadTask) : Prop :=
  ∀ k t', reads'.get k = some t' → ∃ t, reads.get k = some t ∧ Inherits move t t'

section

variable {move : Move} {reads reads' reads'' : HashMap Nat ReadTask}

theorem carried_refl (move : Move) (reads : HashMap Nat ReadTask) : Carried move reads reads :=
  fun _ t' h => ⟨t', h, inherits_refl move t'⟩

theorem Carried.trans (h : Carried move reads reads') (h' : Carried move reads' reads'') :
    Carried move reads reads'' := by
  intro k t'' ht''
  obtain ⟨t', ht', hstep'⟩ := h' k t'' ht''
  obtain ⟨t, ht, hstep⟩ := h k t' ht'
  exact ⟨t, ht, hstep.trans hstep'⟩

theorem carried_remove (reads : HashMap Nat ReadTask) (task : Nat) :
    Carried move reads (reads.remove task) := by
  intro k t' ht'
  rw [HashMap.get_remove] at ht'
  split at ht'
  · contradiction
  · exact ⟨t', ht', inherits_refl move t'⟩

theorem carried_retain {f : ReadTask → ReadTask} (hf : ∀ t, Inherits move t (f t))
    (reads : HashMap Nat ReadTask) : Carried move reads (reads.retain fun t => some (f t)) := by
  intro k t' ht'
  rw [HashMap.get_retain] at ht'
  obtain ⟨t, ht, heq⟩ := Option.bind_eq_some_iff.mp ht'
  rw [Option.some.injEq] at heq
  exact ⟨t, ht, heq ▸ hf t⟩

theorem carried_modify {f : ReadTask → ReadTask} (hf : ∀ t, Inherits move t (f t))
    (reads : HashMap Nat ReadTask) (task : Nat) : Carried move reads (reads.modify task f) := by
  intro k t' ht'
  rw [HashMap.get_modify] at ht'
  split at ht'
  · obtain ⟨t, ht, rfl⟩ := Option.map_eq_some_iff.mp ht'
    exact ⟨t, ht, hf t⟩
  · exact ⟨t', ht', inherits_refl move t'⟩

theorem carried_insert {task : Nat} {t t' : ReadTask} (hget : reads.get task = some t)
    (h : Inherits move t t') : Carried move reads (reads.insert task t') := by
  intro k u hu
  rw [HashMap.get_insert] at hu
  split at hu
  · next heq =>
    rw [Option.some.injEq] at hu
    subst heq hu
    exact ⟨t, hget, h⟩
  · exact ⟨u, hu, inherits_refl move u⟩

end

variable {sha1 : Sha1} {env : Entropy} {io : SwarmIo} {move : Move}

theorem carried_finish (io : SwarmIo) (result : Except Error Unit) :
    Carried move io.reads (io.finish result).reads :=
  carried_retain (inherits_abort move) io.reads

theorem Selected.carried {r : SwarmIo × List Effect} (hr : Selected sha1 env io move r) :
    Carried move io.reads r.1.reads := by
  cases hr with
  | stop _ result => exact carried_finish io result
  | reap task => exact carried_remove io.reads task
  | fail task readHandles result =>
    exact (carried_remove io.reads task).trans
      (carried_finish { io with reads := io.reads.remove task, readHandles } result)
  | read task => exact carried_remove io.reads task
  | _ => exact carried_refl _ io.reads

theorem carried_writePiece (io : SwarmIo) (range : BlockRange) (data : Bytes) :
    Carried move io.reads (io.writePiece range data).reads := by
  unfold writePiece
  split
  · exact carried_finish io _
  · split
    · exact carried_refl move io.reads
    · exact carried_finish io _

theorem carried_flush (io : SwarmIo) : Carried move io.reads io.flush.reads := by
  unfold flush
  split
  · exact carried_refl move io.reads
  · exact carried_finish io _

theorem carried_cancelUploadRead (io : SwarmIo) (id : UploadReadId) :
    Carried move io.reads (io.cancelUploadRead id).reads := by
  unfold cancelUploadRead
  split
  · exact carried_refl move io.reads
  · exact carried_modify (inherits_abort move) io.reads _

theorem reads_handle (accepts : SocketAddr → Bool) :
    Carried move io.reads (io.handle sha1 env accepts).1.reads ∨
      ∃ id range rest, io.outputs = .readForUpload id range :: rest ∧
        (io.handle sha1 env accepts).1.reads = io.reads.insert io.nextTask
          ⟨id, range, false, .unsent (io.pieceStore.storageOffset range)⟩ := by
  unfold handle
  split
  · exact .inl (carried_refl move io.reads)
  · next out rest hout =>
    cases out with
    | connectPeer x =>
      simp only [handleOutput, spawnPeer]
      split <;> exact .inl (carried_refl move io.reads)
    | sendToPeer x m =>
      simp only [handleOutput]
      split <;> exact .inl (carried_refl move io.reads)
    | completed => exact .inl (carried_flush { io with outputs := rest })
    | writePiece range data =>
      exact .inl (carried_writePiece { io with outputs := rest } range data)
    | readForUpload id range => exact .inr ⟨id, range, rest, hout, rfl⟩
    | cancelUploadRead id => exact .inl (carried_cancelUploadRead { io with outputs := rest } id)
    | disconnectPeer _ | broadcast _ => exact .inl (carried_refl move io.reads)

theorem carried_runRead (io : SwarmIo) (task : Nat) :
    Carried move io.reads (io.runRead task).reads := by
  unfold runRead
  split
  · exact carried_refl move io.reads
  · next read hget =>
    split
    · next e hstate =>
      refine carried_insert hget (inherits_finish fun e' he => .inl ?_)
      rw [Except.error.injEq] at he
      exact he ▸ hstate
    · split
      · exact carried_insert hget ⟨rfl, rfl, fun r hr => by contradiction,
          fun e he => by contradiction⟩
      · refine carried_insert hget (inherits_finish fun e he => .inr (.inl ?_))
        rw [Except.error.injEq] at he
        subst he
        decide
    · exact carried_refl move io.reads

theorem carried_dropRead (io : SwarmIo) (task : Nat) :
    Carried move io.reads (io.dropRead task).reads := by
  unfold dropRead
  split
  · exact carried_refl move io.reads
  · next read hget =>
    split
    · exact carried_insert hget ⟨rfl, rfl, fun r hr => by contradiction,
        fun e he => by contradiction⟩
    · exact carried_insert hget ⟨rfl, rfl, fun r hr => by contradiction,
        fun e he => by contradiction⟩
    · exact carried_refl move io.reads

theorem carried_dropReplies (io : SwarmIo) : Carried move io.reads io.dropReplies.reads := by
  have hdrop : Carried move io.reads (io.reads.retain fun t => some t.dropReply) :=
    carried_retain (fun _ => inherits_dropReply) io.reads
  unfold dropReplies
  dsimp only
  split
  · exact hdrop.trans (carried_finish { io with reads := _ } _)
  · exact hdrop

theorem execute_read {fault : Option DiskStorage.Fault} {isClosed : Nat → Bool}
    {w w' : DiskStorage.Worker} {cmd : DiskCommand} {task : Nat} {e : IoError}
    (h : w.execute fault isClosed cmd = (w', some (.read task (.error e)))) :
    e.kind ≠ .invalidInput ∨ ∃ f, fault = some f ∧ f.error = e := by
  unfold DiskStorage.Worker.execute at h
  split at h
  · split at h <;> simp at h
  · split at h
    · simp at h
    · split at h
      · next f =>
        simp only [Prod.mk.injEq, Option.some.injEq, DiskStorage.Reply.read.injEq,
          Except.error.injEq] at h
        exact .inr ⟨f, rfl, h.2.2⟩
      · simp only [Prod.mk.injEq, Option.some.injEq, DiskStorage.Reply.read.injEq] at h
        exact .inl (readFromFiles_error h.2.2)
  · split at h <;> simp at h

theorem carried_runWorker (io : SwarmIo) (fault : Option DiskStorage.Fault) :
    Carried (.runWorker fault) io.reads (io.runWorker fault).1.reads := by
  have hreply : Carried (.runWorker fault) io.reads ({ io with
      worker := (io.worker.next fault io.replyClosed).1 }.receiveReply
        (io.worker.next fault io.replyClosed).2).reads := by
    unfold receiveReply
    split
    · exact carried_refl _ io.reads
    · next task result hresult =>
      refine carried_modify (fun t => inherits_finish fun e he => .inr ?_) io.reads task
      subst he
      unfold DiskStorage.Worker.next at hresult
      split at hresult
      · contradiction
      · rcases execute_read (Prod.ext rfl hresult) with hkind | ⟨f, hf, herror⟩
        · exact .inl hkind
        · exact .inr ⟨f, hf ▸ rfl, herror⟩
    · exact carried_refl _ io.reads
    · next e _ => exact carried_finish { io with worker := _ } (.error (.storage e))
  simp only [runWorker]
  split
  · exact hreply
  · exact hreply.trans (carried_dropReplies _)

theorem step_reads (sha1 : Sha1) (io : SwarmIo) (i : Move × Entropy) :
    Carried i.1 io.reads (io.step sha1 i).1.reads ∨
      io.phase = .handling ∧ ∃ id range rest, io.outputs = .readForUpload id range :: rest ∧
        (io.step sha1 i).1.reads = io.reads.insert io.nextTask
          ⟨id, range, false, .unsent (io.pieceStore.storageOffset range)⟩ := by
  obtain ⟨move, env⟩ := i
  cases move with
  | session number move =>
    simp only [step, runSession]
    split <;> exact .inl (carried_refl _ io.reads)
  | runRead task => exact .inl (carried_runRead io task)
  | dropRead task => exact .inl (carried_dropRead io task)
  | runWorker fault => exact .inl (carried_runWorker io fault)
  | handle accepts =>
    simp only [step]
    split
    · next hphase => exact (reads_handle accepts).imp_right fun h => ⟨hphase, h⟩
    · exact .inl (carried_refl _ io.reads)
  | _ =>
    simp only [step]
    split
    · exact .inl (selected sha1 env io _).carried
    · exact .inl (carried_refl _ io.reads)

end SwarmIo

end Tortue
