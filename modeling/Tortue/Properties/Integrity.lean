import Tortue.Properties.Geometry
import Tortue.Adapters.Secured

namespace Tortue

open Collections PieceManager

namespace SwarmIo

variable {sha1 : Sha1} {clientId : PeerId} {m : Metainfo} {io : SwarmIo} {env : Entropy}

def queuedWrites (io : SwarmIo) : List DiskCommand :=
  io.worker.queue ++ io.outputs.filterMap fun
    | .writePiece range data => (io.pieceStore.write range data).toOption
    | _ => none

def applyWrite (files : List OutputFile) : DiskCommand → List OutputFile
  | .write offset data => DiskStorage.writeToFiles files offset data
  | _ => files

def storedPiece (io : SwarmIo) (i : Nat) : Bytes :=
  pieceBytes io.metainfo
    (DiskStorage.bytes (io.queuedWrites.foldl applyWrite io.worker.files)) i

theorem bytes_applyWrites {files : List OutputFile} {cmds : List DiskCommand} (hd : m.Divided)
    (hlaid : DiskStorage.Laid m files) (hplaced : ∀ w ∈ writesOf cmds, Placed m w) :
    DiskStorage.bytes (cmds.foldl applyWrite files) =
      overwrite (DiskStorage.bytes files) (writesOf cmds) := by
  induction cmds generalizing files with
  | nil => rfl
  | cons cmd cmds ih =>
    cases cmd with
    | write offset data =>
      have hsum : m.fileLengths.sum < 2 ^ 64 := hd.total ▸ hd.small
      have hfit : offset + data.length ≤ m.fileLengths.sum :=
        hd.total ▸ (hplaced (offset, data) (List.mem_cons_self ..)).fits hd
      have hrest := ih (hlaid.writeToFiles hsum hfit) fun w hw =>
        hplaced w (List.mem_cons_of_mem _ hw)
      rw [DiskStorage.bytes_writeToFiles hlaid hsum hfit] at hrest
      exact hrest
    | read offset len reply => exact ih hlaid hplaced
    | flush => exact ih hlaid hplaced

theorem writesOf_outputs {st : DiskStorage} {outputs : List Output} (hd : m.Divided)
    (hst : st = .new m)
    (h : ∀ range data, .writePiece range data ∈ outputs → WholePiece m range data) :
    writesOf (outputs.filterMap fun
      | .writePiece range data => (st.write range data).toOption
      | _ => none) = handedOut m outputs := by
  induction outputs with
  | nil => rfl
  | cons out outputs ih =>
    have hrest := ih fun range data hin => h range data (List.mem_cons_of_mem _ hin)
    cases out with
    | writePiece range data =>
      have hwrite := (h range data (List.mem_cons_self ..)).write_ok hd
      rw [List.filterMap_cons]
      simp only [hst, hwrite, Except.toOption]
      rw [← hst]
      exact congrArg ((position m range, data) :: ·) hrest
    | _ => exact hrest

theorem Secured.storedPiece (h : Secured sha1 clientId m io) (hd : m.Divided) (i : Nat) :
    io.storedPiece i = pieceBytes m (io.custody.settled m) i := by
  have hlaid : DiskStorage.Laid m io.worker.files := h.intact.laid
  have hhanded : ∀ range data, .writePiece range data ∈ io.outputs → WholePiece m range data :=
    h.intact.handed
  have hwrites : writesOf io.queuedWrites =
      writesOf io.worker.queue ++ handedOut m io.outputs := by
    unfold queuedWrites
    rw [writesOf_append, writesOf_outputs hd h.store hhanded]
  have hbytes := bytes_applyWrites hd hlaid fun w (hw : w ∈ writesOf io.queuedWrites) =>
    h.intact.placed w (hwrites ▸ hw)
  unfold SwarmIo.storedPiece
  rw [h.metainfo, hbytes, hwrites]
  rfl

structure Served (sha1 : Sha1) (m : Metainfo) (io : SwarmIo) (range : BlockRange) (data : Bytes) :
    Prop where
  complete : io.swarm.pieces.CompleteAt range.pieceIndex
  verified : m.pieces[range.pieceIndex]? = some (sha1 (io.storedPiece range.pieceIndex))
  within : range.pieceOffset + range.len ≤ (io.storedPiece range.pieceIndex).length
  bytes : data = ((io.storedPiece range.pieceIndex).drop range.pieceOffset).take range.len

theorem Secured.served (h : Secured sha1 clientId m io) (hd : m.Divided) {move : Move} {i : Input}
    {outputs : List Output} {x : SocketAddr} {range : BlockRange} {data : Bytes}
    (hstep : .stepped i outputs ∈ (io.step sha1 (move, env)).2)
    (hout : .sendToPeer x (.piece range data) ∈ outputs) : Served sha1 m io range data := by
  obtain ⟨rfl, hsourced⟩ := step_stepped hstep
  obtain ⟨id, rfl⟩ : ∃ id, i = .uploadReadCompleted id range data := by
    rcases Swarm.step_uploads sha1 io.swarm (i, env) hout rfl with
      ⟨_, _, _, -, ho, -⟩ | ⟨x', id, range', data', hi, ho⟩
    · contradiction
    · rw [Output.sendToPeer.injEq, Message.piece.injEq] at ho
      obtain ⟨-, rfl, rfl⟩ := ho
      exact ⟨id, hi⟩
  obtain ⟨k, t, hget, -, rfl, hstate⟩ := hsourced id range data rfl
  obtain ⟨-, hreadable, hhonest⟩ := h.intact.reads k t hget
  unfold Honest at hhonest
  rw [hstate] at hhonest
  obtain ⟨len, hlen, hwithin⟩ := hreadable.within
  have hpiece := length_pieceBytes hd (h.intact.length_settled hd) hreadable.index hlen
  have hstored := h.storedPiece hd t.range.pieceIndex
  refine ⟨hreadable.complete, ?_, ?_, ?_⟩
  · rw [hstored]
    exact h.intact.stored _ hreadable.complete
  · rw [hstored, hpiece]
    exact hwithin
  · rw [hstored]
    simp only at hhonest
    rw [hhonest]
    unfold pieceBytes
    rw [hlen, Option.getD_some]
    exact (window_window hwithin).symm

theorem history_secured {trace : List (Event SwarmIo (Move × Entropy) Effect)}
    (hvalid : m.validate = .ok ()) (hsum : m.fileLengths.sum < 2 ^ 64)
    (hist : History (step sha1) (Started sha1 clientId m) trace io)
    (hdisk : ∀ e ∈ trace, e.input.1.faultless = true) : Secured sha1 clientId m io ∧ m.Divided := by
  refine hist.guarded_invariant
    (P := fun (io : SwarmIo) => Secured sha1 clientId m io ∧ m.Divided)
    (G := fun _ i => i.1.faultless = true) (fun io hio => ?_) (fun io i hmove h => ?_) hdisk
  · have hrestored := started_restored hvalid hsum hio
    exact ⟨hrestored.secured, hrestored.divided⟩
  · refine ⟨h.1.step h.2 fun fault hfault => ?_, h.2⟩
    rw [hfault] at hmove
    contradiction

theorem stored_and_served_verified {torrent : Bytes}
    {trace : List (Event SwarmIo (Move × Entropy) Effect)}
    (hm : Metainfo.tryFrom sha1 torrent = .ok m) (hsum : m.fileLengths.sum < 2 ^ 64)
    (hist : History (step sha1) (Started sha1 clientId m) trace io)
    (hdisk : ∀ e ∈ trace, e.input.1.faultless = true) :
    (∀ i, io.swarm.pieces.CompleteAt i → m.pieces[i]? = some (sha1 (io.storedPiece i))) ∧
    (io.phase.busy = false → io.queuedWrites = io.worker.queue) ∧
    ∀ e ∈ trace, ∀ input outputs, .stepped input outputs ∈ e.outputs → ∀ x range data,
      .sendToPeer x (.piece range data) ∈ outputs → Served sha1 m e.before range data := by
  have hvalid := Metainfo.tryFrom_validates hm
  obtain ⟨hsecured, hd⟩ := history_secured hvalid hsum hist hdisk
  refine ⟨fun i hi => ?_, fun hidle => ?_, fun e he input outputs hstep x range data hout => ?_⟩
  · rw [hsecured.storedPiece hd]
    exact hsecured.intact.stored i hi
  · unfold queuedWrites
    rw [hsecured.idle hidle]
    exact List.append_nil _
  · obtain ⟨newer, older, hh⟩ := List.append_of_mem he
    obtain ⟨hbefore, houtputs⟩ := hist.event_before hh
    have hearlier := history_secured hvalid hsum hbefore fun f hf => hdisk f (by
      rw [hh]
      exact List.mem_append_right _ (List.mem_cons_of_mem _ hf))
    rw [houtputs] at hstep
    exact hearlier.1.served hd hstep hout

end SwarmIo

namespace Sample

def fileContent : Bytes := [1, 2, 3, 4, 5]

def contentSha1 : Sha1 := fun b => if b = fileContent then octets 0 else octets 1

@[irreducible] def torrent : Metainfo :=
  ((Metainfo.tryFrom contentSha1 (Metainfo.fiveBytes 1)).toOption).getD metainfo

def blankFile : OutputFile := ⟨List.replicate 5 0, 5, 0⟩

@[irreducible] def opened : Option SwarmIo :=
  (SwarmIo.new (peerId 1) torrent [blankFile]).bind fun io => (io.restore contentSha1 env).toOption

def handled : List SwarmIo.Move := List.replicate 4 (.handle fun _ => true)

def sessionEvent (number : Nat) (move : SessionMove) : List SwarmIo.Move :=
  [.session number move, .peerEvent] ++ handled

def sharing : List SwarmIo.Move :=
  [.peers (some [addr 80])] ++ handled ++
    sessionEvent 0 (.connect (peerId 2) extensions) ++ sessionEvent 0 (.receive (.havePiece 0)) ++
    sessionEvent 0 (.receive .unchoke) ++
    sessionEvent 0 (.receive (.piece ⟨0, 0, 5⟩ fileContent)) ++
    [.runWorker none, .runWorker none] ++ handled ++ [.inbound (some (addr 81))] ++
    sessionEvent 1 (.connect (peerId 3) extensions) ++
    sessionEvent 1 (.receive (.request ⟨0, 1, 3⟩)) ++
    [.runRead 0, .runWorker none, .joinNext 0]

def drawn (moves : List SwarmIo.Move) : List (SwarmIo.Move × Entropy) :=
  moves.map fun move => (move, env)

def serves (range : BlockRange) (data : Bytes) : SwarmIo.Effect → Bool
  | .stepped _ outputs => decide (.sendToPeer (addr 81) (.piece range data) ∈ outputs)
  | _ => false

theorem torrent_accepted :
    Metainfo.tryFrom contentSha1 (Metainfo.fiveBytes 1) = .ok torrent := by
  have hsome : (Metainfo.tryFrom contentSha1 (Metainfo.fiveBytes 1)).toOption.isSome = true := by
    decide +kernel
  unfold torrent
  cases h : Metainfo.tryFrom contentSha1 (Metainfo.fiveBytes 1) with
  | error e =>
    rw [h] at hsome
    contradiction
  | ok m => rfl

theorem blankFile_laid : DiskStorage.Laid torrent [blankFile] := by
  refine ⟨?_, ?_, ⟨rfl, trivial⟩⟩
  · decide +kernel
  · decide

theorem opened_restored {io : SwarmIo} (h : opened = some io) :
    ∃ fresh, SwarmIo.new (peerId 1) torrent [blankFile] = some fresh ∧
      fresh.restore contentSha1 env = .ok io := by
  unfold opened at h
  obtain ⟨fresh, hnew, hrestore⟩ := Option.bind_eq_some_iff.mp h
  exact ⟨fresh, hnew, Except.toOption_eq_some.mp hrestore⟩

theorem opened_started {io : SwarmIo} (h : opened = some io) :
    SwarmIo.Started contentSha1 (peerId 1) torrent io := by
  obtain ⟨fresh, hnew, hrestore⟩ := opened_restored h
  exact ⟨[blankFile], fresh, env, blankFile_laid, hnew, hrestore⟩

theorem opened_history {check : SwarmIo → Bool} (h : opened.any check = true) :
    ∃ io, check io = true ∧ ∀ moves,
      History (SwarmIo.step contentSha1) (SwarmIo.Started contentSha1 (peerId 1) torrent)
        (History.events (SwarmIo.step contentSha1) io (drawn moves))
        (History.run (SwarmIo.step contentSha1) io (drawn moves)).1 := by
  obtain ⟨io, hio, hcheck⟩ := (Option.any_eq_true _ _).mp h
  refine ⟨io, hcheck, fun moves => ?_⟩
  have hstart : History (SwarmIo.step contentSha1)
      (SwarmIo.Started contentSha1 (peerId 1) torrent) [] io := .start (opened_started hio)
  have hist := hstart.run_events (drawn moves)
  rwa [List.append_nil] at hist

end Sample

namespace SwarmIo

theorem sample_piece_stored_and_served : ∃ io trace,
    History (step Sample.contentSha1) (Started Sample.contentSha1 (Sample.peerId 1) Sample.torrent)
      trace io ∧
    Sample.torrent.pieces[0]? = some (Sample.contentSha1 (io.storedPiece 0)) ∧
    ∃ e ∈ trace, Served Sample.contentSha1 Sample.torrent e.before ⟨0, 1, 3⟩ [2, 3, 4] := by
  have hrun : (Sample.opened.any fun io =>
      let final := (History.run (step Sample.contentSha1) io (Sample.drawn Sample.sharing)).1
      (final.swarm.pieces.pieces[0]?).any Piece.isComplete &&
      (History.events (step Sample.contentSha1) io (Sample.drawn Sample.sharing)).any fun e =>
        e.outputs.any (Sample.serves ⟨0, 1, 3⟩ [2, 3, 4])) = true := by decide +kernel
  have hdisk : (Sample.drawn Sample.sharing).all (fun i => i.1.faultless) = true := by decide
  obtain ⟨io, hcheck, hist⟩ := Sample.opened_history hrun
  rw [Bool.and_eq_true] at hcheck
  obtain ⟨hcomplete, hserved⟩ := hcheck
  obtain ⟨p, hp, hpcomplete⟩ := (Option.any_eq_true _ _).mp hcomplete
  obtain ⟨hstored, -, hserving⟩ := stored_and_served_verified Sample.torrent_accepted
    (by decide +kernel) (hist Sample.sharing) fun e he =>
      List.all_eq_true.mp hdisk _ (History.mem_events he)
  refine ⟨_, _, hist Sample.sharing, hstored 0 ⟨p, hp, hpcomplete⟩, ?_⟩
  obtain ⟨e, he, hany⟩ := List.any_eq_true.mp hserved
  obtain ⟨effect, heffect, hs⟩ := List.any_eq_true.mp hany
  cases effect with
  | stepped input outputs =>
    exact ⟨e, he, hserving e he input outputs heffect _ _ _ (of_decide_eq_true hs)⟩
  | _ => simp [Sample.serves] at hs

end SwarmIo

end Tortue
