import Tortue.Domain.Swarm.Adverts
import Tortue.Domain.Swarm.Completion
import Tortue.Domain.Swarm.Reads

namespace Tortue

open Collections PieceManager

theorem PieceManager.validUploadRange_iff {m : Metainfo} {pm : PieceManager}
    (hm : Described m pm) {range : BlockRange} : pm.validUploadRange range = true ↔
      pm.CompleteAt range.pieceIndex ∧ 0 < range.len ∧ range.len ≤ blockSize ∧
        range.pieceOffset + range.len < 2 ^ 64 ∧
        ∃ len, pieceLengthAt m range.pieceIndex = some len ∧
          range.pieceOffset + range.len ≤ len := by
  unfold validUploadRange CompleteAt
  cases hp : pm.pieces[range.pieceIndex]? with
  | none => simp
  | some p =>
    have hlen : pieceLengthAt m range.pieceIndex = some p.length := (hm.piece _ p hp).1
    simp [hlen, and_assoc]

namespace Swarm

variable {sha1 : Sha1} {s : Swarm}

structure UploadQueue (s : Swarm) : Prop where
  nonempty : ∀ range read, s.pendingReads.get range = some read → 0 < read.peers.len
  fresh : ∀ range read, s.pendingReads.get range = some read → read.id.value < s.nextUploadReadId
  distinct : ∀ range range' read read', s.pendingReads.get range = some read →
    s.pendingReads.get range' = some read' → read.id = read'.id → range = range'
  bounded : s.pendingUploads ≤ maxPendingUploads
  quiet : s.status.upload = false → s.pendingReads = .empty

inductive Revised (before read : PendingRead) : Prop
  | same : read = before → Revised before read
  | joined (x : SocketAddr) : read = { before with peers := before.peers.add x } →
      Revised before read
  | left (x : SocketAddr) : withoutPeer x before = some read → Revised before read

namespace Revised

variable {before read : PendingRead}

theorem id (h : Revised before read) : read.id = before.id := by
  cases h with
  | same heq => rw [heq]
  | joined x heq => rw [heq]
  | left x hw => rw [(withoutPeer_some hw).2]

theorem len_pos (h : Revised before read) (hpos : 0 < before.peers.len) :
    0 < read.peers.len := by
  cases h with
  | same heq => rwa [heq]
  | joined x heq =>
    rw [heq]
    exact Nat.zero_lt_succ _
  | left x hw =>
    obtain ⟨hleft, rfl⟩ := withoutPeer_some hw
    exact hleft

end Revised

theorem get_insert_cases {m : HashMap BlockRange PendingRead} {range range' : BlockRange}
    {read read' : PendingRead} (h : (m.insert range read).get range' = some read') :
    range' = range ∧ read' = read ∨ m.get range' = some read' ∧ range' ≠ range := by
  rw [HashMap.get_insert] at h
  split at h
  · next heq => exact .inl ⟨heq, (Option.some.inj h).symm⟩
  · next hne => exact .inr ⟨h, hne⟩

theorem get_remove_some {m : HashMap BlockRange PendingRead} {range range' : BlockRange}
    {read : PendingRead} (h : (m.remove range).get range' = some read) :
    m.get range' = some read ∧ range' ≠ range := by
  rw [HashMap.get_remove] at h
  split at h
  · contradiction
  · next hne => exact ⟨h, hne⟩

theorem Sharing.entry {i : Input} {q : ReadQueue} {outputs : List Output}
    (h : Sharing s i q outputs) {range : BlockRange} {read : PendingRead}
    (hread : q.pending.get range = some read) :
    (∃ before, s.pendingReads.get range = some before ∧ Revised before read) ∨
      ∃ x, i = .messageReceived x (.request range) ∧ s.Requested x range ∧
        read = ⟨⟨s.nextUploadReadId⟩, HashSet.add .empty x⟩ ∧
        q.next = s.nextUploadReadId + 1 ∧
        outputs = [.readForUpload ⟨s.nextUploadReadId⟩ range] := by
  cases h with
  | keep hquiet hq =>
    subst hq
    exact .inl ⟨read, hread, .same rfl⟩
  | opened x range' hi hreq hroom hget hq ho =>
    subst hq
    rcases get_insert_cases hread with ⟨rfl, rfl⟩ | ⟨hold, -⟩
    · exact .inr ⟨x, hi, hreq, rfl, rfl, ho⟩
    · exact .inl ⟨read, hold, .same rfl⟩
  | joined x range' before hi hreq hroom hget hq =>
    subst hq
    rcases get_insert_cases hread with ⟨rfl, rfl⟩ | ⟨hold, -⟩
    · exact .inl ⟨before, hget, .joined x rfl⟩
    · exact .inl ⟨read, hold, .same rfl⟩
  | left x range' before read' hi hget hw hq =>
    subst hq
    rcases get_insert_cases hread with ⟨rfl, rfl⟩ | ⟨hold, -⟩
    · exact .inl ⟨before, hget, .left x hw⟩
    · exact .inl ⟨read, hold, .same rfl⟩
  | abandoned x range' before hi hget hw hq =>
    subst hq
    exact .inl ⟨read, (get_remove_some hread).1, .same rfl⟩
  | dropped x reads hi honly hperm hq =>
    subst hq
    rw [HashMap.get_retain] at hread
    obtain ⟨before, hget, hw⟩ := Option.bind_eq_some_iff.mp hread
    exact .inl ⟨before, hget, .left x hw⟩
  | cleared status reads hi hdown hperm hq =>
    subst hq
    contradiction
  | completed id range' data before addrs hi hget hid hnodup hin hq =>
    subst hq
    exact .inl ⟨read, (get_remove_some hread).1, .same rfl⟩

theorem Sharing.next_le {i : Input} {q : ReadQueue} {outputs : List Output}
    (h : Sharing s i q outputs) : s.nextUploadReadId ≤ q.next := by
  cases h <;> rename_i hq ho <;> subst hq <;> first | exact Nat.le_refl _ | exact Nat.le_succ _

theorem withoutPeer_len {x : SocketAddr} {read read' : PendingRead}
    (h : withoutPeer x read = some read') : read'.peers.len ≤ read.peers.len := by
  rw [(withoutPeer_some h).2]
  exact HashMap.len_remove_le read.peers x

theorem onMessage_status (env : Entropy) (s : Swarm) (x : SocketAddr) (m : Message) :
    (s.onMessage sha1 env x m).1.status = s.status := by
  rcases onMessage_cases sha1 env s x m with ⟨_, -, hs, -⟩ | ⟨r, -, -, hs⟩ | ⟨r, -, -, hs⟩
  · rw [hs]
  · rw [hs]
    exact (handleMessage_frame sha1 env _ x m).2.2.2.1
  · rw [hs]
    obtain ⟨a, ha⟩ := plan_fst env (handleMessage sha1 env { s with peerRegistry := r } x m).1
    rw [ha]
    exact (handleMessage_frame sha1 env _ x m).2.2.2.1

theorem step_status (sha1 : Sha1) (s : Swarm) (i : Input × Entropy) :
    (step sha1 s i).1.status = s.status ∨
      ∃ status, i.1 = .swarmCommand (.setStatus status) ∧ (step sha1 s i).1.status = status := by
  obtain ⟨input, env⟩ := i
  cases input with
  | swarmCommand cmd =>
    cases cmd with
    | setStatus status =>
      refine .inr ⟨status, rfl, ?_⟩
      simp only [step, onSwarmCommand]
      split <;> rfl
  | messageReceived x m => exact .inl (onMessage_status env s x m)
  | peerConnected id d x e =>
    left
    rcases onConnected_cases env s x d id e with ⟨-, hs⟩ | ⟨_, -, -, hs⟩ | ⟨_, -, -, hs⟩
    · simp only [step, hs]
      rfl
    · simp only [step, hs]
    · simp only [step, hs]
      rfl
  | uploadReadCompleted id range data =>
    rcases onUploadReadCompleted_cases env s id range data with hs | ⟨_, _, hs⟩ <;>
      exact .inl (by simp only [step, hs])
  | tick t =>
    cases t with
    | block =>
      obtain ⟨a, ha⟩ := plan_fst env s
      exact .inl (by simp only [step, onTick, ha])
    | pex => exact .inl rfl
  | _ => exact .inl rfl

namespace UploadQueue

variable {i : Input} {q : ReadQueue} {outputs : List Output}

def waiting (q : ReadQueue) : Nat := q.pending.weight fun read => read.peers.len

theorem waiting_sharing (h : UploadQueue s) (hs : Sharing s i q outputs) :
    waiting q ≤ maxPendingUploads := by
  have hbefore : s.pendingReads.weight (fun read => read.peers.len) ≤ maxPendingUploads := h.bounded
  cases hs with
  | keep _ hq =>
    subst hq
    exact hbefore
  | opened x range _ _ hroom hget hq =>
    have hroom : s.pendingReads.weight (fun read => read.peers.len) < maxPendingUploads := hroom
    have hone : (HashSet.add HashMap.empty x).len = 1 := rfl
    subst hq
    rw [waiting, HashMap.weight_insert, HashMap.remove_of_get_none hget, hone]
    omega
  | joined x range read _ _ hroom hget hq =>
    have hroom : s.pendingReads.weight (fun read => read.peers.len) < maxPendingUploads := hroom
    have hadd : (read.peers.add x).len ≤ read.peers.len + 1 := HashMap.len_insert_le ..
    subst hq
    rw [HashMap.weight_remove _ hget] at hroom
    rw [waiting, HashMap.weight_insert]
    dsimp only at *
    omega
  | left x range read read' _ hget hw hq =>
    have hless := withoutPeer_len hw
    subst hq
    rw [HashMap.weight_remove _ hget] at hbefore
    rw [waiting, HashMap.weight_insert]
    omega
  | abandoned x range read _ hget _ hq =>
    subst hq
    exact (HashMap.weight_remove_le ..).trans hbefore
  | dropped x reads _ _ _ hq =>
    subst hq
    exact (HashMap.weight_retain_le (fun _ _ hw => withoutPeer_len hw) _).trans hbefore
  | cleared _ _ _ _ _ hq =>
    subst hq
    exact Nat.zero_le _
  | completed id range data read addrs _ _ _ _ _ hq =>
    subst hq
    exact (HashMap.weight_remove_le ..).trans hbefore

theorem step (ha : Accounted s) (h : UploadQueue s) (sha1 : Sha1) (i : Input × Entropy) :
    UploadQueue (step sha1 s i).1 := by
  have hs : Sharing s i.1 (Swarm.step sha1 s i).1.readQueue (served (Swarm.step sha1 s i).2) :=
    sharing_step sha1 ha i
  refine ⟨?_, ?_, ?_, waiting_sharing h hs, ?_⟩
  · intro range read hread
    rcases hs.entry hread with ⟨before, hget, hrev⟩ | ⟨x, -, -, rfl, -⟩
    · exact hrev.len_pos (h.nonempty range before hget)
    · exact Nat.zero_lt_succ _
  · intro range read hread
    rcases hs.entry hread with ⟨before, hget, hrev⟩ | ⟨x, -, -, rfl, hnext, -⟩
    · rw [hrev.id]
      exact Nat.lt_of_lt_of_le (h.fresh range before hget) hs.next_le
    · exact Nat.lt_of_lt_of_eq (Nat.lt_succ_self _) hnext.symm
  · intro range range' read read' hread hread' hid
    rcases hs.entry hread with ⟨before, hget, hrev⟩ | ⟨x, hi, -, rfl, -⟩ <;>
      rcases hs.entry hread' with ⟨before', hget', hrev'⟩ | ⟨x', hi', -, rfl, -⟩
    · rw [hrev.id, hrev'.id] at hid
      exact h.distinct range range' before before' hget hget' hid
    · have hfresh := h.fresh range before hget
      rw [← hrev.id, hid] at hfresh
      exact absurd hfresh (Nat.lt_irrefl _)
    · have hfresh := h.fresh range' before' hget'
      rw [← hrev'.id, ← hid] at hfresh
      exact absurd hfresh (Nat.lt_irrefl _)
    · rw [hi, Input.messageReceived.injEq, Message.request.injEq] at hi'
      exact hi'.2
  · intro hdown
    refine HashMap.eq_empty_of_get_none fun range => Option.eq_none_iff_forall_ne_some.mpr ?_
    intro read hread
    rcases step_status sha1 s i with hsame | ⟨status, hi, hstatus⟩
    · rw [hsame] at hdown
      have hempty := h.quiet hdown
      rcases hs.entry hread with ⟨before, hget, -⟩ | ⟨x, -, hreq, -⟩
      · rw [hempty] at hget
        contradiction
      · rw [hreq.upload] at hdown
        contradiction
    · rw [hstatus] at hdown
      have hcleared : (Swarm.step sha1 s i).1.pendingReads = .empty := by
        simp [Swarm.step, hi, onSwarmCommand, hdown]
      have hread : (Swarm.step sha1 s i).1.pendingReads.get range = some read := hread
      rw [hcleared] at hread
      contradiction

end UploadQueue

section

variable {clientId : PeerId} {metainfo : Metainfo}

theorem started_uploadQueue (hs : Started clientId metainfo s) : UploadQueue s := by
  have hempty : s.pendingReads = .empty := (started_fields hs).2.2.2.2.2
  have hnone : ∀ range, s.pendingReads.get range = none := by simp [hempty]
  refine ⟨?_, ?_, ?_, ?_, fun _ => hempty⟩
  · intro range read hread
    simp [hnone] at hread
  · intro range read hread
    simp [hnone] at hread
  · intro range range' read read' hread
    simp [hnone] at hread
  · rw [pendingUploads, hempty]
    exact Nat.zero_le _

theorem reachable_uploadQueue (hr : Reachable sha1 clientId metainfo s) : UploadQueue s := by
  have hboth : Accounted s ∧ UploadQueue s := by
    refine History.reachable_invariant (P := fun t => Accounted t ∧ UploadQueue t)
      (fun t ht => ?_) (fun t i h => ?_) hr
    · exact ⟨.started ht, started_uploadQueue ht⟩
    · exact ⟨h.1.step sha1 t i, h.2.step h.1 sha1 i⟩
  exact hboth.2

theorem history_described {h : Trace}
    (hist : History (Swarm.step sha1) (Started clientId metainfo) h s) :
    Described metainfo s.pieces :=
  delivered_described (deliveries_delivered hist)

theorem pending_valid {h : Trace}
    (hist : History (Swarm.step sha1) (Started clientId metainfo) h s) {range : BlockRange}
    {read : PendingRead} (hread : s.pendingReads.get range = some read) :
    s.pieces.validUploadRange range = true := by
  induction hist generalizing read with
  | start hs =>
    rw [(started_fields hs).2.2.2.2.2] at hread
    contradiction
  | @next h s i hist ih =>
    have hvalid : s.pieces.validUploadRange range = true := by
      have hs : Sharing s i.1 (Swarm.step sha1 s i).1.readQueue (served (Swarm.step sha1 s i).2) :=
        sharing_step sha1 (reachable_accounted ⟨h, hist⟩) i
      rcases hs.entry hread with ⟨before, hget, -⟩ | ⟨x, -, hreq, -⟩
      · exact ih hget
      · exact hreq.valid
    obtain ⟨hcomplete, hlen⟩ := (validUploadRange_iff (history_described hist)).mp hvalid
    refine (validUploadRange_iff (history_described (hist.next i))).mpr ⟨?_, hlen⟩
    exact (complete_step sha1 _ s i ⟨history_sound hist, hcomplete⟩).2

end

section

variable {i : Input} {q : ReadQueue} {outputs : List Output} {id : UploadReadId}
  {range : BlockRange}

theorem delivered_of_output (h : Sharing s i q outputs) {x : SocketAddr} {data : Bytes}
    (ho : .sendToPeer x (.piece range data) ∈ outputs) :
    ∃ read, i = .uploadReadCompleted read.id range data ∧
      s.pendingReads.get range = some read ∧ read.peers.contains x = true ∧
      outputs.count (.sendToPeer x (.piece range data)) = 1 ∧
      ∀ o ∈ outputs, ∃ y, o = .sendToPeer y (.piece range data) := by
  cases h with
  | keep | joined | left =>
    rename_i hout
    subst hout
    contradiction
  | opened | abandoned =>
    rename_i hout
    subst hout
    simp at ho
  | dropped | cleared =>
    rename_i hout
    subst hout
    simp at ho
  | completed id range' data' read addrs hi hget hid hnodup hin hqueue hout =>
    subst hout hid
    obtain ⟨y, hy, heq⟩ := List.mem_map.mp ho
    simp only [Output.sendToPeer.injEq, Message.piece.injEq] at heq
    obtain ⟨rfl, rfl, rfl⟩ := heq
    refine ⟨read, hi, hget, hin y hy, ?_, fun o hmem => ?_⟩
    · have hinj : Function.Injective fun z => Output.sendToPeer z (.piece range' data') := by
        intro a b hab
        exact (Output.sendToPeer.inj hab).1
      exact List.count_eq_one_of_mem (hnodup.map hinj) ho
    · obtain ⟨z, -, rfl⟩ := List.mem_map.mp hmem
      exact ⟨z, rfl⟩

end

end Swarm

def Output.pieceBytes (receives : SocketAddr → Bool) : Output → Nat
  | .sendToPeer x (.piece _ data) => if receives x then data.length else 0
  | _ => 0

theorem sum_pieceBytes_eq_zero {receives : SocketAddr → Bool} {outputs : List Output}
    (h : ∀ x range data, receives x = true → .sendToPeer x (.piece range data) ∉ outputs) :
    (outputs.map (Output.pieceBytes receives)).sum = 0 := by
  refine List.sum_eq_zero fun n hn => ?_
  obtain ⟨o, ho, rfl⟩ := List.mem_map.mp hn
  cases o with
  | sendToPeer x m =>
    cases m with
    | piece range data =>
      have hother : receives x ≠ true := fun hx => h x range data hx ho
      simp [Output.pieceBytes, hother]
    | _ => rfl
  | _ => rfl

namespace Swarm

variable {sha1 : Sha1} {s : Swarm} {x : SocketAddr}

@[simp] theorem plan_uploadedBytes (env : Entropy) (s : Swarm) :
    (s.plan env).1.uploadedBytes = s.uploadedBytes := by
  obtain ⟨a, ha⟩ := plan_fst env s
  rw [ha]

@[simp] theorem handleMessage_uploadedBytes (sha1 : Sha1) (env : Entropy) (s : Swarm)
    (y : SocketAddr) (m : Message) :
    (s.handleMessage sha1 env y m).1.uploadedBytes = s.uploadedBytes :=
  (handleMessage_frame sha1 env s y m).2.2.2.2

theorem uploadedBytes_kept (sha1 : Sha1) (s : Swarm) (i : Input × Entropy)
    (hi : ∀ id range data, i.1 ≠ .uploadReadCompleted id range data) :
    (step sha1 s i).1.uploadedBytes = s.uploadedBytes := by
  obtain ⟨input, env⟩ := i
  cases input with
  | uploadReadCompleted id range data => exact absurd rfl (hi id range data)
  | messageReceived y m =>
    rcases onMessage_cases sha1 env s y m with ⟨_, -, hs, -⟩ | ⟨r, -, -, hs⟩ | ⟨r, -, -, hs⟩
    · simp only [step, hs]
    · simp only [step, hs, handleMessage_uploadedBytes]
    · simp only [step, hs, plan_uploadedBytes, handleMessage_uploadedBytes]
  | peerConnected id d y e =>
    rcases onConnected_cases env s y d id e with ⟨-, hs⟩ | ⟨_, -, -, hs⟩ | ⟨_, -, -, hs⟩ <;>
      simp only [step, hs, register, onDisconnected, cancelPeerUploads]
  | swarmCommand cmd =>
    obtain ⟨_, _, _, -, hs⟩ := onSwarmCommand_cases env s cmd
    simp only [step, hs]
  | tick t => cases t <;> simp [step, onTick]
  | _ => rfl

theorem uploadedBytes_step (sha1 : Sha1) (h : Accounted s) (i : Input × Entropy) :
    (step sha1 s i).1.uploadedBytes =
      ((step sha1 s i).2.map (Output.pieceBytes fun _ => true)).sum + s.uploadedBytes := by
  by_cases hi : ∃ id range data, i.1 = .uploadReadCompleted id range data
  · obtain ⟨id, range, data, hi⟩ := hi
    simp only [step, hi, onUploadReadCompleted]
    split
    · simp
    · split_ifs
      · simp
      · simp
      · simp [Output.pieceBytes, Function.comp_def, Nat.add_comm]
  · have hquiet : ∀ x range data, .sendToPeer x (.piece range data) ∉ (step sha1 s i).2 := by
      intro x range data hout
      obtain ⟨read, hinput, -⟩ :=
        delivered_of_output (sharing_step sha1 h i) ((mem_served rfl).mpr hout)
      exact hi ⟨_, _, _, hinput⟩
    rw [sum_pieceBytes_eq_zero fun x range data _ => hquiet x range data, Nat.zero_add]
    exact uploadedBytes_kept sha1 s i fun id range data hinput => hi ⟨id, range, data, hinput⟩

end Swarm

end Tortue
