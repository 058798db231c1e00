import Tortue.Properties.UploadDelivery

namespace Tortue

open Collections

def Output.opens (id : UploadReadId) : Output → Bool
  | .readForUpload id' _ => decide (id' = id)
  | _ => false

def PendingRead.marks (id : UploadReadId) (read : PendingRead) : Nat :=
  if read.id = id then 1 else 0

namespace Swarm

variable {sha1 : Sha1} {s : Swarm}

def waiting (s : Swarm) (id : UploadReadId) : Nat := s.pendingReads.weight (PendingRead.marks id)

def takes (id : UploadReadId) (e : Happening) : Bool :=
  match e.input.1 with
  | .uploadReadCompleted id' range _ =>
    decide (id' = id) && (e.before.pendingReads.get range).any fun read => read.id = id
  | _ => false

def openings (id : UploadReadId) (e : Happening) : Nat := e.outputs.countP (Output.opens id)

def closings (id : UploadReadId) (e : Happening) : Nat :=
  e.outputs.count (.cancelUploadRead id) + (takes id e).toNat

theorem waiting_pos_iff {id : UploadReadId} : 0 < s.waiting id ↔
    ∃ range read, s.pendingReads.get range = some read ∧ read.id = id := by
  unfold waiting
  rw [HashMap.weight_pos_iff]
  refine exists₂_congr fun range read => and_congr_right fun _ => ?_
  unfold PendingRead.marks
  split <;> simp [*]

theorem countP_opens_served (outputs : List Output) (id : UploadReadId) :
    (served outputs).countP (Output.opens id) = outputs.countP (Output.opens id) := by
  unfold served
  rw [List.countP_filter]
  refine List.countP_congr fun o _ => ?_
  cases o <;> simp [Output.opens, Output.serves]

theorem count_cancel_served (outputs : List Output) (id : UploadReadId) :
    (served outputs).count (.cancelUploadRead id) = outputs.count (.cancelUploadRead id) :=
  List.count_filter rfl

theorem takes_iff {id : UploadReadId} {e : Happening} : takes id e = true ↔
    ∃ range data read, e.input.1 = .uploadReadCompleted id range data ∧
      e.before.pendingReads.get range = some read ∧ read.id = id := by
  unfold takes
  split
  · next id' range data hi =>
    rw [Bool.and_eq_true, decide_eq_true_eq, Option.any_eq_true]
    constructor
    · rintro ⟨rfl, read, hget, hid⟩
      exact ⟨range, data, read, hi, hget, of_decide_eq_true hid⟩
    · rintro ⟨range', data', read, hi', hget, hid⟩
      rw [hi, Input.uploadReadCompleted.injEq] at hi'
      obtain ⟨rfl, rfl, rfl⟩ := hi'
      exact ⟨rfl, read, hget, decide_eq_true hid⟩
  · next hi =>
    refine ⟨fun h => by contradiction, ?_⟩
    rintro ⟨range, data, read, hi', -⟩
    exact absurd hi' (hi id range data)

theorem takes_eq_false {id : UploadReadId} {e : Happening}
    (h : ∀ range data, e.input.1 ≠ .uploadReadCompleted id range data) : takes id e = false := by
  by_contra htakes
  obtain ⟨range, data, read, hi, -⟩ := takes_iff.mp (Bool.not_eq_false _ ▸ htakes)
  exact h range data hi

theorem count_cancels (id : UploadReadId) (reads : List PendingRead) :
    (reads.map fun read => Output.cancelUploadRead read.id).count (.cancelUploadRead id) =
      (reads.map (PendingRead.marks id)).sum := by
  induction reads with
  | nil => rfl
  | cons read reads ih =>
    rw [List.map_cons, List.map_cons, List.sum_cons, List.count_cons, ih, Nat.add_comm]
    simp [PendingRead.marks]

theorem countP_opens_nil {outputs : List Output} {id : UploadReadId}
    (h : ∀ o ∈ outputs, Output.opens id o = false) : outputs.countP (Output.opens id) = 0 :=
  List.countP_eq_zero.mpr fun o ho => by simp [h o ho]

theorem countP_opens_cancels (id : UploadReadId) (reads : List PendingRead) :
    (reads.map fun read => Output.cancelUploadRead read.id).countP (Output.opens id) = 0 :=
  countP_opens_nil fun o ho => by
    obtain ⟨read, -, rfl⟩ := List.mem_map.mp ho
    rfl

theorem withoutPeer_marks (x : SocketAddr) (id : UploadReadId) (read read' : PendingRead)
    (h : withoutPeer x read = some read') : read'.marks id = read.marks id := by
  rw [(withoutPeer_some h).2]
  rfl

section

variable {i : Input} {q : ReadQueue} {outputs : List Output}

theorem Sharing.balance (h : Sharing s i q outputs) (id : UploadReadId)
    (hi : ∀ range data read, i = .uploadReadCompleted id range data →
      s.pendingReads.get range = some read → read.id ≠ id) :
    outputs.countP (Output.opens id) + s.waiting id =
      outputs.count (.cancelUploadRead id) + q.pending.weight (PendingRead.marks id) := by
  unfold waiting
  cases h with
  | keep hkept hq hout =>
    subst hq hout
    simp [readQueue]
  | opened x range hin hreq hroom hget hq hout =>
    subst hq hout
    rw [HashMap.weight_insert, HashMap.remove_of_get_none hget]
    simp [Output.opens, PendingRead.marks, List.countP_cons]
  | joined x range read hin hreq hroom hget hq hout =>
    subst hq hout
    rw [HashMap.weight_insert, HashMap.weight_remove _ hget]
    simp [PendingRead.marks]
  | left x range read read' hin hget hw hq hout =>
    subst hq hout
    rw [HashMap.weight_insert, HashMap.weight_remove _ hget, withoutPeer_marks x id read read' hw]
    simp
  | abandoned x range read hin hget hw hq hout =>
    subst hq hout
    rw [HashMap.weight_remove _ hget]
    simp [Output.opens, PendingRead.marks, List.count_cons]
  | dropped x reads hleaves honly hperm hq hout =>
    subst hq hout
    have hmarks := HashMap.weight_retain (withoutPeer_marks x id) s.pendingReads
    rw [count_cancels, (hperm.map _).sum_nat, hmarks, countP_opens_cancels, Nat.zero_add]
  | cleared status reads hin hdown hperm hq hout =>
    subst hq hout
    rw [count_cancels, (hperm.map _).sum_nat, countP_opens_cancels, Nat.zero_add]
    rfl
  | completed id' range data read addrs hin hget hid hnodup hpeers hq hout =>
    subst hq hout
    rw [HashMap.weight_remove _ hget]
    have hother : read.id ≠ id := by
      rintro rfl
      exact hi range data read (hid ▸ hin) hget rfl
    rw [countP_opens_nil, List.count_eq_zero.mpr]
    · simp [PendingRead.marks, hother]
    · simp
    · intro o ho
      obtain ⟨x, -, rfl⟩ := List.mem_map.mp ho
      rfl

end

theorem opens_iff {id : UploadReadId} {o : Output} :
    Output.opens id o = true ↔ ∃ range, o = .readForUpload id range := by
  cases o <;> simp [Output.opens]

theorem openings_pos_iff {id : UploadReadId} {outputs : List Output} :
    0 < outputs.countP (Output.opens id) ↔ ∃ range, .readForUpload id range ∈ outputs := by
  rw [List.countP_pos_iff]
  constructor
  · rintro ⟨o, ho, hopens⟩
    obtain ⟨range, rfl⟩ := opens_iff.mp hopens
    exact ⟨range, ho⟩
  · rintro ⟨range, ho⟩
    exact ⟨_, ho, opens_iff.mpr ⟨range, rfl⟩⟩

theorem Sharing.sole {i : Input} {q : ReadQueue} {outputs : List Output}
    (h : Sharing s i q outputs) {id : UploadReadId} {range : BlockRange}
    (ho : .readForUpload id range ∈ outputs) : outputs.length = 1 := by
  cases h with
  | opened _ _ _ _ _ _ _ hout => rw [hout, List.length_singleton]
  | keep | joined | left =>
    rename_i hout
    subst hout
    contradiction
  | abandoned | dropped | cleared | completed =>
    rename_i hout
    subst hout
    simp at ho

theorem Sharing.openings_le {i : Input} {q : ReadQueue} {outputs : List Output}
    (h : Sharing s i q outputs) (id : UploadReadId) : outputs.countP (Output.opens id) ≤ 1 := by
  by_contra hmany
  obtain ⟨range, ho⟩ := openings_pos_iff.mp (by omega : 0 < outputs.countP (Output.opens id))
  have hle := List.countP_le_length (p := Output.opens id) (l := outputs)
  rw [h.sole ho] at hle
  exact hmany hle

theorem countP_opens_of_not_mem {id : UploadReadId} {outputs : List Output}
    (h : ∀ range, .readForUpload id range ∉ outputs) : outputs.countP (Output.opens id) = 0 := by
  by_contra hpos
  obtain ⟨range, ho⟩ := openings_pos_iff.mp (Nat.pos_of_ne_zero hpos)
  exact h range ho

theorem accepted_pendingReads {range : BlockRange} {read : PendingRead}
    (hget : s.pendingReads.get range = some read) (data : Bytes) (env : Entropy) :
    (s.onUploadReadCompleted env read.id range data).1.pendingReads =
      s.pendingReads.remove range := by
  simp only [onUploadReadCompleted, hget, ne_eq, not_true_eq_false, if_false]
  split <;> rfl

theorem accepted_balance {range : BlockRange} {read : PendingRead}
    (hget : s.pendingReads.get range = some read) (data : Bytes) (env : Entropy) :
    s.waiting read.id = 1 + (s.onUploadReadCompleted env read.id range data).1.waiting read.id ∧
      ∀ o ∈ (s.onUploadReadCompleted env read.id range data).2,
        ∃ x, o = .sendToPeer x (.piece range data) := by
  refine ⟨?_, fun o ho => ?_⟩
  · unfold waiting
    rw [accepted_pendingReads hget, HashMap.weight_remove _ hget]
    simp [PendingRead.marks]
  · rcases onUploadReadCompleted_cases env s read.id range data with hs | ⟨_, addrs, hs⟩
    · rw [hs] at ho
      contradiction
    · rw [hs] at ho
      obtain ⟨x, -, rfl⟩ := List.mem_map.mp ho
      exact ⟨x, rfl⟩

theorem balance_step (sha1 : Sha1) (ha : Accounted s) (inp : Input × Entropy) (id : UploadReadId) :
    openings id ⟨s, inp, (step sha1 s inp).2⟩ + s.waiting id =
      closings id ⟨s, inp, (step sha1 s inp).2⟩ + (step sha1 s inp).1.waiting id := by
  have hs := sharing_step sha1 ha inp
  cases ht : takes id ⟨s, inp, (step sha1 s inp).2⟩ with
  | false =>
    have hbalance := hs.balance id fun range data read hi hget hid => by
      have htakes := (takes_iff (e := ⟨s, inp, (step sha1 s inp).2⟩)).mpr
        ⟨range, data, read, hi, hget, hid⟩
      rw [ht] at htakes
      contradiction
    rw [countP_opens_served, count_cancel_served] at hbalance
    simp only [openings, closings, ht, Bool.toNat_false, Nat.add_zero]
    exact hbalance
  | true =>
    obtain ⟨range, data, read, hi, hget, rfl⟩ := takes_iff.mp ht
    obtain ⟨input, env⟩ := inp
    simp only at hi
    subst hi
    obtain ⟨hwaiting, hsent⟩ := accepted_balance hget data env
    have hopens : (step sha1 s (.uploadReadCompleted read.id range data, env)).2.countP
        (Output.opens read.id) = 0 := countP_opens_nil fun o ho => by
      obtain ⟨x, rfl⟩ := hsent o ho
      rfl
    have hcancels : (step sha1 s (.uploadReadCompleted read.id range data, env)).2.count
        (.cancelUploadRead read.id) = 0 := List.count_eq_zero.mpr fun ho => by
      obtain ⟨x, hx⟩ := hsent _ ho
      contradiction
    simp only [openings, closings, ht, Bool.toNat_true, hcancels, hopens, Nat.zero_add]
    exact hwaiting

section

variable {clientId : PeerId} {metainfo : Metainfo} {h : Trace}

theorem history_balance (hist : History (step sha1) (Started clientId metainfo) h s)
    (id : UploadReadId) :
    (h.map (openings id)).sum = (h.map (closings id)).sum + s.waiting id := by
  induction hist with
  | start hs =>
    unfold waiting
    rw [(started_fields hs).2.2.2.2.2]
    rfl
  | @next h s i hist ih =>
    have hstep := balance_step sha1 (reachable_accounted ⟨h, hist⟩) i id
    simp only [List.map_cons, List.sum_cons]
    omega

theorem history_openings (hist : History (step sha1) (Started clientId metainfo) h s)
    (id : UploadReadId) : (h.map (openings id)).sum ≤ 1 ∧
      (s.nextUploadReadId ≤ id.value → (h.map (openings id)).sum = 0) := by
  induction hist with
  | start hs => exact ⟨Nat.zero_le 1, fun _ => rfl⟩
  | @next h s i hist ih =>
    have hs := sharing_step sha1 (reachable_accounted ⟨h, hist⟩) i
    have hle := hs.openings_le id
    have hnext := hs.next_le
    have hpos : 0 < openings id ⟨s, i, (step sha1 s i).2⟩ → id.value = s.nextUploadReadId ∧
        (step sha1 s i).1.nextUploadReadId = s.nextUploadReadId + 1 := by
      intro hpos
      obtain ⟨range, ho⟩ := openings_pos_iff.mp hpos
      have hissued := issued_of_output (reachable_uploadQueue ⟨h, hist⟩) hs
        ((mem_served rfl).mpr ho)
      exact ⟨hissued.1, hissued.2.1⟩
    rw [countP_opens_served] at hle
    simp only [readQueue] at hnext
    simp only [List.map_cons, List.sum_cons]
    have hle' : openings id ⟨s, i, (step sha1 s i).2⟩ ≤ 1 := hle
    omega

end

theorem request_sole {inp : Input × Entropy} {id : UploadReadId} {range : BlockRange}
    (ho : .readForUpload id range ∈ (step sha1 s inp).2) :
    (step sha1 s inp).2 = [.readForUpload id range] := by
  obtain ⟨input, env⟩ := inp
  rcases step_uploads sha1 s _ ho rfl with ⟨x, _, range', hi, -⟩ | ⟨x, _, _, _, -, heq⟩
  · simp only at hi
    subst hi
    simp only [step] at ho ⊢
    rcases onMessage_cases sha1 env s x (.request range') with
      ⟨_, -, -, hout⟩ | ⟨r, -, -, hout⟩ | ⟨r, -, haffects, -⟩
    · have hfalse := hout _ ho
      contradiction
    · rw [hout] at ho ⊢
      simp only [handleMessage] at ho ⊢
      rcases onMessageRequest_cases { s with peerRegistry := r } x range' with
        hnone | ⟨-, -, -, hone⟩
      · rw [hnone] at ho
        contradiction
      · rw [hone] at ho ⊢
        rw [List.mem_singleton.mp ho]
    · contradiction
  · contradiction

theorem closing_waiting (ha : Accounted s) (inp : Input × Entropy) (id : UploadReadId)
    (hpos : 0 < closings id ⟨s, inp, (step sha1 s inp).2⟩) : 0 < s.waiting id := by
  have hbalance := balance_step sha1 ha inp id
  rcases Nat.eq_zero_or_pos (openings id ⟨s, inp, (step sha1 s inp).2⟩) with hzero | hopens
  · omega
  · obtain ⟨range, ho⟩ := openings_pos_iff.mp hopens
    have hsole := request_sole ho
    have htakes : takes id ⟨s, inp, (step sha1 s inp).2⟩ = false := by
      refine takes_eq_false fun r data hi => ?_
      rcases step_uploads sha1 s _ ho rfl with ⟨x, id', range', hi', -⟩ | ⟨x, _, _, _, -, heq⟩
      · simp only at hi
        rw [hi] at hi'
        contradiction
      · contradiction
    have hcancels : (step sha1 s inp).2.count (.cancelUploadRead id) = 0 := by
      rw [hsole]
      simp
    simp only [closings, htakes, hcancels, Bool.toNat_false] at hpos
    contradiction

theorem waiting_le {clientId : PeerId} {metainfo : Metainfo}
    (hr : Reachable sha1 clientId metainfo s) (id : UploadReadId) : s.waiting id ≤ 1 := by
  obtain ⟨h, hist⟩ := hr
  have hbalance := history_balance hist id
  have hopenings := (history_openings hist id).1
  omega

theorem openings_restored {inp : Input × Entropy} (h : ∃ j data, inp.1 = .localPiece j data)
    (id : UploadReadId) : openings id ⟨s, inp, (step sha1 s inp).2⟩ = 0 := by
  refine countP_opens_of_not_mem fun range ho => ?_
  obtain ⟨j, data, hi⟩ := h
  rcases step_uploads sha1 s _ ho rfl with ⟨_, _, _, hi', -⟩ | ⟨_, _, _, _, hi', -⟩
  · rw [hi] at hi'
    contradiction
  · rw [hi] at hi'
    contradiction

theorem waiting_restored {clientId : PeerId} {metainfo : Metainfo} {h : Trace}
    (hist : History (step sha1) (Started clientId metainfo) h s)
    (hlocal : ∀ e ∈ h, ∃ j data, e.input.1 = .localPiece j data) (id : UploadReadId) :
    s.waiting id = 0 := by
  induction hist with
  | start hs =>
    unfold waiting
    rw [(started_fields hs).2.2.2.2.2]
    rfl
  | @next h s i hist ih =>
    have hbefore := ih fun e he => hlocal e (List.mem_cons_of_mem _ he)
    have hbalance := balance_step sha1 (reachable_accounted ⟨h, hist⟩) i id
    rw [openings_restored (hlocal _ (List.mem_cons_self ..))] at hbalance
    omega

end Swarm

end Tortue
