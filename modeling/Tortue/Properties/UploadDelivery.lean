import Tortue.Properties.UploadQueue

namespace Tortue

open Collections PieceManager

namespace Swarm

variable {sha1 : Sha1} {s : Swarm}

def Issued (s : Swarm) (id : UploadReadId) (range : BlockRange) : Prop :=
  id.value < s.nextUploadReadId ∧
    ∀ r read, s.pendingReads.get r = some read → read.id = id → r = range

def Closed (s : Swarm) (id : UploadReadId) : Prop :=
  id.value < s.nextUploadReadId ∧ ∀ r read, s.pendingReads.get r = some read → read.id ≠ id

section

variable {i : Input} {q : ReadQueue} {outputs : List Output} {id : UploadReadId}
  {range : BlockRange}

theorem Sharing.entry_old (h : Sharing s i q outputs) (hid : id.value < s.nextUploadReadId)
    {read : PendingRead} (hread : q.pending.get range = some read) (heq : read.id = id) :
    ∃ before, s.pendingReads.get range = some before ∧ before.id = id := by
  rcases h.entry hread with ⟨before, hget, hrev⟩ | ⟨x, -, -, rfl, -⟩
  · exact ⟨before, hget, hrev.id.symm.trans heq⟩
  · subst heq
    exact absurd hid (Nat.lt_irrefl _)

theorem issued_step (ha : Accounted s) (h : s.Issued id range) (inp : Input × Entropy) :
    (step sha1 s inp).1.Issued id range := by
  have hs := sharing_step sha1 ha inp
  refine ⟨Nat.lt_of_lt_of_le h.1 hs.next_le, fun r read hread heq => ?_⟩
  obtain ⟨before, hget, hid⟩ := hs.entry_old h.1 hread heq
  exact h.2 r before hget hid

theorem closed_step (ha : Accounted s) (h : s.Closed id) (inp : Input × Entropy) :
    (step sha1 s inp).1.Closed id := by
  have hs := sharing_step sha1 ha inp
  refine ⟨Nat.lt_of_lt_of_le h.1 hs.next_le, fun r read hread heq => ?_⟩
  obtain ⟨before, hget, hid⟩ := hs.entry_old h.1 hread heq
  exact h.2 r before hget hid

theorem issued_of_output (hq : UploadQueue s) (h : Sharing s i q outputs)
    (ho : .readForUpload id range ∈ outputs) :
    id.value = s.nextUploadReadId ∧ q.next = s.nextUploadReadId + 1 ∧
      ∀ r read, q.pending.get r = some read → read.id = id → r = range := by
  cases h with
  | opened x range' hi hreq hroom hget hqueue hout =>
    subst hout hqueue
    rw [List.mem_singleton, Output.readForUpload.injEq] at ho
    obtain ⟨rfl, rfl⟩ := ho
    refine ⟨rfl, rfl, fun r read hread heq => ?_⟩
    rcases get_insert_cases hread with ⟨rfl, -⟩ | ⟨hold, -⟩
    · rfl
    · have hfresh := hq.fresh r read hold
      rw [heq] at hfresh
      exact absurd hfresh (Nat.lt_irrefl _)
  | keep | joined | left =>
    rename_i hout
    subst hout
    contradiction
  | abandoned =>
    rename_i hout
    subst hout
    simp at ho
  | dropped | cleared | completed =>
    rename_i hout
    subst hout
    simp at ho

theorem closed_of_output (hq : UploadQueue s) (h : Sharing s i q outputs)
    (ho : .cancelUploadRead id ∈ outputs) :
    (∃ range before, s.pendingReads.get range = some before ∧ before.id = id) ∧
      ∀ r read, q.pending.get r = some read → read.id ≠ id := by
  cases h with
  | keep | joined | left =>
    rename_i hout
    subst hout
    contradiction
  | opened | completed =>
    rename_i hout
    subst hout
    simp at ho
  | abandoned x range before hi hget hw hqueue hout =>
    subst hout hqueue
    rw [List.mem_singleton, Output.cancelUploadRead.injEq] at ho
    subst ho
    refine ⟨⟨range, before, hget, rfl⟩, fun r read hread heq => ?_⟩
    obtain ⟨hold, hne⟩ := get_remove_some hread
    exact hne (hq.distinct r range read before hold hget heq)
  | dropped x reads hi honly hperm hqueue hout =>
    subst hout hqueue
    obtain ⟨before, hmem, heq⟩ := List.mem_map.mp ho
    rw [Output.cancelUploadRead.injEq] at heq
    subst heq
    obtain ⟨hvalue, hnone⟩ := List.mem_filter.mp (hperm.mem_iff.mp hmem)
    obtain ⟨range, hget⟩ := HashMap.mem_values_iff.mp hvalue
    refine ⟨⟨range, before, hget, rfl⟩, fun r read hread heq => ?_⟩
    rw [HashMap.get_retain] at hread
    obtain ⟨before', hget', hw⟩ := Option.bind_eq_some_iff.mp hread
    have hid : before'.id = before.id := by rw [← heq, (withoutPeer_some hw).2]
    obtain rfl := hq.distinct r range before' before hget' hget hid
    rw [hget, Option.some.injEq] at hget'
    rw [hget', hw] at hnone
    contradiction
  | cleared status reads hi hdown hperm hqueue hout =>
    subst hout hqueue
    obtain ⟨before, hmem, heq⟩ := List.mem_map.mp ho
    rw [Output.cancelUploadRead.injEq] at heq
    obtain ⟨range, hget⟩ := HashMap.mem_values_iff.mp (hperm.mem_iff.mp hmem)
    exact ⟨⟨range, before, hget, heq⟩, fun r read hread => by contradiction⟩

end

def Opens (x : SocketAddr) (range : BlockRange) (e : Happening) : Prop :=
  e.input.1 = .messageReceived x (.request range) ∧ e.before.Requested x range

def Closes (x : SocketAddr) (range : BlockRange) (e : Happening) : Prop :=
  e.before.Withdraws x range e.input.1 ∨ ∃ data, .sendToPeer x (.piece range data) ∈ e.outputs

theorem reads_sharing {i : Input} {q : ReadQueue} {outputs : List Output}
    (h : Sharing s i q outputs) {x : SocketAddr} {range : BlockRange} {read : PendingRead}
    (hread : q.pending.get range = some read) (hx : read.peers.contains x = true) :
    (s.Reads range x ∧ ¬ s.Withdraws x range i ∧
      ∀ data, .sendToPeer x (.piece range data) ∉ outputs) ∨
    i = .messageReceived x (.request range) ∧ s.Requested x range := by
  have hrequest : ∀ y r, i = .messageReceived y (.request r) → ¬ s.Withdraws x range i := by
    rintro y r rfl
    simp [withdraws_message]
  cases h with
  | keep hquiet hqueue hout =>
    subst hqueue hout
    exact .inl ⟨⟨read, hread, hx⟩, hquiet x range ⟨read, hread, hx⟩, by simp⟩
  | opened y range' hi hreq hroom hget hqueue hout =>
    subst hqueue hout
    rcases get_insert_cases hread with ⟨rfl, rfl⟩ | ⟨hold, hne⟩
    · have hxy : x = y := by simpa using hx
      exact .inr ⟨hxy ▸ hi, hxy ▸ hreq⟩
    · exact .inl ⟨⟨read, hold, hx⟩, hrequest y range' hi, by simp⟩
  | joined y range' before hi hreq hroom hget hqueue hout =>
    subst hqueue hout
    rcases get_insert_cases hread with ⟨rfl, rfl⟩ | ⟨hold, hne⟩
    · simp only [HashSet.contains_add, Bool.or_eq_true, decide_eq_true_eq] at hx
      rcases hx with rfl | hx
      · exact .inr ⟨hi, hreq⟩
      · exact .inl ⟨⟨before, hget, hx⟩, hrequest y range hi, by simp⟩
    · exact .inl ⟨⟨read, hold, hx⟩, hrequest y range' hi, by simp⟩
  | left y range' before read' hi hget hw hqueue hout =>
    subst hqueue hout
    have hother : (x, range) ≠ (y, range') → ¬ s.Withdraws x range i := by
      subst hi
      intro hne hwithdraws
      obtain ⟨hy, heq⟩ := withdraws_message.mp hwithdraws
      exact hne (Prod.ext hy.symm (Message.cancel.inj heq).symm)
    rcases get_insert_cases hread with ⟨rfl, rfl⟩ | ⟨hold, hne⟩
    · rw [(withoutPeer_some hw).2] at hx
      simp only [HashSet.contains_remove, Bool.and_eq_true, decide_eq_true_eq] at hx
      refine .inl ⟨⟨before, hget, hx.2⟩, hother fun heq => ?_, by simp⟩
      exact hx.1 (Prod.ext_iff.mp heq).1
    · refine .inl ⟨⟨read, hold, hx⟩, hother fun heq => ?_, by simp⟩
      exact hne (Prod.ext_iff.mp heq).2
  | abandoned y range' before hi hget hw hqueue hout =>
    subst hqueue hout
    obtain ⟨hold, hne⟩ := get_remove_some hread
    refine .inl ⟨⟨read, hold, hx⟩, ?_, by simp⟩
    subst hi
    intro hwithdraws
    exact hne (Message.cancel.inj (withdraws_message.mp hwithdraws).2).symm
  | dropped y reads hi honly hperm hqueue hout =>
    subst hqueue hout
    rw [HashMap.get_retain] at hread
    obtain ⟨before, hget, hw⟩ := Option.bind_eq_some_iff.mp hread
    rw [(withoutPeer_some hw).2] at hx
    simp only [HashSet.contains_remove, Bool.and_eq_true, decide_eq_true_eq] at hx
    refine .inl ⟨⟨before, hget, hx.2⟩, ?_, by simp⟩
    rintro (hleaves | rfl | ⟨_, rfl, -⟩)
    · exact hx.1 (honly x hleaves)
    · contradiction
    · contradiction
  | cleared status reads hi hdown hperm hqueue hout =>
    subst hqueue
    contradiction
  | completed id range' data before addrs hi hget hid hnodup hin hqueue hout =>
    subst hqueue hout
    obtain ⟨hold, hne⟩ := get_remove_some hread
    refine .inl ⟨⟨read, hold, hx⟩, ?_, fun data' hmem => ?_⟩
    · subst hi
      exact not_withdraws (fun h => h) (by simp) (by simp)
    · obtain ⟨z, -, heq⟩ := List.mem_map.mp hmem
      simp only [Output.sendToPeer.injEq, Message.piece.injEq] at heq
      exact hne heq.2.1.symm

section

variable {clientId : PeerId} {metainfo : Metainfo} {h : Trace}

theorem reads_since (hist : History (step sha1) (Started clientId metainfo) h s) {x : SocketAddr}
    {range : BlockRange} (hread : s.Reads range x) :
    Since (Opens x range) (Closes x range) h := by
  induction hist with
  | start hs =>
    obtain ⟨read, hget, -⟩ := hread
    rw [(started_fields hs).2.2.2.2.2] at hget
    contradiction
  | @next h s i hist ih =>
    obtain ⟨read, hget, hx⟩ := hread
    have hs := sharing_step sha1 (reachable_accounted ⟨h, hist⟩) i
    rcases reads_sharing hs hget hx with ⟨hold, hkept, hsilent⟩ | ⟨hi, hreq⟩
    · refine since_cons.mpr (.inl ⟨ih hold, ?_⟩)
      rintro (hw | ⟨data, hdata⟩)
      · exact hkept hw
      · exact hsilent data ((mem_served rfl).mpr hdata)
    · exact since_cons.mpr (.inr ⟨hi, hreq⟩)

theorem pending_issued (hist : History (step sha1) (Started clientId metainfo) h s)
    {range : BlockRange} {read : PendingRead} (hread : s.pendingReads.get range = some read) :
    ∃ f ∈ h, .readForUpload read.id range ∈ f.outputs := by
  induction hist generalizing read with
  | start hs =>
    rw [(started_fields hs).2.2.2.2.2] at hread
    contradiction
  | @next h s i hist ih =>
    have hs := sharing_step sha1 (reachable_accounted ⟨h, hist⟩) i
    rcases hs.entry hread with ⟨before, hget, hrev⟩ | ⟨x, hi, hreq, rfl, hnext, hout⟩
    · obtain ⟨f, hf, hout⟩ := ih hget
      exact ⟨f, List.mem_cons_of_mem _ hf, hrev.id ▸ hout⟩
    · refine ⟨_, List.mem_cons_self .., (mem_served rfl).mp ?_⟩
      rw [hout]
      exact List.mem_singleton_self _

theorem stable_of_event {P : Swarm → Prop}
    (hist : History (step sha1) (Started clientId metainfo) h s) {e : Happening} (he : e ∈ h)
    (hstep : ∀ t i, Accounted t → P t → P (step sha1 t i).1)
    (hafter : ∀ older, History (step sha1) (Started clientId metainfo) older e.before →
      e.outputs = (step sha1 e.before e.input).2 → P (step sha1 e.before e.input).1) : P s := by
  obtain ⟨newer, older, hh⟩ := List.mem_iff_append.mp he
  obtain ⟨hbefore, hout⟩ := hist.event_before hh
  have hboth : Accounted s ∧ P s := by
    refine (hist.stable_after (P := fun t => Accounted t ∧ P t) (fun t i ht => ?_) hh ?_).2
    · exact ⟨ht.1.step sha1 t i, hstep t i ht.1 ht.2⟩
    · exact ⟨(reachable_accounted ⟨_, hbefore⟩).step sha1 _ _, hafter older hbefore hout⟩
  exact hboth.2

theorem issued_of_event (hist : History (step sha1) (Started clientId metainfo) h s)
    {e : Happening} (he : e ∈ h) {id : UploadReadId} {range : BlockRange}
    (hout : .readForUpload id range ∈ e.outputs) : s.Issued id range := by
  refine stable_of_event hist he (fun t i ha ht => issued_step ha ht i) fun older hbefore heq => ?_
  rw [heq, ← mem_served rfl] at hout
  have hreach : Reachable sha1 clientId metainfo e.before := ⟨older, hbefore⟩
  obtain ⟨hid, hnext, honly⟩ := issued_of_output (reachable_uploadQueue hreach)
    (sharing_step sha1 (reachable_accounted hreach) e.input) hout
  refine ⟨?_, honly⟩
  rw [hid]
  exact Nat.lt_of_lt_of_eq (Nat.lt_succ_self _) hnext.symm

theorem closed_of_cancel (hist : History (step sha1) (Started clientId metainfo) h s)
    {e : Happening} (he : e ∈ h) {id : UploadReadId} (hout : .cancelUploadRead id ∈ e.outputs) :
    s.Closed id := by
  refine stable_of_event hist he (fun t i ha ht => closed_step ha ht i) fun older hbefore heq => ?_
  rw [heq, ← mem_served rfl] at hout
  have hreach : Reachable sha1 clientId metainfo e.before := ⟨older, hbefore⟩
  have hq := reachable_uploadQueue hreach
  have hs := sharing_step sha1 (reachable_accounted hreach) e.input
  obtain ⟨⟨range, before, hget, rfl⟩, honly⟩ := closed_of_output hq hs hout
  exact ⟨Nat.lt_of_lt_of_le (hq.fresh range before hget) hs.next_le, honly⟩

theorem closed_completion {id : UploadReadId} {range : BlockRange}
    (hissued : s.Issued id range) (data : Bytes) (env : Entropy) :
    (s.onUploadReadCompleted env id range data).1.Closed id := by
  simp only [onUploadReadCompleted]
  split
  · next hnone =>
    refine ⟨hissued.1, fun r read hread heq => ?_⟩
    obtain rfl := hissued.2 r read hread heq
    rw [hread] at hnone
    contradiction
  · next before hget =>
    have hremoved : ∀ r read, (s.pendingReads.remove range).get r = some read → read.id ≠ id := by
      intro r read hread heq
      obtain ⟨hold, hne⟩ := get_remove_some hread
      exact hne (hissued.2 r read hold heq)
    split_ifs with hid hup
    · refine ⟨hissued.1, fun r read hread heq => ?_⟩
      obtain rfl := hissued.2 r read hread heq
      rw [hget, Option.some.injEq] at hread
      exact hid (hread ▸ heq)
    · exact ⟨hissued.1, hremoved⟩
    · exact ⟨hissued.1, hremoved⟩

theorem closed_of_completion (hist : History (step sha1) (Started clientId metainfo) h s)
    {newer older : Trace} {e f : Happening} (hh : h = newer ++ e :: older) (hf : f ∈ older)
    {id : UploadReadId} {range : BlockRange} {data : Bytes}
    (hi : e.input.1 = .uploadReadCompleted id range data)
    (hout : .readForUpload id range ∈ f.outputs) : s.Closed id := by
  obtain ⟨hbefore, -⟩ := hist.event_before hh
  have hissued := issued_of_event hbefore hf hout
  have he : e ∈ h := hh ▸ List.mem_append_right _ (List.mem_cons_self ..)
  refine stable_of_event hist he (fun t i ha ht => closed_step ha ht i) fun older' hbefore' _ => ?_
  have hstep : (step sha1 e.before e.input).1 =
      (e.before.onUploadReadCompleted e.input.2 id range data).1 := by
    simp only [step, hi]
  rw [hstep]
  exact closed_completion hissued data e.input.2

theorem closed_completed {id : UploadReadId} (hc : s.Closed id) (range : BlockRange)
    (data : Bytes) (env : Entropy) :
    step sha1 s (.uploadReadCompleted id range data, env) = (s, []) := by
  simp only [step, onUploadReadCompleted]
  split
  · rfl
  · next read hget =>
    rw [if_pos (hc.2 range read hget)]

structure Delivery where
  position : Nat
  addr : SocketAddr
  range : BlockRange

def Delivered (h : Trace) (d : Delivery) : Prop :=
  ∃ e data, h.reverse[d.position]? = some e ∧ .sendToPeer d.addr (.piece d.range data) ∈ e.outputs

def Finished (h : Trace) (id : UploadReadId) : Prop :=
  (∃ e ∈ h, .cancelUploadRead id ∈ e.outputs) ∨
    ∃ newer e older range data, h = newer ++ e :: older ∧
      e.input.1 = .uploadReadCompleted id range data ∧
      ∃ f ∈ older, .readForUpload id range ∈ f.outputs

theorem delivery_answers (hist : History (step sha1) (Started clientId metainfo) h s)
    {d : Delivery} (hd : Delivered h d) :
    ∃ k, Answers (Opens d.addr d.range) (Closes d.addr d.range) h k d.position := by
  obtain ⟨e, data, hposition, hout⟩ := hd
  obtain ⟨newer, older, hh, hlen⟩ := position_iff.mp hposition
  obtain ⟨hbefore, heq⟩ := hist.event_before hh
  rw [heq, ← mem_served rfl] at hout
  have hs := sharing_step sha1 (reachable_accounted ⟨older, hbefore⟩) e.input
  obtain ⟨read, -, hget, hx, -⟩ := delivered_of_output hs hout
  have hsince := reads_since hbefore ⟨read, hget, hx⟩
  obtain ⟨k, hk⟩ := answers_of_since newer e hsince
  exact ⟨k, hlen ▸ hh ▸ hk⟩

theorem delivery_unique {d d' : Delivery} (hd : Delivered h d) (hd' : Delivered h d') {k : Nat}
    (hk : Answers (Opens d.addr d.range) (Closes d.addr d.range) h k d.position)
    (hk' : Answers (Opens d'.addr d'.range) (Closes d'.addr d'.range) h k d'.position) :
    d = d' := by
  obtain ⟨n, x, range⟩ := d
  obtain ⟨n', x', range'⟩ := d'
  obtain ⟨e, he, hopens, -⟩ := hk.opens
  obtain ⟨e', he', hopens', -⟩ := hk'.opens
  rw [he, Option.some.injEq] at he'
  subst he'
  rw [hopens, Input.messageReceived.injEq, Message.request.injEq] at hopens'
  obtain ⟨rfl, rfl⟩ := hopens'
  obtain ⟨f, data, hf, hout⟩ := hd
  obtain ⟨f', data', hf', hout'⟩ := hd'
  have hposition : n = n' := hk.unique hk' hf hf' (.inr ⟨data, hout⟩) (.inr ⟨data', hout'⟩)
  rw [hposition]

theorem uploads_match_requests (hist : History (step sha1) (Started clientId metainfo) h s) :
    (∃ request : Delivery → Nat,
      (∀ d, Delivered h d →
        Answers (Opens d.addr d.range) (Closes d.addr d.range) h (request d) d.position) ∧
      ∀ d d', Delivered h d → Delivered h d' → request d = request d' → d = d') ∧
    (∀ newer e older, h = newer ++ e :: older → ∀ x range data,
      .sendToPeer x (.piece range data) ∈ e.outputs →
      e.outputs.count (.sendToPeer x (.piece range data)) = 1 ∧
      (∀ data', .sendToPeer x (.piece range data') ∈ e.outputs → data' = data) ∧
      ∃ id, e.input.1 = .uploadReadCompleted id range data ∧
        ∃ f ∈ older, .readForUpload id range ∈ f.outputs) ∧
    ∀ id, Finished h id → ∀ range data env,
      step sha1 s (.uploadReadCompleted id range data, env) = (s, []) := by
  refine ⟨?_, ?_, ?_⟩
  · have hall : ∀ d, Delivered h d →
        ∃ k, Answers (Opens d.addr d.range) (Closes d.addr d.range) h k d.position :=
      fun d hd => delivery_answers hist hd
    choose! request hrequest using hall
    refine ⟨request, hrequest, fun d d' hd hd' heq => ?_⟩
    have hk := hrequest d hd
    rw [heq] at hk
    exact delivery_unique hd hd' hk (hrequest d' hd')
  · intro newer e older hh x range data hout
    obtain ⟨hbefore, heq⟩ := hist.event_before hh
    have hs := sharing_step sha1 (reachable_accounted ⟨older, hbefore⟩) e.input
    have hserved := hout
    rw [heq, ← mem_served rfl] at hserved
    obtain ⟨read, hi, hget, -, hcount, honly⟩ := delivered_of_output hs hserved
    refine ⟨?_, fun data' hout' => ?_, read.id, hi, pending_issued hbefore hget⟩
    · rw [heq, ← hcount, served, List.count_filter rfl]
    · rw [heq, ← mem_served rfl] at hout'
      obtain ⟨y, hy⟩ := honly _ hout'
      simp only [Output.sendToPeer.injEq, Message.piece.injEq] at hy
      exact hy.2.2
  · rintro id (⟨e, he, hout⟩ | ⟨newer, e, older, r, d, hh, hi, f, hf, hout⟩) range data env
    · exact closed_completed (closed_of_cancel hist he hout) range data env
    · exact closed_completed (closed_of_completion hist hh hf hi hout) range data env

end

end Swarm

namespace Sample

def answering : List (Input × Entropy) :=
  asking ++ [(.uploadReadCompleted ⟨0⟩ ⟨0, 0, 2⟩ [1, 2], env)]

end Sample

namespace Swarm

theorem asked_piece_delivered : ∃ request : Delivery → Nat,
    Answers (Opens (Sample.addr 81) ⟨0, 0, 2⟩) (Closes (Sample.addr 81) ⟨0, 0, 2⟩)
      (History.events (step Sample.sha1) Sample.swarm Sample.answering)
      (request ⟨6, Sample.addr 81, ⟨0, 0, 2⟩⟩) 6 := by
  obtain ⟨request, hanswers, -⟩ := (uploads_match_requests (Sample.history Sample.answering)).1
  refine ⟨request, hanswers ⟨6, Sample.addr 81, ⟨0, 0, 2⟩⟩ ⟨_, [1, 2], rfl, ?_⟩⟩
  decide +kernel

end Swarm

end Tortue
