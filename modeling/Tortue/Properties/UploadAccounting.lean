import Tortue.Properties.UploadDelivery

namespace Tortue

open Collections

def Input.requestedBytes (x : SocketAddr) : Input → Nat
  | .messageReceived y (.request range) => if y = x then range.len else 0
  | _ => 0

namespace Swarm

variable {sha1 : Sha1} {s : Swarm} {x : SocketAddr}

def sentBytes (receives : SocketAddr → Bool) (h : Trace) : Nat :=
  (h.map fun e => (e.outputs.map (Output.pieceBytes receives)).sum).sum

def requestedBytes (x : SocketAddr) (h : Trace) : Nat :=
  (h.map fun e => e.input.1.requestedBytes x).sum

def SwarmSnapshot.Reports (snapshot : SwarmSnapshot) (x : SocketAddr) (bytes : Nat) : Prop :=
  ∃ downloaded, (x, bytes, downloaded) ∈ snapshot.peers

theorem reports_iff {bytes : Nat} : s.snapshot.Reports x bytes ↔
    ∃ p, s.peerRegistry.peers.get x = some p ∧ p.bytesUploaded = bytes := by
  unfold SwarmSnapshot.Reports snapshot PeerRegistry.peerStats
  constructor
  · rintro ⟨downloaded, hmem⟩
    obtain ⟨⟨y, p⟩, hp, heq⟩ := List.mem_map.mp hmem
    obtain ⟨rfl, rfl, -⟩ := by simpa only [Prod.mk.injEq] using heq
    exact ⟨p, HashMap.mem_entries_iff.mp hp, rfl⟩
  · rintro ⟨p, hp, rfl⟩
    exact ⟨p.bytesDownloaded, List.mem_map.mpr ⟨(x, p), HashMap.mem_entries_iff.mpr hp, rfl⟩⟩

theorem reports_unique {m n : Nat} (hm : s.snapshot.Reports x m) (hn : s.snapshot.Reports x n) :
    m = n := by
  obtain ⟨p, hp, rfl⟩ := reports_iff.mp hm
  obtain ⟨q, hq, rfl⟩ := reports_iff.mp hn
  rw [hp, Option.some.injEq] at hq
  rw [hq]

structure Session (x : SocketAddr) (newer : Trace) (e : Happening) (s : Swarm) : Prop where
  accepted : ∃ extensions, e.before.Accepts x extensions e.input.1
  free : e.before.peerRegistry.containsAddr x = false
  single : ∀ f ∈ newer, ∀ extensions, ¬ f.before.Accepts x extensions f.input.1
  stayed : ∀ f ∈ newer, f.before.peerRegistry.containsAddr x = true
  registered : s.peerRegistry.containsAddr x = true

theorem Session.earlier {newer : Trace} {e f : Happening} (h : Session x (f :: newer) e s) :
    Session x newer e f.before where
  accepted := h.accepted
  free := h.free
  single g hg := h.single g (List.mem_cons_of_mem _ hg)
  stayed g hg := h.stayed g (List.mem_cons_of_mem _ hg)
  registered := h.stayed f (List.mem_cons_self ..)

theorem reports_connected {i : Input × Entropy} {e : PeerExtensions} (hi : s.Accepts x e i.1) :
    (step sha1 s i).1.snapshot.Reports x 0 := by
  obtain ⟨id, d, hinput, hrefused⟩ := hi
  have hconnected : ∀ t : Swarm, (t.register x d id e).1.snapshot.Reports x 0 := fun t =>
    reports_iff.mpr ⟨PeerState.new id e, by simp [register, PeerRegistry.connected], rfl⟩
  simp only [step, hinput]
  rcases onConnected_cases i.2 s x d id e with ⟨-, hs⟩ | ⟨old, hb, hd, -⟩ | ⟨old, -, -, hs⟩
  · rw [hs]
    exact hconnected s
  · exact absurd ⟨old, hb, hd⟩ hrefused
  · rw [hs]
    exact hconnected _

theorem reports_applied {r : PeerRegistry} {y : SocketAddr} {m : Message} {p : PeerState}
    (hp : s.peerRegistry.peers.get x = some p) (ha : s.peerRegistry.apply y m = .ok r) :
    ∃ q, r.peers.get x = some q ∧
      q.bytesUploaded = Input.requestedBytes x (.messageReceived y m) + p.bytesUploaded := by
  obtain ⟨p', hp', -, hpeers, -, -⟩ := PeerRegistry.apply_ok ha
  rw [hpeers]
  by_cases hxy : y = x
  · subst hxy
    rw [hp, Option.some.injEq] at hp'
    subst hp'
    refine ⟨p.apply m, by simp, ?_⟩
    cases m <;> simp [PeerState.apply, Input.requestedBytes, Nat.add_comm]
  · refine ⟨p, by simp [HashMap.get_insert, Ne.symm hxy, hp], ?_⟩
    cases m <;> simp [Input.requestedBytes, hxy]

theorem requestedBytes_of_error {y : SocketAddr} {m : Message} {reason : RejectReason}
    {p : PeerState} (hp : s.peerRegistry.peers.get x = some p)
    (ha : s.peerRegistry.apply y m = .error reason) :
    Input.requestedBytes x (.messageReceived y m) = 0 := by
  cases m with
  | request range =>
    have hne : y ≠ x := by
      rintro rfl
      simp [PeerRegistry.apply, hp, Message.needsFast] at ha
    simp [Input.requestedBytes, hne]
  | _ => rfl

theorem reports_step {i : Input × Entropy} {n : Nat} (hn : s.snapshot.Reports x n)
    (hsingle : ∀ e, ¬ s.Accepts x e i.1)
    (hreg : (step sha1 s i).1.peerRegistry.containsAddr x = true) :
    (step sha1 s i).1.snapshot.Reports x (i.1.requestedBytes x + n) := by
  obtain ⟨p, hp, rfl⟩ := reports_iff.mp hn
  refine reports_iff.mpr ?_
  have hkept : ∀ y, (s.peerRegistry.disconnected y).containsAddr x = true →
      (s.peerRegistry.disconnected y).peers.get x = some p := by
    intro y hy
    obtain ⟨hne, -⟩ := PeerRegistry.contains_disconnected hy
    rw [PeerRegistry.disconnected_peers, HashMap.get_remove, if_neg hne]
    exact hp
  obtain ⟨input, env⟩ := i
  cases input with
  | messageReceived y m =>
    rcases onMessage_cases sha1 env s y m with ⟨r, ha, hs, -⟩ | ⟨r, ha, -, hs⟩ | ⟨r, ha, -, hs⟩
    · refine ⟨p, ?_, ?_⟩
      · simp only [step, hs]
        exact hp
      · rw [requestedBytes_of_error hp ha, Nat.zero_add]
    · simp only [step, hs, handleMessage_peerRegistry]
      exact reports_applied hp ha
    · simp only [step, hs, plan_peerRegistry, handleMessage_peerRegistry]
      exact reports_applied hp ha
  | peerConnected id d y e =>
    refine ⟨p, ?_, (Nat.zero_add _).symm⟩
    have hother : ¬ s.Refused d id → x ≠ y := by
      rintro hrefused rfl
      exact hsingle e ⟨id, d, rfl, hrefused⟩
    simp only [step] at hreg ⊢
    rcases onConnected_cases env s y d id e with ⟨hb, hs⟩ | ⟨old, -, -, hs⟩ | ⟨old, hb, hd, hs⟩
    · rw [hs]
      simp [register, PeerRegistry.connected, HashMap.get_insert, hother (not_refused_of_none hb),
        hp]
    · rw [hs]
      exact hp
    · have hxy := hother (not_refused s hb hd)
      rw [hs] at hreg ⊢
      have hstays := (PeerRegistry.contains_connected hreg).resolve_left hxy
      simp only [register, PeerRegistry.connected, HashMap.get_insert, if_neg hxy]
      exact hkept old.1 hstays
  | peerDisconnected y => exact ⟨p, hkept y hreg, (Nat.zero_add _).symm⟩
  | _ =>
    refine ⟨p, ?_, (Nat.zero_add _).symm⟩
    rcases step_peerRegistry sha1 s _ with hs | ⟨_, _, hi, -⟩ | ⟨_, hi, -⟩ | ⟨_, _, _, _, hi, -⟩
    · rw [hs]
      exact hp
    · contradiction
    · contradiction
    · contradiction

theorem started_uploadedBytes {clientId : PeerId} {metainfo : Metainfo}
    (hs : Started clientId metainfo s) : s.uploadedBytes = 0 := by
  obtain ⟨pieces, -, rfl⟩ := started_eq hs
  rfl

section

variable {clientId : PeerId} {metainfo : Metainfo} {h newer older : Trace} {e : Happening}

theorem uploadedBytes_eq (hist : History (step sha1) (Started clientId metainfo) h s) :
    s.uploadedBytes = sentBytes (fun _ => true) h := by
  induction hist with
  | start hs => rw [started_uploadedBytes hs, sentBytes, List.map_nil, List.sum_nil]
  | @next h s i hist ih =>
    rw [uploadedBytes_step sha1 (reachable_accounted ⟨h, hist⟩) i, ih]
    rfl

theorem reports_requested
    (hist : History (step sha1) (Started clientId metainfo) (newer ++ e :: older) s)
    (hx : Session x newer e s) : s.snapshot.Reports x (requestedBytes x newer) := by
  induction newer generalizing s with
  | nil =>
    obtain ⟨extensions, haccepted⟩ := hx.accepted
    cases hist with
    | next i _ => exact reports_connected haccepted
  | cons f newer ih =>
    cases hist with
    | next i hist =>
      refine reports_step (ih hist hx.earlier) ?_ hx.registered
      exact hx.single _ (List.mem_cons_self ..)

theorem len_pos_of_valid {pm : PieceManager} {range : BlockRange}
    (h : pm.validUploadRange range = true) : 0 < range.len := by
  rw [PieceManager.validUploadRange, Option.any_eq_true] at h
  obtain ⟨piece, -, hvalid⟩ := h
  simp only [Bool.and_eq_true, decide_eq_true_eq] at hvalid
  exact hvalid.1.1.1.2

theorem reads_or_requested {i : Input × Entropy} (ha : Accounted s) {range : BlockRange}
    (hread : (step sha1 s i).1.Reads range x) :
    s.Reads range x ∨ 0 < i.1.requestedBytes x := by
  obtain ⟨read, hget, hx⟩ := hread
  rcases reads_sharing (sharing_step sha1 ha i) hget hx with ⟨hold, -⟩ | ⟨hi, hreq⟩
  · exact .inl hold
  · refine .inr ?_
    rw [hi]
    simpa [Input.requestedBytes] using len_pos_of_valid hreq.valid

theorem unread_sends_nothing {i : Input × Entropy} (ha : Accounted s)
    (hunread : ∀ range, ¬ s.Reads range x) :
    ((step sha1 s i).2.map (Output.pieceBytes fun y => y = x)).sum = 0 := by
  refine sum_pieceBytes_eq_zero fun y range data hy hout => ?_
  obtain ⟨read, -, hget, hin, -⟩ :=
    delivered_of_output (sharing_step sha1 ha i) ((mem_served rfl).mpr hout)
  exact hunread range ⟨read, hget, of_decide_eq_true hy ▸ hin⟩

theorem nothing_sent
    (hist : History (step sha1) (Started clientId metainfo) (newer ++ e :: older) s)
    (hx : Session x newer e s) (hnone : ∀ f ∈ newer, f.input.1.requestedBytes x = 0) :
    (∀ range, ¬ s.Reads range x) ∧ sentBytes (fun y => y = x) newer = 0 := by
  induction newer generalizing s with
  | nil =>
    refine ⟨fun range hread => ?_, rfl⟩
    obtain ⟨extensions, id, d, hinput, -⟩ := hx.accepted
    cases hist with
    | @next _ t i hist =>
      have ha := reachable_accounted ⟨older, hist⟩
      rcases reads_or_requested ha hread with hold | hnow
      · have hreg := ha.registered x (ha.reading range x hold)
        rw [hx.free] at hreg
        contradiction
      · simp only at hinput
        simp [hinput, Input.requestedBytes] at hnow
  | cons f newer ih =>
    cases hist with
    | @next _ t i hist =>
      obtain ⟨hunread, hzero⟩ :=
        ih hist hx.earlier fun g hg => hnone g (List.mem_cons_of_mem _ hg)
      have ha := reachable_accounted ⟨_, hist⟩
      refine ⟨fun range hread => ?_, ?_⟩
      · rcases reads_or_requested ha hread with hold | hnow
        · exact hunread range hold
        · rw [hnone _ (List.mem_cons_self ..)] at hnow
          contradiction
      · simp only [sentBytes, List.map_cons, List.sum_cons] at hzero ⊢
        rw [hzero, unread_sends_nothing ha hunread]

theorem requestedBytes_eq_zero {i : Input} : i.requestedBytes x = 0 ↔
    ∀ range, i = .messageReceived x (.request range) → range.len = 0 := by
  constructor
  · rintro hzero range rfl
    simpa [Input.requestedBytes] using hzero
  · intro hall
    cases i with
    | messageReceived y m =>
      cases m with
      | request range =>
        by_cases hy : y = x
        · simp [Input.requestedBytes, hall range (hy ▸ rfl)]
        · simp [Input.requestedBytes, hy]
      | _ => rfl
    | _ => rfl

def AccurateSince (x : SocketAddr) (newer : Trace) (s : Swarm) : Prop :=
  s.snapshot.Reports x (sentBytes (fun y => y = x) newer) ∧
    ∀ later f earlier, newer = later ++ f :: earlier →
      f.before.snapshot.Reports x (sentBytes (fun y => y = x) earlier)

theorem accurateSince_cons {f : Happening} : AccurateSince x (f :: newer) s ↔
    s.snapshot.Reports x (sentBytes (fun y => y = x) (f :: newer)) ∧
      AccurateSince x newer f.before := by
  refine and_congr_right fun _ => ⟨fun h => ⟨h [] f newer rfl, ?_⟩, ?_⟩
  · rintro later g earlier rfl
    exact h (f :: later) g earlier rfl
  · rintro ⟨hnow, hbefore⟩ later g earlier heq
    cases later with
    | nil =>
      obtain ⟨rfl, rfl⟩ := List.cons.inj heq
      exact hnow
    | cons k later => exact hbefore later g earlier (List.cons.inj heq).2

theorem accurateSince_iff
    (hist : History (step sha1) (Started clientId metainfo) (newer ++ e :: older) s)
    (hx : Session x newer e s) :
    AccurateSince x newer s ↔ ∀ f ∈ newer, f.input.1.requestedBytes x = 0 := by
  induction newer generalizing s with
  | nil =>
    refine ⟨fun _ => by simp, fun _ => ⟨reports_requested hist hx, ?_⟩⟩
    intro later f earlier heq
    simp at heq
  | cons f newer ih =>
    have hreports := reports_requested hist hx
    cases hist with
    | @next _ t i hist =>
      rw [accurateSince_cons, ih hist hx.earlier, List.forall_mem_cons]
      have hsent : (∀ g ∈ newer, g.input.1.requestedBytes x = 0) →
          sentBytes (fun y => y = x) (⟨t, i, (step sha1 t i).2⟩ :: newer) = 0 := by
        intro hzero
        obtain ⟨hunread, hnothing⟩ := nothing_sent hist hx.earlier hzero
        simp only [sentBytes, List.map_cons, List.sum_cons] at hnothing ⊢
        rw [hnothing, unread_sends_nothing (reachable_accounted ⟨_, hist⟩) hunread]
      refine and_congr_left fun hzero => ?_
      have htotal : requestedBytes x newer = 0 :=
        List.sum_eq_zero fun n hn => by
          obtain ⟨g, hg, rfl⟩ := List.mem_map.mp hn
          exact hzero g hg
      have hnow : requestedBytes x (⟨t, i, (step sha1 t i).2⟩ :: newer) =
          i.1.requestedBytes x := by
        simp only [requestedBytes, List.map_cons, List.sum_cons] at htotal ⊢
        rw [htotal, Nat.add_zero]
      rw [hsent hzero]
      rw [hnow] at hreports
      constructor
      · intro hnone
        exact reports_unique hreports hnone
      · intro hnone
        exact hnone ▸ hreports

theorem upload_accounting_iff (hist : History (step sha1) (Started clientId metainfo) h s) :
    s.snapshot.bytesUploaded = sentBytes (fun _ => true) h ∧
      ∀ x newer e older, h = newer ++ e :: older → Session x newer e s →
        (AccurateSince x newer s ↔
          ∀ f ∈ newer, ∀ range, f.input.1 = .messageReceived x (.request range) →
            range.len = 0) := by
  refine ⟨uploadedBytes_eq hist, ?_⟩
  rintro x newer e older rfl hx
  rw [accurateSince_iff hist hx]
  exact forall₂_congr fun f _ => requestedBytes_eq_zero

end

end Swarm

namespace Sample

def saying (m : Message) : List (Input × Entropy) := [connect 2 .outbound 80, message 80 m]

def said (m : Message) : Swarm.Happening :=
  ⟨(Swarm.step sha1 swarm (connect 2 .outbound 80)).1, message 80 m,
    (Swarm.step sha1 (Swarm.step sha1 swarm (connect 2 .outbound 80)).1 (message 80 m)).2⟩

def joined : Swarm.Happening :=
  ⟨swarm, connect 2 .outbound 80, (Swarm.step sha1 swarm (connect 2 .outbound 80)).2⟩

theorem session {m : Message} (hreg : (History.run (Swarm.step sha1) swarm
    (saying m)).1.peerRegistry.containsAddr (addr 80) = true) :
    Swarm.Session (addr 80) [said m] joined (History.run (Swarm.step sha1) swarm (saying m)).1 where
  accepted := ⟨extensions, peerId 2, .outbound, rfl, Swarm.not_refused_of_none (by decide +kernel)⟩
  free := by decide +kernel
  single f hf := by
    rw [List.mem_singleton.mp hf]
    rintro _ ⟨_, _, hi, -⟩
    contradiction
  stayed f hf := by
    rw [List.mem_singleton.mp hf]
    change (Swarm.step sha1 swarm
      (connect 2 .outbound 80)).1.peerRegistry.containsAddr (addr 80) = true
    decide +kernel
  registered := hreg

end Sample

namespace Swarm

theorem interest_reports_nothing :
    (History.run (step Sample.sha1) Sample.swarm (Sample.saying .interested)).1.snapshot.Reports
      (Sample.addr 80) 0 := by
  have hsession := Sample.session (m := .interested) (by decide +kernel)
  refine (((upload_accounting_iff (Sample.history (Sample.saying .interested))).2 _ _ _ _ rfl
    hsession).mpr fun f hf range hi => ?_).1
  rw [List.mem_singleton.mp hf] at hi
  simp [Sample.message] at hi

theorem ignored_request_reported :
    ¬ ∀ sha1 clientId metainfo h s, History (step sha1) (Started clientId metainfo) h s →
      s.snapshot.bytesUploaded = sentBytes (fun _ => true) h ∧
        ∀ x newer e older, h = newer ++ e :: older → Session x newer e s →
          s.snapshot.Reports x (sentBytes (fun y => y = x) newer) := by
  intro hall
  have hreports := (hall _ _ _ _ _ (Sample.history (Sample.saying (.request ⟨0, 0, 2⟩)))).2
    _ _ _ _ rfl (Sample.session (by decide +kernel))
  have hrequested := reports_requested (Sample.history (Sample.saying (.request ⟨0, 0, 2⟩)))
    (Sample.session (by decide +kernel))
  have heq := reports_unique hreports hrequested
  revert heq
  decide +kernel

end Swarm

end Tortue
