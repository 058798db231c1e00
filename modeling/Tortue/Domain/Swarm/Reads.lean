import Tortue.Domain.Swarm.Uploads
import Tortue.Domain.Swarm.Accounts

namespace Tortue

open Collections

def served (outputs : List Output) : List Output := outputs.filter Output.serves

theorem served_append (l m : List Output) : served (l ++ m) = served l ++ served m :=
  List.filter_append ..

theorem served_nil_of {outputs : List Output} (h : ∀ o ∈ outputs, o.serves = false) :
    served outputs = [] :=
  List.filter_eq_nil_iff.mpr fun o ho => by simp [h o ho]

theorem served_eq_of {outputs : List Output} (h : ∀ o ∈ outputs, o.serves = true) :
    served outputs = outputs :=
  List.filter_eq_self.mpr h

theorem mem_served {outputs : List Output} {o : Output} (h : o.serves = true) :
    o ∈ served outputs ↔ o ∈ outputs := by
  simp [served, h]

structure ReadQueue where
  pending : HashMap BlockRange PendingRead
  next : Nat

namespace Swarm

def readQueue (s : Swarm) : ReadQueue := ⟨s.pendingReads, s.nextUploadReadId⟩

def Leaves (s : Swarm) (x : SocketAddr) : Input → Prop
  | .peerDisconnected y => x = y
  | .peerConnected id d _ _ =>
    ¬ s.Refused d id ∧ ∃ d', s.peerRegistry.connectionFor id = some (x, d')
  | _ => False

def Withdraws (s : Swarm) (x : SocketAddr) (range : BlockRange) (i : Input) : Prop :=
  s.Leaves x i ∨ i = .messageReceived x (.cancel range) ∨
    ∃ status : SwarmStatus, i = .swarmCommand (.setStatus status) ∧ status.upload = false

theorem not_withdraws {s : Swarm} {x : SocketAddr} {range : BlockRange} {i : Input}
    (hstays : ¬ s.Leaves x i) (hmessage : i ≠ .messageReceived x (.cancel range))
    (hcommand : ∀ cmd, i ≠ .swarmCommand cmd) : ¬ s.Withdraws x range i := by
  rintro (hleaves | heq | ⟨status, heq, -⟩)
  · exact hstays hleaves
  · exact hmessage heq
  · exact hcommand _ heq

theorem withdraws_message {s : Swarm} {x y : SocketAddr} {range : BlockRange} {m : Message} :
    s.Withdraws x range (.messageReceived y m) ↔ y = x ∧ m = .cancel range := by
  simp [Withdraws, Leaves]

structure Requested (s : Swarm) (x : SocketAddr) (range : BlockRange) : Prop where
  registered : s.peerRegistry.containsAddr x = true
  upload : s.status.upload = true
  valid : s.pieces.validUploadRange range = true

inductive Sharing (s : Swarm) (i : Input) (q : ReadQueue) (outputs : List Output) : Prop
  | keep : (∀ x range, s.Reads range x → ¬ s.Withdraws x range i) → q = s.readQueue →
      outputs = [] → Sharing s i q outputs
  | opened (x : SocketAddr) (range : BlockRange) : i = .messageReceived x (.request range) →
      s.Requested x range → s.pendingUploads < maxPendingUploads →
      s.pendingReads.get range = none →
      q = ⟨s.pendingReads.insert range ⟨⟨s.nextUploadReadId⟩, HashSet.add .empty x⟩,
        s.nextUploadReadId + 1⟩ →
      outputs = [.readForUpload ⟨s.nextUploadReadId⟩ range] → Sharing s i q outputs
  | joined (x : SocketAddr) (range : BlockRange) (read : PendingRead) :
      i = .messageReceived x (.request range) → s.Requested x range →
      s.pendingUploads < maxPendingUploads → s.pendingReads.get range = some read →
      q = ⟨s.pendingReads.insert range { read with peers := read.peers.add x },
        s.nextUploadReadId⟩ → outputs = [] → Sharing s i q outputs
  | left (x : SocketAddr) (range : BlockRange) (read read' : PendingRead) :
      i = .messageReceived x (.cancel range) → s.pendingReads.get range = some read →
      withoutPeer x read = some read' →
      q = ⟨s.pendingReads.insert range read', s.nextUploadReadId⟩ → outputs = [] →
      Sharing s i q outputs
  | abandoned (x : SocketAddr) (range : BlockRange) (read : PendingRead) :
      i = .messageReceived x (.cancel range) → s.pendingReads.get range = some read →
      withoutPeer x read = none → q = ⟨s.pendingReads.remove range, s.nextUploadReadId⟩ →
      outputs = [.cancelUploadRead read.id] → Sharing s i q outputs
  | dropped (x : SocketAddr) (reads : List PendingRead) : s.Leaves x i →
      (∀ y, s.Leaves y i → y = x) →
      reads.Perm (s.pendingReads.values.filter fun read => (withoutPeer x read).isNone) →
      q = ⟨s.pendingReads.retain (withoutPeer x), s.nextUploadReadId⟩ →
      outputs = reads.map (fun read => .cancelUploadRead read.id) → Sharing s i q outputs
  | cleared (status : SwarmStatus) (reads : List PendingRead) :
      i = .swarmCommand (.setStatus status) → status.upload = false →
      reads.Perm s.pendingReads.values → q = ⟨.empty, s.nextUploadReadId⟩ →
      outputs = reads.map (fun read => .cancelUploadRead read.id) → Sharing s i q outputs
  | completed (id : UploadReadId) (range : BlockRange) (data : Bytes) (read : PendingRead)
      (addrs : List SocketAddr) : i = .uploadReadCompleted id range data →
      s.pendingReads.get range = some read → read.id = id → addrs.Nodup →
      (∀ x ∈ addrs, read.peers.contains x = true) →
      q = ⟨s.pendingReads.remove range, s.nextUploadReadId⟩ →
      outputs = addrs.map (fun x => .sendToPeer x (.piece range data)) → Sharing s i q outputs

theorem withoutPeer_some {x : SocketAddr} {read read' : PendingRead}
    (h : withoutPeer x read = some read') :
    0 < (HashMap.remove read.peers x).len ∧ read' = { read with peers := read.peers.remove x } := by
  simp only [withoutPeer] at h
  split at h
  · contradiction
  · next hlen => exact ⟨Nat.pos_of_ne_zero hlen, (Option.some.inj h).symm⟩

variable {sha1 : Sha1} {env : Entropy} {s : Swarm}

@[simp] theorem plan_readQueue (env : Entropy) (s : Swarm) :
    (s.plan env).1.readQueue = s.readQueue := by
  obtain ⟨a, ha⟩ := plan_fst env s
  rw [ha]
  rfl

theorem served_plan (env : Entropy) (s : Swarm) : served (s.plan env).2 = [] :=
  served_nil_of (plan_serves env s)

theorem served_onDisconnected (env : Entropy) (s : Swarm) (x : SocketAddr) :
    served (s.onDisconnected env x).2 = (s.onDisconnected env x).2 := by
  refine served_eq_of fun o ho => ?_
  obtain ⟨id, rfl⟩ := onDisconnected_outputs env s x o ho
  rfl

theorem serves_availabilityMessage (s : Swarm) (x : SocketAddr) (e : PeerExtensions) :
    Output.serves (.sendToPeer x (s.availabilityMessage e)) = false := by
  unfold availabilityMessage
  split_ifs <;> rfl

theorem served_register (s : Swarm) (x : SocketAddr) (d : ConnectionDirection) (id : PeerId)
    (e : PeerExtensions) : served (s.register x d id e).2 = [] := by
  refine served_nil_of fun o ho => ?_
  rcases register_outputs s x d id e o ho with rfl | rfl
  · exact serves_availabilityMessage s x e
  · rfl

theorem dropped_onDisconnected {i : Input} {x : SocketAddr} (hi : s.Leaves x i)
    (honly : ∀ y, s.Leaves y i → y = x) :
    Sharing s i (s.onDisconnected env x).1.readQueue (served (s.onDisconnected env x).2) := by
  rw [served_onDisconnected]
  exact .dropped x _ hi honly ((env.order.perm _).filter _) rfl rfl

theorem sharing_onConnected (env : Entropy) (s : Swarm) (x : SocketAddr) (d : ConnectionDirection)
    (id : PeerId) (e : PeerExtensions) :
    Sharing s (.peerConnected id d x e) (s.onConnected env x d id e).1.readQueue
      (served (s.onConnected env x d id e).2) := by
  have hquiet : (s.Refused d id ∨ s.peerRegistry.byId.get id = none) →
      ∀ y range, s.Reads range y → ¬ s.Withdraws y range (.peerConnected id d x e) := by
    rintro hkept y range - (⟨haccepted, d', hd'⟩ | hi | ⟨_, hi, -⟩)
    · rcases hkept with hrefused | hnone
      · exact haccepted hrefused
      · rw [PeerRegistry.connectionFor, hnone] at hd'
        contradiction
    · contradiction
    · contradiction
  rcases onConnected_cases env s x d id e with ⟨hb, hs⟩ | ⟨old, hb, hd, hs⟩ | ⟨old, hb, hd, hs⟩
  · rw [hs, served_register]
    exact .keep (hquiet (.inr hb)) rfl rfl
  · rw [hs]
    exact .keep (hquiet (.inl ⟨old, hb, hd⟩)) rfl rfl
  · have hleaves : s.Leaves old.1 (.peerConnected id d x e) := ⟨not_refused s hb hd, old.2, hb⟩
    have honly : ∀ y, s.Leaves y (.peerConnected id d x e) → y = old.1 := by
      rintro y ⟨-, d', hd'⟩
      rw [PeerRegistry.connectionFor, hb, Option.some.injEq] at hd'
      rw [hd']
    have houtputs : served ((s.onDisconnected env old.1).2 ++ .disconnectPeer old.1 ::
        ((s.onDisconnected env old.1).1.register x d id e).2) =
        served (s.onDisconnected env old.1).2 := by
      have hgreeting : served (.disconnectPeer old.1 ::
          ((s.onDisconnected env old.1).1.register x d id e).2) = [] :=
        served_register _ x d id e
      rw [served_append, hgreeting, List.append_nil]
    rw [hs, houtputs]
    exact dropped_onDisconnected hleaves honly

theorem sharing_request {i : Input} {x : SocketAddr} {range : BlockRange}
    (hi : i = .messageReceived x (.request range))
    (hreg : s.peerRegistry.containsAddr x = true) :
    Sharing s i (s.onMessageRequest x range).1.readQueue
      (served (s.onMessageRequest x range).2) := by
  have hquiet : ∀ y r, s.Reads r y → ¬ s.Withdraws y r i := by
    subst hi
    exact fun y r _ => not_withdraws id (by simp) (by simp)
  unfold onMessageRequest
  split_ifs with hup hvalid hfull
  · exact .keep hquiet rfl rfl
  · exact .keep hquiet rfl rfl
  · exact .keep hquiet rfl rfl
  · simp only [Bool.not_eq_true, Bool.not_eq_false'] at hup hvalid
    have hrequested : s.Requested x range := ⟨hreg, hup, hvalid⟩
    have hroom : s.pendingUploads < maxPendingUploads := Nat.lt_of_not_le hfull
    split
    · next read hget => exact .joined x range read hi hrequested hroom hget rfl rfl
    · next hget => exact .opened x range hi hrequested hroom hget rfl rfl

theorem sharing_cancel {i : Input} {x : SocketAddr} {range : BlockRange}
    (hi : i = .messageReceived x (.cancel range)) :
    Sharing s i (s.cancelUpload x range).1.readQueue (served (s.cancelUpload x range).2) := by
  unfold cancelUpload
  split
  · next hget =>
    subst hi
    refine .keep (fun y r hread hwithdraws => ?_) rfl rfl
    obtain ⟨read, hget', -⟩ := hread
    obtain ⟨-, heq⟩ := withdraws_message.mp hwithdraws
    rw [Message.cancel.injEq] at heq
    rw [← heq, hget] at hget'
    contradiction
  · next read hget =>
    dsimp only
    split
    · next hleft => exact .left x range read _ hi hget (if_neg hleft) rfl rfl
    · next hnone =>
      rw [not_not] at hnone
      exact .abandoned x range read hi hget (if_pos hnone) rfl rfl

theorem readQueue_onMessagePiece (x : SocketAddr) (range : BlockRange) (data : Bytes) :
    (s.onMessagePiece sha1 env x range data).1.readQueue = s.readQueue := by
  rcases onMessagePiece_fst sha1 env s x range data with ⟨-, hs⟩ | ⟨-, _, hs⟩
  · rw [hs]
  · rw [hs]
    rfl

theorem handleMessage_unserved (sha1 : Sha1) (env : Entropy) (s : Swarm) (x : SocketAddr)
    {m : Message} (hr : ∀ range, m ≠ .request range) (hc : ∀ range, m ≠ .cancel range) :
    (s.handleMessage sha1 env x m).1.readQueue = s.readQueue ∧
      served (s.handleMessage sha1 env x m).2 = [] := by
  have hinterest : served (s.declareInterest x) = [] := by
    refine served_nil_of fun o ho => ?_
    rw [declareInterest_outputs s x o ho]
    rfl
  cases m with
  | request range => exact absurd rfl (hr range)
  | cancel range => exact absurd rfl (hc range)
  | piece range data =>
    refine ⟨readQueue_onMessagePiece x range data, ?_⟩
    exact served_nil_of (onMessagePiece_serves x range data)
  | extension extId payload =>
    refine ⟨rfl, served_nil_of fun o ho => ?_⟩
    rcases onExtensionMessage_outputs env s x extId payload o ho with ⟨y, rfl⟩ | ⟨k, reply, rfl⟩ <;>
      rfl
  | bitfield _ => exact ⟨rfl, hinterest⟩
  | havePiece _ => exact ⟨rfl, hinterest⟩
  | haveAll => exact ⟨rfl, hinterest⟩
  | suggestPiece _ => exact ⟨rfl, hinterest⟩
  | allowedFast _ => exact ⟨rfl, hinterest⟩
  | interested => exact ⟨rfl, rfl⟩
  | _ => exact ⟨rfl, rfl⟩

theorem Sharing.plan {i : Input} {t : Swarm} {outputs : List Output}
    (h : Sharing s i t.readQueue (served outputs)) (env : Entropy) :
    Sharing s i (t.plan env).1.readQueue (served (outputs ++ (t.plan env).2)) := by
  rw [plan_readQueue, served_append, served_plan, List.append_nil]
  exact h

theorem Sharing.of_registry {r : PeerRegistry} {x : SocketAddr} {m : Message} {q : ReadQueue}
    {outputs : List Output} (ha : s.peerRegistry.apply x m = .ok r)
    (h : Sharing { s with peerRegistry := r } (.messageReceived x m) q outputs) :
    Sharing s (.messageReceived x m) q outputs := by
  have hsame : ∀ {y : SocketAddr}, r.containsAddr y = s.peerRegistry.containsAddr y :=
    PeerRegistry.apply_contains ha _
  have hrequested : ∀ {y : SocketAddr} {range : BlockRange},
      Requested { s with peerRegistry := r } y range → s.Requested y range :=
    fun hreq => ⟨hsame ▸ hreq.registered, hreq.upload, hreq.valid⟩
  cases h with
  | keep hquiet hq ho =>
    refine .keep (fun y range hread hwithdraws => hquiet y range hread ?_) hq ho
    rcases hwithdraws with hleaves | hw
    · contradiction
    · exact .inr hw
  | opened y range hi hreq hroom hget hq ho =>
    exact .opened y range hi (hrequested hreq) hroom hget hq ho
  | joined y range read hi hreq hroom hget hq ho =>
    exact .joined y range read hi (hrequested hreq) hroom hget hq ho
  | left y range read read' hi hget hw hq ho => exact .left y range read read' hi hget hw hq ho
  | abandoned y range read hi hget hw hq ho => exact .abandoned y range read hi hget hw hq ho
  | dropped y reads hi => contradiction
  | cleared status reads hi => contradiction
  | completed id range data read addrs hi => contradiction

theorem sharing_handleMessage (hreg : s.peerRegistry.containsAddr x = true) (m : Message) :
    Sharing s (.messageReceived x m) (s.handleMessage sha1 env x m).1.readQueue
      (served (s.handleMessage sha1 env x m).2) := by
  by_cases hr : ∃ range, m = .request range
  · obtain ⟨range, rfl⟩ := hr
    exact sharing_request rfl hreg
  · by_cases hc : ∃ range, m = .cancel range
    · obtain ⟨range, rfl⟩ := hc
      exact sharing_cancel rfl
    · obtain ⟨hq, ho⟩ := handleMessage_unserved sha1 env s x
        (fun range h => hr ⟨range, h⟩) fun range h => hc ⟨range, h⟩
      refine .keep (fun y range _ hwithdraws => ?_) hq ho
      exact hc ⟨range, (withdraws_message.mp hwithdraws).2⟩

theorem contains_of_apply {r r' : PeerRegistry} {x : SocketAddr} {m : Message}
    (ha : r.apply x m = .ok r') : r'.containsAddr x = true := by
  obtain ⟨p, hp, -⟩ := PeerRegistry.apply_ok ha
  exact (PeerRegistry.apply_contains ha x).trans (HashMap.contains_iff.mpr ⟨p, hp⟩)

theorem sharing_onMessage (h : Accounted s) (x : SocketAddr) (m : Message) :
    Sharing s (.messageReceived x m) (s.onMessage sha1 env x m).1.readQueue
      (served (s.onMessage sha1 env x m).2) := by
  rcases onMessage_cases sha1 env s x m with ⟨_, ha, hs, hout⟩ | ⟨r, ha, -, hs⟩ | ⟨r, ha, -, hs⟩
  · rw [hs]
    refine .keep (fun y range hread hwithdraws => ?_) rfl
      (served_nil_of fun o ho => hout o ho ▸ rfl)
    obtain ⟨rfl, rfl⟩ := withdraws_message.mp hwithdraws
    have hreg : s.peerRegistry.containsAddr x = true :=
      h.registered x (h.reading range x hread)
    obtain ⟨p, hp⟩ := HashMap.contains_iff.mp hreg
    simp [PeerRegistry.apply, hp, Message.needsFast] at ha
  · rw [hs]
    exact .of_registry ha (sharing_handleMessage (contains_of_apply ha) m)
  · rw [hs]
    exact Sharing.plan (.of_registry ha (sharing_handleMessage (contains_of_apply ha) m)) env

theorem sharing_completed (id : UploadReadId) (range : BlockRange) (data : Bytes) :
    Sharing s (.uploadReadCompleted id range data)
      (s.onUploadReadCompleted env id range data).1.readQueue
      (served (s.onUploadReadCompleted env id range data).2) := by
  have hquiet : ∀ x r, s.Reads r x → ¬ s.Withdraws x r (.uploadReadCompleted id range data) :=
    fun x r _ => not_withdraws (fun h => h) (by simp) (by simp)
  simp only [onUploadReadCompleted]
  split
  · exact .keep hquiet rfl rfl
  · next read hget =>
    split_ifs with hid hup
    · exact .keep hquiet rfl rfl
    · exact .completed id range data read [] rfl hget (not_not.mp hid) .nil (by simp) rfl rfl
    · refine .completed id range data read
        ((env.order.arrange read.peers.keys).filter s.peerRegistry.containsAddr) rfl hget
        (not_not.mp hid) ?_ ?_ rfl ?_
      · exact ((env.order.perm _).nodup_iff.mpr read.peers.nodup).filter _
      · intro x hx
        have hkey := (env.order.perm _).mem_iff.mp (List.mem_filter.mp hx).1
        exact HashMap.mem_keys_iff.mp hkey
      · refine served_eq_of fun o ho => ?_
        obtain ⟨y, -, rfl⟩ := List.mem_map.mp ho
        rfl

theorem sharing_onSwarmCommand (cmd : SwarmCommand) :
    Sharing s (.swarmCommand cmd) (s.onSwarmCommand env cmd).1.readQueue
      (served (s.onSwarmCommand env cmd).2) := by
  cases cmd with
  | setStatus status =>
    simp only [onSwarmCommand]
    split
    · next hup =>
      refine .keep ?_ rfl rfl
      rintro x r - (hleaves | heq | ⟨status', heq, hdown⟩)
      · contradiction
      · contradiction
      · rw [Input.swarmCommand.injEq, SwarmCommand.setStatus.injEq] at heq
        rw [← heq, hup] at hdown
        contradiction
    · next hdown =>
      refine .cleared status _ rfl (Bool.eq_false_iff.mpr hdown) (env.order.perm _) rfl ?_
      refine served_eq_of fun o ho => ?_
      obtain ⟨read, -, rfl⟩ := List.mem_map.mp ho
      rfl

theorem sharing_step (sha1 : Sha1) (h : Accounted s) (i : Input × Entropy) :
    Sharing s i.1 (step sha1 s i).1.readQueue (served (step sha1 s i).2) := by
  obtain ⟨input, env⟩ := i
  cases input with
  | messageReceived x m => exact sharing_onMessage h x m
  | peerConnected id d x e => exact sharing_onConnected env s x d id e
  | peerDisconnected x =>
    exact dropped_onDisconnected (x := x) rfl fun y hy => hy
  | uploadReadCompleted id range data => exact sharing_completed id range data
  | swarmCommand cmd => exact sharing_onSwarmCommand cmd
  | peersDiscovered addrs =>
    have hquiet : ∀ x r, s.Reads r x → ¬ s.Withdraws x r (.peersDiscovered addrs) :=
      fun x r _ => not_withdraws id (by simp) (by simp)
    refine .keep hquiet rfl (served_nil_of fun o ho => ?_)
    simp only [step, onDiscovered] at ho
    split at ho
    · contradiction
    · obtain ⟨y, -, rfl⟩ := List.mem_map.mp ho
      rfl
  | localPiece j data =>
    have hquiet : ∀ x r, s.Reads r x → ¬ s.Withdraws x r (.localPiece j data) :=
      fun x r _ => not_withdraws id (by simp) (by simp)
    exact .keep hquiet rfl rfl
  | tick t =>
    have hquiet : ∀ x r, s.Reads r x → ¬ s.Withdraws x r (.tick t) :=
      fun x r _ => not_withdraws id (by simp) (by simp)
    cases t with
    | block => exact .keep hquiet (plan_readQueue env s) (served_plan env s)
    | pex =>
      refine .keep hquiet rfl (served_nil_of fun o ho => ?_)
      simp only [step, onTick, pexOutputs, List.mem_filterMap, Option.map_eq_some_iff] at ho
      obtain ⟨x, -, extId, -, rfl⟩ := ho
      rfl

end Swarm

end Tortue
