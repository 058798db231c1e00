import Tortue.Domain.Swarm.Identity
import Tortue.Domain.Swarm.Planning

namespace Tortue

open Collections

namespace PeerRegistry

def Heard (r : PeerRegistry) (x : SocketAddr) : Prop :=
  r.seeders.contains x = true ∨ r.leechers.contains x = true

theorem heard_disconnected {r : PeerRegistry} {x y : SocketAddr} :
    (r.disconnected x).Heard y ↔ r.Heard y ∧ y ≠ x := by
  obtain ⟨hs, hl, -⟩ := disconnected_rest r x
  unfold Heard
  rw [hs, hl]
  by_cases h : y = x <;> simp [h]

theorem heard_classify {r : PeerRegistry} {x y : SocketAddr} :
    (r.classify x).Heard y ↔ r.Heard y ∨ y = x := by
  unfold Heard classify
  by_cases h : y = x
  · subst h
    split <;> simp
  · split <;> simp [h]

theorem has_fold_record (pieces : List Nat) (a : PieceAvailability) (x y : SocketAddr) (p : Nat) :
    (pieces.foldl (fun a piece => a.record piece x) a).has p y = true ↔
      a.has p y = true ∨ (y = x ∧ p ∈ pieces) := by
  induction pieces generalizing a with
  | nil => simp
  | cons q pieces ih =>
    rw [List.foldl_cons, ih, PieceAvailability.has_record, List.mem_cons]
    grind

theorem has_recordMessage {a : PieceAvailability} {x y : SocketAddr} {m : Message} {p : Nat}
    (h : (recordMessage a x m).has p y = true) : a.has p y = true ∨ y = x := by
  cases m with
  | bitfield bits =>
    simp only [recordMessage] at h
    have hkeep : ∀ q, (a.removePeer x).has q y = true → a.has q y = true := fun q hq =>
      ((PieceAvailability.has_removePeer a q x y).mp hq).1
    split at h
    · exact ((has_fold_record _ _ x y p).mp h).imp (hkeep p) And.left
    · exact .inl (hkeep p h)
  | havePiece piece => exact ((has_fold_record [piece] a x y p).mp h).imp_right And.left
  | haveAll => exact ((has_fold_record _ a x y p).mp h).imp_right And.left
  | haveNone => exact .inl ((PieceAvailability.has_removePeer a p x y).mp h).1
  | _ => exact .inl h

structure Attributed (r : PeerRegistry) : Prop where
  registered : ∀ x, r.Heard x → r.containsAddr x = true
  available : ∀ p x, r.availability.has p x = true → r.Heard x

theorem attributed_new (n : Nat) : Attributed (.new n) where
  registered x h := by simp [Heard, PeerRegistry.new] at h
  available p x h := by simp [PieceAvailability.has, PeerRegistry.new, PieceAvailability.new] at h

namespace Attributed

variable {r : PeerRegistry}

theorem connected (h : Attributed r) (x : SocketAddr) (id : PeerId) (d : ConnectionDirection)
    (e : PeerExtensions) : Attributed (r.connected x id d e) where
  registered y hy := by
    have hold : r.containsAddr y = true := h.registered y hy
    unfold containsAddr HashMap.contains at *
    rw [get_connected]
    split
    · rfl
    · exact hold
  available := h.available

theorem disconnected (h : Attributed r) (x : SocketAddr) : Attributed (r.disconnected x) where
  registered y hy := by
    obtain ⟨hold, hne⟩ := heard_disconnected.mp hy
    have hreg : r.containsAddr y = true := h.registered y hold
    unfold containsAddr HashMap.contains at *
    rw [get_disconnected, if_neg hne]
    exact hreg
  available p y hy := by
    rw [(disconnected_rest r x).2.2, PieceAvailability.has_removePeer] at hy
    exact heard_disconnected.mpr ⟨h.available p y hy.1, hy.2⟩

theorem heard_apply {r' : PeerRegistry} {x : SocketAddr} {m : Message}
    (ha : r.apply x m = .ok r') (y : SocketAddr) : r'.Heard y ↔ r.Heard y ∨ y = x := by
  unfold PeerRegistry.apply at ha
  split at ha
  · contradiction
  · split at ha
    · contradiction
    · rw [Except.ok.injEq] at ha
      rw [← ha, heard_classify]
      exact Iff.rfl

theorem apply (h : Attributed r) {r' : PeerRegistry} {x : SocketAddr} {m : Message}
    (ha : r.apply x m = .ok r') : Attributed r' where
  registered y hy := by
    have hsame : r'.containsAddr y = r.containsAddr y := apply_contains ha y
    rw [hsame]
    rcases (heard_apply ha y).mp hy with hold | rfl
    · exact h.registered y hold
    · obtain ⟨p, hp, -⟩ := apply_ok ha
      exact HashMap.contains_iff.mpr ⟨p, hp⟩
  available p y hy := by
    obtain ⟨-, -, -, -, -, havail⟩ := apply_ok ha
    rw [havail] at hy
    exact (heard_apply ha y).mpr ((has_recordMessage hy).imp_left (h.available p y))

end Attributed

end PeerRegistry

namespace Swarm

open PeerRegistry

variable {sha1 : Sha1} {env : Entropy} {s : Swarm}

def Reads (s : Swarm) (range : BlockRange) (x : SocketAddr) : Prop :=
  ∃ read, s.pendingReads.get range = some read ∧ read.peers.contains x = true

theorem reads_onDisconnected {x y : SocketAddr} {range : BlockRange} :
    (s.onDisconnected env x).1.Reads range y ↔ s.Reads range y ∧ y ≠ x := by
  unfold Reads
  simp only [onDisconnected_pendingReads, HashMap.get_retain, Option.bind_eq_some_iff]
  constructor
  · rintro ⟨read, ⟨before, hget, hread⟩, hin⟩
    simp only [withoutPeer] at hread
    split at hread
    · contradiction
    · simp only [Option.some.injEq] at hread
      subst hread
      simp only [HashSet.contains_remove, Bool.and_eq_true, decide_eq_true_eq] at hin
      exact ⟨⟨before, hget, hin.2⟩, hin.1⟩
  · rintro ⟨⟨before, hget, hin⟩, hne⟩
    have hleft : HashMap.contains (HashMap.remove before.peers x) y = true := by
      simp [hne, hin]
    have hlen : (before.peers.remove x).len ≠ 0 := by
      intro hzero
      rw [HashMap.contains_eq_false_of_len_eq_zero hzero] at hleft
      contradiction
    exact ⟨{ before with peers := before.peers.remove x },
      ⟨before, hget, by simp [withoutPeer, hlen]⟩, hleft⟩

theorem reads_insert {m : HashMap BlockRange PendingRead} {range range' : BlockRange}
    {read : PendingRead} {y : SocketAddr}
    (h : ∃ q, (m.insert range read).get range' = some q ∧ q.peers.contains y = true) :
    read.peers.contains y = true ∨ ∃ q, m.get range' = some q ∧ q.peers.contains y = true := by
  obtain ⟨q, hq, hin⟩ := h
  rw [HashMap.get_insert] at hq
  split at hq
  · rw [Option.some.injEq] at hq
    exact .inl (hq ▸ hin)
  · exact .inr ⟨q, hq, hin⟩

theorem reads_remove {m : HashMap BlockRange PendingRead} {range range' : BlockRange}
    {y : SocketAddr}
    (h : ∃ q, (m.remove range).get range' = some q ∧ q.peers.contains y = true) :
    ∃ q, m.get range' = some q ∧ q.peers.contains y = true := by
  obtain ⟨q, hq, hin⟩ := h
  rw [HashMap.get_remove] at hq
  split at hq
  · contradiction
  · exact ⟨q, hq, hin⟩

theorem reads_handleMessage {x y : SocketAddr} {m : Message} {range : BlockRange}
    (h : (s.handleMessage sha1 env x m).1.Reads range y) :
    y = x ∨ ∃ range', s.Reads range' y := by
  cases m with
  | piece r data =>
    rcases onMessagePiece_fst sha1 env s x r data with ⟨-, hs⟩ | ⟨-, _, hs⟩
    · rw [handleMessage, hs] at h
      exact .inr ⟨range, h⟩
    · rw [handleMessage, hs] at h
      exact .inr ⟨range, h⟩
  | request r =>
    simp only [handleMessage, onMessageRequest] at h
    split at h
    · exact .inr ⟨range, h⟩
    · split at h
      · exact .inr ⟨range, h⟩
      · split at h
        · exact .inr ⟨range, h⟩
        · split at h
          · next read hread =>
            rcases reads_insert h with hin | hold
            · simp only [HashSet.contains_add, Bool.or_eq_true, decide_eq_true_eq] at hin
              exact hin.imp_right fun hin => ⟨r, read, hread, hin⟩
            · exact .inr ⟨range, hold⟩
          · rcases reads_insert h with hin | hold
            · simp only [HashSet.contains_add, HashMap.contains_empty, Bool.or_false,
                decide_eq_true_eq] at hin
              exact .inl hin
            · exact .inr ⟨range, hold⟩
  | cancel r =>
    simp only [handleMessage, cancelUpload] at h
    split at h
    · exact .inr ⟨range, h⟩
    · next read hread =>
      split at h
      · rcases reads_insert h with hin | hold
        · simp only [HashSet.contains_remove, Bool.and_eq_true] at hin
          exact .inr ⟨r, read, hread, hin.2⟩
        · exact .inr ⟨range, hold⟩
      · exact .inr ⟨range, reads_remove h⟩
  | _ => exact .inr ⟨range, h⟩

structure Accounted (s : Swarm) : Prop extends Attributed s.peerRegistry where
  assigned : ∀ b x, s.blockAssignments.isHolder b x = true → s.peerRegistry.Heard x
  reading : ∀ range x, s.Reads range x → s.peerRegistry.Heard x

namespace Accounted

theorem of_fewer {t : Swarm} (h : Accounted s) (hr : t.peerRegistry = s.peerRegistry)
    (ha : ∀ b x, t.blockAssignments.isHolder b x = true → s.blockAssignments.isHolder b x = true)
    (hp : ∀ range x, t.Reads range x → s.Reads range x) : Accounted t where
  toAttributed := hr ▸ h.toAttributed
  assigned b x hb := hr ▸ h.assigned b x (ha b x hb)
  reading range x hx := hr ▸ h.reading range x (hp range x hx)

theorem started {clientId : PeerId} {metainfo : Metainfo} (hs : Started clientId metainfo s) :
    Accounted s := by
  obtain ⟨-, -, -, hr, ha, hp⟩ := started_fields hs
  refine ⟨hr ▸ attributed_new _, fun b x hb => ?_, fun range x hx => ?_⟩
  · rw [ha] at hb
    simp [BlockAssignments.isHolder, BlockAssignments.new] at hb
  · obtain ⟨read, hget, -⟩ := hx
    rw [hp] at hget
    simp at hget

theorem plan (h : Accounted s) (env : Entropy) : Accounted (s.plan env).1 := by
  have hg := plan_granted env s
  have hr : (s.plan env).1.peerRegistry = s.peerRegistry := plan_peerRegistry env s
  refine ⟨hr ▸ h.toAttributed, fun b x hb => ?_, fun range x hx => ?_⟩
  · rw [hr]
    rcases (hg.holders b x).mp hb with hold | hnew
    · exact h.assigned b x hold
    · exact h.available _ x (hg.eligible x b hnew).2.1
  · rw [hr]
    unfold Reads at hx
    rw [plan_pendingReads] at hx
    exact h.reading range x hx

theorem onDisconnected (h : Accounted s) (env : Entropy) (x : SocketAddr) :
    Accounted (s.onDisconnected env x).1 where
  toAttributed := h.toAttributed.disconnected x
  assigned b y hb := by
    rw [onDisconnected_blockAssignments, BlockAssignments.isHolder_releasePeer] at hb
    exact heard_disconnected.mpr ⟨h.assigned b y hb.1, hb.2⟩
  reading range y hy := by
    rw [reads_onDisconnected] at hy
    exact heard_disconnected.mpr ⟨h.reading range y hy.1, hy.2⟩

theorem register (h : Accounted s) (x : SocketAddr) (d : ConnectionDirection) (id : PeerId)
    (e : PeerExtensions) : Accounted (s.register x d id e).1 where
  toAttributed := h.toAttributed.connected x id d e
  assigned b y hb := by
    rw [register_blockAssignments, BlockAssignments.isHolder_releasePeer] at hb
    exact h.assigned b y hb.1
  reading := h.reading

theorem onConnected (h : Accounted s) (env : Entropy) (x : SocketAddr) (d : ConnectionDirection)
    (id : PeerId) (e : PeerExtensions) : Accounted (s.onConnected env x d id e).1 := by
  rcases onConnected_cases env s x d id e with ⟨-, hs⟩ | ⟨_, -, -, hs⟩ | ⟨old, -, -, hs⟩ <;> rw [hs]
  · exact h.register x d id e
  · exact h
  · exact (h.onDisconnected env old.1).register x d id e

theorem handleMessage {r : PeerRegistry} {x : SocketAddr} {m : Message} (h : Accounted s)
    (ha : s.peerRegistry.apply x m = .ok r) (sha1 : Sha1) (env : Entropy) :
    Accounted (Swarm.handleMessage sha1 env { s with peerRegistry := r } x m).1 := by
  have hr : (Swarm.handleMessage sha1 env { s with peerRegistry := r } x m).1.peerRegistry = r :=
    handleMessage_peerRegistry ..
  have hheard := Attributed.heard_apply ha
  refine ⟨?_, fun b y hb => ?_, fun range y hy => ?_⟩
  · rw [hr]
    exact h.toAttributed.apply ha
  · rw [hr, hheard]
    exact .inl (h.assigned b y ((handleMessage_isHolder ..).mp hb).1)
  · rw [hr, hheard]
    rcases reads_handleMessage hy with hyx | ⟨range', hold⟩
    · exact .inr hyx
    · exact .inl (h.reading range' y hold)

theorem step (sha1 : Sha1) (s : Swarm) (i : Input × Entropy) (h : Accounted s) :
    Accounted (step sha1 s i).1 := by
  obtain ⟨input, env⟩ := i
  cases input with
  | peersDiscovered addrs => exact h
  | peerConnected id d x e => exact h.onConnected env x d id e
  | peerDisconnected x => exact h.onDisconnected env x
  | messageReceived x m =>
    simp only [Swarm.step]
    rcases onMessage_cases sha1 env s x m with ⟨_, -, hs, -⟩ | ⟨r, ha, -, hs⟩ | ⟨r, ha, -, hs⟩ <;>
      rw [hs]
    · exact h
    · exact h.handleMessage ha sha1 env
    · exact (h.handleMessage ha sha1 env).plan env
  | localPiece i data => exact h.of_fewer rfl (fun _ _ hb => hb) (fun _ _ hx => hx)
  | uploadReadCompleted id range data =>
    rcases onUploadReadCompleted_cases env s id range data with hs | ⟨_, _, hs⟩ <;>
      simp only [Swarm.step, hs]
    · exact h
    · exact h.of_fewer rfl (fun _ _ hb => hb) (fun _ _ hx => reads_remove hx)
  | swarmCommand cmd =>
    obtain ⟨_, _, _, rfl | rfl, hs⟩ := onSwarmCommand_cases env s cmd <;> simp only [Swarm.step, hs]
    · exact h.of_fewer rfl (fun _ _ hb => hb) (fun _ _ hx => hx)
    · refine h.of_fewer rfl (fun _ _ hb => hb) (fun range x hx => ?_)
      obtain ⟨read, hget, -⟩ := hx
      simp at hget
  | tick t =>
    cases t with
    | block => exact h.plan env
    | pex => exact h

end Accounted

theorem reachable_accounted {clientId : PeerId} {metainfo : Metainfo}
    (hr : Reachable sha1 clientId metainfo s) : Accounted s :=
  History.reachable_invariant (fun _ hs => Accounted.started hs) (Accounted.step sha1) hr

theorem Accounted.registered_holder (h : Accounted s) {b : BlockRange} {x : SocketAddr}
    (hheld : s.blockAssignments.isHolder b x = true) : s.peerRegistry.containsAddr x = true :=
  h.registered x (h.assigned b x hheld)

end Swarm

end Tortue
