import Tortue.Domain.Swarm.Announcements

namespace Tortue

open Collections

def Message.Names (p : Nat) : Message → Prop
  | .havePiece j | .allowedFast j | .suggestPiece j => j = p
  | .bitfield bits => Bitfield.bitSet bits p = true
  | _ => False

namespace PieceAvailability

variable {a : PieceAvailability} {p : Nat}

theorem contains_records (pieces : List Nat) (a : PieceAvailability) (x : SocketAddr) (p : Nat) :
    (pieces.foldl (fun a piece => a.record piece x) a).byPiece.contains p = true ↔
      p ∈ pieces ∨ a.byPiece.contains p = true := by
  induction pieces generalizing a with
  | nil => simp
  | cons q pieces ih =>
    rw [List.foldl_cons, ih, record, HashMap.contains_insert, List.mem_cons, Bool.or_eq_true,
      decide_eq_true_eq, or_left_comm, or_assoc]

theorem contains_removePeer {x : SocketAddr} (h : (a.removePeer x).byPiece.contains p = true) :
    a.byPiece.contains p = true := by
  obtain ⟨peers, hpeers⟩ := HashMap.contains_iff.mp h
  rw [removePeer, HashMap.get_retain] at hpeers
  obtain ⟨before, hbefore, -⟩ := Option.bind_eq_some_iff.mp hpeers
  exact HashMap.contains_iff.mpr ⟨before, hbefore⟩

end PieceAvailability

namespace PeerState

def Keeps (peer : PeerState) (p : Nat) : Prop :=
  peer.allowedFast.contains p = true ∨ peer.suggested.contains p = true

theorem keeps_new {id : PeerId} {e : PeerExtensions} {p : Nat} :
    ¬ (PeerState.new id e).Keeps p := by
  simp [Keeps, PeerState.new]

end PeerState

namespace PeerRegistry

open PieceAvailability

variable {n p : Nat} {r r' : PeerRegistry} {x : SocketAddr} {m : Message}

def Stores (r : PeerRegistry) (p : Nat) : Prop :=
  r.availability.byPiece.contains p = true ∨ ∃ x peer, r.peers.get x = some peer ∧ peer.Keeps p

theorem stores_recordMessage {a : PieceAvailability} (ht : a.totalPieces = n)
    (h : (recordMessage a x m).byPiece.contains p = true) :
    a.byPiece.contains p = true ∨ m.Names p ∨ p < n := by
  cases m with
  | bitfield bits =>
    simp only [recordMessage, Bitfield.tryFrom_eq] at h
    rcases (contains_records _ _ x p).mp h with hin | hbefore
    · exact .inr (.inl (Bitfield.mem_iter.mp hin))
    · exact .inl (contains_removePeer hbefore)
  | havePiece q =>
    rcases (contains_records [q] a x p).mp h with hin | hbefore
    · exact .inr (.inl (List.mem_singleton.mp hin).symm)
    · exact .inl hbefore
  | haveAll =>
    rcases (contains_records _ a x p).mp h with hin | hbefore
    · exact .inr (.inr (ht ▸ List.mem_range.mp hin))
    · exact .inl hbefore
  | haveNone => exact .inl (contains_removePeer h)
  | _ => exact .inl h

theorem keeps_apply {peer : PeerState} (h : (peer.apply m).Keeps p) : peer.Keeps p ∨ m.Names p := by
  cases m with
  | allowedFast q =>
    simp only [PeerState.Keeps, PeerState.apply, HashSet.contains_add, Bool.or_eq_true,
      decide_eq_true_eq, Message.Names] at h ⊢
    grind
  | suggestPiece q =>
    simp only [PeerState.Keeps, PeerState.apply, HashSet.contains_add, Bool.or_eq_true,
      decide_eq_true_eq, Message.Names] at h ⊢
    grind
  | _ => exact .inl h

theorem stores_apply (ht : r.availability.totalPieces = n) (ha : r.apply x m = .ok r')
    (h : r'.Stores p) : r.Stores p ∨ m.Names p ∨ p < n := by
  obtain ⟨sender, hsender, -, hpeers, -, havail⟩ := apply_ok ha
  rcases h with hstored | ⟨y, peer, hpeer, hkeeps⟩
  · exact (stores_recordMessage ht (havail ▸ hstored)).imp_left .inl
  · rw [hpeers, HashMap.get_insert] at hpeer
    split at hpeer
    · rw [Option.some.injEq] at hpeer
      rcases keeps_apply (hpeer ▸ hkeeps) with hbefore | hnames
      · exact .inl (.inr ⟨x, sender, hsender, hbefore⟩)
      · exact .inr (.inl hnames)
    · exact .inl (.inr ⟨y, peer, hpeer, hkeeps⟩)

theorem stores_named (ha : r.apply x m = .ok r') (h : m.Names p) : r'.Stores p := by
  obtain ⟨sender, -, -, hpeers, -, havail⟩ := apply_ok ha
  have hget : r'.peers.get x = some (sender.apply m) := by rw [hpeers, HashMap.get_insert_self]
  cases m with
  | havePiece q =>
    refine .inl ?_
    rw [havail]
    exact (contains_records [q] _ x p).mpr (.inl (List.mem_singleton.mpr (Eq.symm h)))
  | bitfield bits =>
    refine .inl ?_
    rw [havail]
    simp only [recordMessage, Bitfield.tryFrom_eq]
    exact (contains_records _ _ x p).mpr (.inl (Bitfield.mem_iter.mpr h))
  | allowedFast q =>
    refine .inr ⟨x, _, hget, .inl ?_⟩
    rw [PeerState.apply, HashSet.contains_add, Bool.or_eq_true, decide_eq_true_eq]
    exact .inl (Eq.symm h)
  | suggestPiece q =>
    refine .inr ⟨x, _, hget, .inr ?_⟩
    rw [PeerState.apply, HashSet.contains_add, Bool.or_eq_true, decide_eq_true_eq]
    exact .inl (Eq.symm h)
  | _ => exact absurd h id

theorem stores_disconnected (h : (r.disconnected x).Stores p) : r.Stores p := by
  rcases h with hstored | ⟨y, peer, hpeer, hkeeps⟩
  · exact .inl (contains_removePeer ((disconnected_rest r x).2.2 ▸ hstored))
  · rw [disconnected_peers, HashMap.get_remove] at hpeer
    split at hpeer
    · contradiction
    · exact .inr ⟨y, peer, hpeer, hkeeps⟩

theorem stores_connected {id : PeerId} {d : ConnectionDirection} {e : PeerExtensions}
    (h : (r.connected x id d e).Stores p) : r.Stores p := by
  rcases h with hstored | ⟨y, peer, hpeer, hkeeps⟩
  · exact .inl hstored
  · simp only [connected, HashMap.get_insert] at hpeer
    split at hpeer
    · rw [Option.some.injEq] at hpeer
      exact absurd (hpeer ▸ hkeeps) PeerState.keeps_new
    · exact .inr ⟨y, peer, hpeer, hkeeps⟩

structure Confined (n : Nat) (r : PeerRegistry) : Prop where
  stored : ∀ p, r.Stores p → p < n
  available : r.availability.byPiece.len ≤ n
  offered : ∀ x peer, r.peers.get x = some peer →
    peer.allowedFast.len ≤ n ∧ peer.suggested.len ≤ n

theorem confined_iff : Confined n r ↔ ∀ p, r.Stores p → p < n := by
  refine ⟨Confined.stored, fun h => ⟨h, ?_, fun x peer hpeer => ⟨?_, ?_⟩⟩⟩
  · exact HashMap.len_le_of_keys_lt fun p hp => h p (.inl hp)
  · exact HashMap.len_le_of_keys_lt fun p hp => h p (.inr ⟨x, peer, hpeer, .inl hp⟩)
  · exact HashMap.len_le_of_keys_lt fun p hp => h p (.inr ⟨x, peer, hpeer, .inr hp⟩)

theorem confined_new (n : Nat) : Confined n (.new n) := by
  refine confined_iff.mpr fun p hp => ?_
  simp [Stores, PeerRegistry.new, PieceAvailability.new] at hp

end PeerRegistry

namespace Swarm

open PeerRegistry

variable {sha1 : Sha1} {clientId : PeerId} {metainfo : Metainfo} {s : Swarm} {h : Trace} {n : Nat}

def Oversteps (n : Nat) (e : Happening) : Prop :=
  ∃ x m p, e.input.1 = .messageReceived x m ∧ ¬ e.before.peerRegistry.Rejects x m ∧
    m.Names p ∧ n ≤ p

theorem Enrolment.confined_iff {i : Input × Entropy} {r : PeerRegistry} (h : Enrolment s i.1 r)
    (ht : s.peerRegistry.availability.totalPieces = n) (hs : Confined n s.peerRegistry)
    (outputs : List Output) : Confined n r ↔ ¬ Oversteps n ⟨s, i, outputs⟩ := by
  constructor
  · rintro hafter ⟨x, m, p, hi, haccepted, hnames, hle⟩
    obtain ⟨r', hr'⟩ := accepted_iff.mpr haccepted
    cases h with
    | keep hquiet _ _ => exact hquiet x m r' hi hr'
    | message y m' hi' ha =>
      rw [show i.1 = .messageReceived x m from hi, Input.messageReceived.injEq] at hi'
      obtain ⟨rfl, rfl⟩ := hi'
      exact absurd (hafter.stored p (stores_named ha hnames)) (Nat.not_lt.mpr hle)
    | leave y hi' _ => exact absurd (hi.symm.trans hi') (by simp)
    | join _ _ _ _ hi' _ _ => exact absurd (hi.symm.trans hi') (by simp)
    | replace _ _ _ _ _ hi' _ _ => exact absurd (hi.symm.trans hi') (by simp)
  · intro hno
    refine PeerRegistry.confined_iff.mpr fun p hp => ?_
    cases h with
    | keep _ _ hr => exact hs.stored p (hr ▸ hp)
    | message x m hi ha =>
      rcases stores_apply ht ha hp with hbefore | hnames | hlt
      · exact hs.stored p hbefore
      · by_contra hout
        exact hno ⟨x, m, p, hi, accepted_iff.mp ⟨r, ha⟩, hnames, Nat.le_of_not_lt hout⟩
      · exact hlt
    | leave x _ hr => exact hs.stored p (stores_disconnected (hr ▸ hp))
    | join id d x e _ _ hr => exact hs.stored p (stores_connected (hr ▸ hp))
    | replace id d x old e _ _ hr =>
      exact hs.stored p (stores_disconnected (stores_connected (hr ▸ hp)))

theorem indices_confined_iff (hist : History (step sha1) (Started clientId metainfo) h s) :
    ((∀ e ∈ h, Confined metainfo.pieces.length e.before.peerRegistry) ∧
      Confined metainfo.pieces.length s.peerRegistry) ↔
      ∀ e ∈ h, ¬ Oversteps metainfo.pieces.length e := by
  induction hist with
  | start hs =>
    simp [(started_fields hs).2.2.2.1, confined_new]
  | @next h s i hist ih =>
    have ht := (history_classified hist).tidy.total
    have hstep := (enrolment_step sha1 s i).confined_iff ht
    simp only [List.forall_mem_cons]
    constructor
    · rintro ⟨⟨hs, hbefore⟩, hafter⟩
      exact ⟨(hstep hs _).mp hafter, ih.mp ⟨hbefore, hs⟩⟩
    · rintro ⟨hno, hnone⟩
      obtain ⟨hbefore, hs⟩ := ih.mpr hnone
      exact ⟨⟨hs, hbefore⟩, (hstep hs _).mpr hno⟩

theorem requesting_confined :
    (∀ e ∈ History.events (step Sample.sha1) Sample.swarm Sample.requesting,
      Confined 1 e.before.peerRegistry) ∧ Confined 1 Sample.requested.peerRegistry := by
  refine (indices_confined_iff (Sample.history Sample.requesting)).mpr ?_
  rintro e he ⟨x, m, p, hi, -, hnames, hle⟩
  have hin := History.mem_events he
  simp only [Sample.requesting, List.mem_cons, List.not_mem_nil, or_false] at hin
  rcases hin with hin | hin | hin
  · rw [hin] at hi
    simp [Sample.connect] at hi
  · rw [hin, Sample.message, Input.messageReceived.injEq] at hi
    rw [← hi.2] at hnames
    exact absurd hle (by rw [← show 0 = p from hnames]; decide)
  · rw [hin, Sample.message, Input.messageReceived.injEq] at hi
    rw [← hi.2] at hnames
    exact hnames

theorem have_beyond_stored :
    Reachable Sample.sha1 (Sample.peerId 1) Sample.metainfo
        (History.run (step Sample.sha1) Sample.swarm
          [Sample.connect 2 .outbound 80, Sample.message 80 (.havePiece 4294967295)]).1 ∧
      (History.run (step Sample.sha1) Sample.swarm
        [Sample.connect 2 .outbound 80,
          Sample.message 80 (.havePiece 4294967295)]).1.peerRegistry.Stores 4294967295 ∧
      Sample.metainfo.pieces.length = 1 :=
  ⟨⟨_, Sample.history _⟩, .inl (by decide +kernel), rfl⟩

end Swarm

end Tortue
