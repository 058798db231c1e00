import Tortue.Domain.RoundTrip
import Tortue.Domain.Swarm.Announcements
import Tortue.Domain.Swarm.LocalPieces
import Tortue.Domain.Swarm.UploadQueue
import Tortue.Properties.Fairness

namespace Tortue

open Collections PieceManager

theorem Piece.mem_unreceivedBlocks_filled {p : Piece} {data : Bytes} {j k : Nat} :
    k ∈ (p.filled data j).unreceivedBlocks ↔ j ≤ k ∧ k < p.blocksTotal := by
  have hlength : (p.received data j).length = p.blocksTotal := by simp [received]
  simp only [unreceivedBlocks, filled, List.mem_filter, List.mem_range, hlength,
    decide_eq_true_eq]
  constructor
  · rintro ⟨hk, hmissing⟩
    rw [getElem?_received hk] at hmissing
    split_ifs at hmissing with hlt
    · simp at hmissing
    · exact ⟨Nat.not_lt.mp hlt, hk⟩
  · rintro ⟨hjk, hk⟩
    rw [getElem?_received hk, if_neg (Nat.not_lt.mpr hjk)]
    exact ⟨hk, rfl⟩

namespace Swarm

open BlockAssignments

variable {sha1 : Sha1} {env : Entropy} {s t : Swarm} {m : Metainfo} {clientId : PeerId}

theorem requestsOf_step (sha1 : Sha1) (s : Swarm) (i : Input × Entropy) :
    requestsOf (step sha1 s i).2 = [] ∨
      ∃ t : Swarm, (step sha1 s i).1 = (t.plan i.2).1 ∧
        requestsOf (step sha1 s i).2 = requestsOf (t.plan i.2).2 := by
  obtain ⟨input, env⟩ := i
  cases input with
  | peersDiscovered addrs => exact .inl (plain_onDiscovered s addrs).requestsOf
  | peerConnected id d x e => exact .inl (plain_onConnected env s x d id e).requestsOf
  | peerDisconnected x => exact .inl (plain_onDisconnected env s x).requestsOf
  | messageReceived x message =>
    simp only [step]
    rcases onMessage_cases sha1 env s x message with
      ⟨_, -, -, hout⟩ | ⟨r, -, -, hs⟩ | ⟨r, -, -, hs⟩
    · refine .inl (requestsOf_eq_nil fun o ho y b hb => ?_)
      have hdisconnect := hout o ho
      rw [hb] at hdisconnect
      contradiction
    · rw [hs]
      exact .inl (requestsOf_handleMessage ..)
    · refine .inr ⟨(handleMessage sha1 env { s with peerRegistry := r } x message).1, ?_⟩
      rw [hs, requestsOf_append, requestsOf_handleMessage, List.nil_append]
      exact ⟨rfl, rfl⟩
  | localPiece i data => exact .inl rfl
  | uploadReadCompleted id range data =>
    simp only [step]
    rcases onUploadReadCompleted_cases env s id range data with hs | ⟨_, addrs, hs⟩
    · rw [hs]
      exact .inl rfl
    · rw [hs]
      refine .inl (requestsOf_eq_nil fun o ho y b hb => ?_)
      obtain ⟨z, -, rfl⟩ := List.mem_map.mp ho
      simp at hb
  | swarmCommand cmd => exact .inl (plain_onSwarmCommand env s cmd).requestsOf
  | tick tick =>
    cases tick with
    | block => exact .inr ⟨s, rfl, rfl⟩
    | pex => exact .inl (plain_pexOutputs env s).requestsOf

theorem requested_unreceived {i : Input × Entropy} {x : SocketAddr} {b : BlockRange}
    (h : .sendToPeer x (.request b) ∈ (step sha1 s i).2) :
    b ∈ (step sha1 s i).1.pieces.unreceivedBlocks b.pieceIndex := by
  rw [← mem_requestsOf] at h
  rcases requestsOf_step sha1 s i with hnone | ⟨t, hs, hrequests⟩
  · rw [hnone] at h
    contradiction
  · rw [hrequests] at h
    obtain ⟨hplanned, -⟩ := (plan_granted i.2 t).eligible x b h
    obtain ⟨j, -, hb⟩ := mem_plannedBlocks.mp hplanned
    rw [mem_unreceivedBlocks_index hb, hs, plan_pieces]
    exact hb

theorem narrow_block {pm : PieceManager} (hs : pm.Sound) (hm : Described m pm) (hnarrow : m.Narrow)
    {b : BlockRange} (hb : b ∈ pm.unreceivedBlocks b.pieceIndex) :
    b.pieceIndex < 2 ^ 32 ∧ b.pieceOffset < 2 ^ 32 ∧ b.len < 2 ^ 32 := by
  cases hp : pm.pieces[b.pieceIndex]? with
  | none => simp [PieceManager.unreceivedBlocks, hp] at hb
  | some p =>
    have hi : b.pieceIndex < m.pieces.length :=
      hm.length ▸ (List.getElem?_eq_some_iff.mp hp).1
    obtain ⟨hlen, -⟩ := hm.piece _ p hp
    rw [unreceivedBlocks_eq hp (hs.pieces _ p hp)] at hb
    obtain ⟨k, hk, heq⟩ := List.mem_map.mp hb
    obtain ⟨hstart, -⟩ := unreceived_start (hs.pieces _ p hp) hk
    obtain ⟨hindex, hsize⟩ := hnarrow _ _ hi hlen (by omega)
    have hoffset : b.pieceOffset = k * blockSize := by rw [← heq]
    have hblock : b.len = p.blockLengthAt k := by rw [← heq]
    refine ⟨hindex, by omega, ?_⟩
    rw [hblock, Piece.blockLengthAt]
    exact Nat.lt_of_le_of_lt (Nat.min_le_right ..) (by decide)

theorem requests_narrow {h : Trace} (hist : History (step sha1) (Started clientId m) h s)
    (hnarrow : m.Narrow) {e : Happening} (he : e ∈ h) {x : SocketAddr} {range : BlockRange}
    (hout : .sendToPeer x (.request range) ∈ e.outputs) :
    range.pieceIndex < 2 ^ 32 ∧ range.pieceOffset < 2 ^ 32 ∧ range.len < 2 ^ 32 := by
  obtain ⟨newer, older, hh⟩ := List.mem_iff_append.mp he
  obtain ⟨hbefore, heq⟩ := hist.event_before hh
  rw [heq] at hout
  have hafter := hbefore.next e.input
  exact narrow_block (history_sound hafter) (history_described hafter) hnarrow
    (requested_unreceived hout)

theorem requested_stable (r : PeerRegistry) (blocks : List BlockRange) (x : SocketAddr)
    (b : BlockRange) : Stable r blocks fun p => (x, b) ∈ requestsOf p.outputs where
  progress _ _ h := h
  draw _ h := h
  grant p c y _ _ _ h := by
    rw [requestsOf_grant]
    exact List.mem_append_left _ h

theorem planDepth_passed {r : PeerRegistry} {k : Nat} {blocks : List BlockRange} {p : Plan}
    (h : ∀ c ∈ blocks, candidates r p.assignments c = []) :
    SameRequests p (planDepth r blocks p k) := by
  refine List.foldlRecOn (motive := SameRequests p) blocks _ ⟨rfl, rfl, rfl, rfl⟩
    fun q hq c hc => hq.trans (planBlock_passed (.inr (.inr ?_)))
  rw [hq.assignments]
  exact h c hc

theorem planBlock_requests {r : PeerRegistry} {k : Nat} {p : Plan} {b : BlockRange}
    {x : SocketAddr} (hbudget : p.budget ≠ 0) (hcount : p.holders.getD b 0 = k)
    (hx : x ∈ candidates r p.assignments b) :
    ∃ y, (y, b) ∈ requestsOf (planBlock r k p b).outputs := by
  rcases planBlock_cases (r := r) k p b with
    ⟨hskip, -⟩ | ⟨-, -, hnone, -⟩ | ⟨y, -, -, -, hs⟩
  · exact absurd hcount (hskip.resolve_left hbudget)
  · rw [hnone] at hx
    contradiction
  · refine ⟨y, ?_⟩
    rw [hs, requestsOf_grant]
    exact List.mem_append_right _ (List.mem_singleton_self _)

theorem planDepth_requests {r : PeerRegistry} {k : Nat} {blocks : List BlockRange} {p : Plan}
    {b : BlockRange} {x : SocketAddr} (hb : b ∈ blocks) (hbudget : p.budget ≠ 0)
    (hcount : p.holders.getD b 0 = k) (hx : x ∈ candidates r p.assignments b)
    (honly : ∀ c ∈ blocks, c ≠ b → candidates r p.assignments c = []) :
    ∃ y, (y, b) ∈ requestsOf (planDepth r blocks p k).outputs := by
  obtain ⟨pre, post, hsplit, hpre⟩ := List.eq_append_cons_of_mem hb
  have hpassed : SameRequests p (planDepth r pre p k) := by
    refine planDepth_passed fun c hc => honly c (hsplit ▸ List.mem_append_left _ hc) ?_
    rintro rfl
    exact hpre hc
  obtain ⟨y, hy⟩ := planBlock_requests (r := r) (p := planDepth r pre p k)
    (hpassed.budget ▸ hbudget) (hpassed.holders ▸ hcount) (hpassed.assignments ▸ hx)
  refine ⟨y, ?_⟩
  rw [hsplit, planDepth, List.foldl_append, List.foldl_cons]
  exact (requested_stable r post y b).planDepth hy

theorem plan_requests (env : Entropy) {b : BlockRange} {x : SocketAddr}
    (hd : s.status.download = true) (hbudget : s.budget ≠ 0) (hb : b ∈ s.plannedBlocks)
    (hholders : ∀ y, s.blockAssignments.isHolder b y = false)
    (hx : x ∈ candidates s.peerRegistry s.blockAssignments b)
    (honly : ∀ c ∈ s.plannedBlocks, c ≠ b →
      candidates s.peerRegistry s.blockAssignments c = []) :
    ∃ y, (y, b) ∈ requestsOf (s.plan env).2 := by
  obtain ⟨y, hy⟩ := planDepth_requests (p := { s.initialPlan env with progressed := false }) hb
    hbudget ((holderCounts_eq_zero_iff _ _).mpr hholders) hx honly
  refine ⟨y, ?_⟩
  unfold plan
  rw [if_neg (by simp [hd]), if_neg hbudget]
  exact (requested_stable s.peerRegistry s.plannedBlocks y b).finalPlan env hbudget hy

section

variable {x : SocketAddr} {id : PeerId} {d : ConnectionDirection} {e : PeerExtensions} {i : Nat}

theorem apply_accepts {r : PeerRegistry} {p : PeerState} {message : Message}
    (hp : r.peers.get x = some p) (hfast : message.needsFast = false) :
    ∃ r', r.apply x message = .ok r' := by
  unfold PeerRegistry.apply
  rw [hp]
  simp [hfast]

structure SoleSource (s : Swarm) (x : SocketAddr) (i : Nat) : Prop where
  download : s.status.download = true
  unchoked : ∃ p, s.peerRegistry.peers.get x = some p ∧ p.peerChoking = false
  known : ∀ j y, s.peerRegistry.availability.has j y = true ↔ j = i ∧ y = x
  unassigned : ∀ b y, s.blockAssignments.isHolder b y = false
  room : 0 < s.blockAssignments.freeSlotsFor x

theorem SoleSource.candidate (h : SoleSource s x i) {b : BlockRange} (hb : b.pieceIndex = i) :
    x ∈ candidates s.peerRegistry s.blockAssignments b := by
  obtain ⟨p, hp, hunchoked⟩ := h.unchoked
  refine mem_candidates.mpr ⟨(h.known _ _).mpr ⟨hb, rfl⟩, ?_, h.room, h.unassigned b x⟩
  simp [PeerRegistry.canServe, hp, PeerState.canServe, hunchoked]

theorem SoleSource.only (h : SoleSource s x i) {b : BlockRange} (hb : b.pieceIndex ≠ i) :
    candidates s.peerRegistry s.blockAssignments b = [] := by
  refine List.eq_nil_iff_forall_not_mem.mpr fun y hy => ?_
  exact hb ((h.known _ _).mp (mem_candidates.mp hy).1).1

theorem SoleSource.budget (h : SoleSource s x i) : s.budget ≠ 0 := by
  obtain ⟨p, hp, hunchoked⟩ := h.unchoked
  have hmem : x ∈ s.peerRegistry.unchoked := by
    unfold PeerRegistry.unchoked
    refine List.mem_map.mpr ⟨(x, p), List.mem_filter.mpr ⟨HashMap.mem_entries_iff.mpr hp, ?_⟩, rfl⟩
    simp [hunchoked]
  have hpos : 0 < s.budget :=
    List.sum_pos_iff_exists_pos_nat.mpr ⟨_, List.mem_map_of_mem hmem, h.room⟩
  exact hpos.ne'

theorem step_first_connected (env : Entropy) {n : Nat} (hregistry : s.peerRegistry = .new n) :
    (step sha1 s (.peerConnected id d x e, env)).1 = { s with
      blockAssignments := s.blockAssignments.releasePeer x
      peerRegistry := s.peerRegistry.connected x id d e } := by
  rcases onConnected_cases env s x d id e with ⟨-, hs⟩ | ⟨_, hb, -⟩ | ⟨_, hb, -⟩
  · simp only [step, hs]
    rfl
  · rw [hregistry] at hb
    contradiction
  · rw [hregistry] at hb
    contradiction

theorem step_havePiece (env : Entropy) {r : PeerRegistry}
    (hr : s.peerRegistry.apply x (.havePiece i) = .ok r) :
    (step sha1 s (.messageReceived x (.havePiece i), env)).1 = { s with peerRegistry := r } := by
  simp only [step, onMessage, hr]
  rfl

theorem step_unchoke (env : Entropy) {r : PeerRegistry}
    (hr : s.peerRegistry.apply x .unchoke = .ok r) :
    (step sha1 s (.messageReceived x .unchoke, env)).2 =
      (Swarm.plan env { s with peerRegistry := r }).2 := by
  simp only [step, onMessage, hr]
  rfl

theorem sole_source_arrives {clientId : PeerId} {m : Metainfo} {h : Trace}
    (hist : History (step sha1) (Started clientId m) h s) (n : Nat)
    (hregistry : s.peerRegistry = .new n) (hassignments : s.blockAssignments = .new)
    (hstatus : s.status = .active) (x : SocketAddr) (id : PeerId) (d : ConnectionDirection)
    (e : PeerExtensions) (env : Entropy) (i : Nat) :
    ∃ t u : Swarm, t.pieces = s.pieces ∧ SoleSource t x i ∧ ∃ h',
      History (step sha1) (Started clientId m) h' u ∧ ∃ f ∈ h', f.outputs = (t.plan env).2 := by
  obtain ⟨r, hr⟩ : ∃ r, (s.peerRegistry.connected x id d e).apply x (.havePiece i) = .ok r :=
    apply_accepts (p := PeerState.new id e) (by simp [PeerRegistry.connected]) rfl
  obtain ⟨p, hp, -, hpeers, -, havailable⟩ := PeerRegistry.apply_ok hr
  obtain ⟨r', hr'⟩ : ∃ r', r.apply x .unchoke = .ok r' :=
    apply_accepts (p := p.apply (.havePiece i)) (by rw [hpeers, HashMap.get_insert_self]) rfl
  obtain ⟨p', hp', -, hpeers', -, havailable'⟩ := PeerRegistry.apply_ok hr'
  have hhistory := ((hist.next (.peerConnected id d x e, env)).next
    (.messageReceived x (.havePiece i), env)).next (.messageReceived x .unchoke, env)
  refine ⟨{ s with
    blockAssignments := s.blockAssignments.releasePeer x
    peerRegistry := r' }, _, rfl, ⟨?_, ?_, fun j y => ?_, fun b y => ?_, ?_⟩, _, hhistory, _,
      List.mem_cons_self .., ?_⟩
  · simp [hstatus, SwarmStatus.download]
  · exact ⟨p'.apply .unchoke, by simp [hpeers'], rfl⟩
  · simp only [havailable', havailable, PeerRegistry.recordMessage, PeerRegistry.connected]
    rw [PieceAvailability.has_record, hregistry]
    simp [PeerRegistry.new, PieceAvailability.new, PieceAvailability.has]
  · rw [hassignments]
    simp [isHolder, releasePeer, BlockAssignments.new, HashMap.get_remove]
  · rw [hassignments]
    simp [freeSlotsFor, inFlight, releasePeer, BlockAssignments.new, maxInFlightPerPeer]
  · simp only
    rw [step_first_connected env hregistry, step_havePiece env hr, step_unchoke env hr']

theorem SoleSource.requests (h : SoleSource s x i) (env : Entropy) {p : Piece} {n : Nat}
    (hp : s.pieces.pieces[i]? = some p) (hs : p.Sound) (hopen : p.isComplete = false)
    (hmissing : ∀ k, k ∈ p.unreceivedBlocks ↔ k = n) :
    ∃ y, (y, ⟨i, n * blockSize, p.blockLengthAt n⟩) ∈ requestsOf (s.plan env).2 := by
  have hblocks := unreceivedBlocks_eq hp hs
  have hneeded : i ∈ s.pieces.neededPieces := by
    unfold PieceManager.neededPieces
    refine List.mem_filter.mpr ⟨List.mem_range.mpr (List.getElem?_eq_some_iff.mp hp).1, ?_⟩
    simp [hp, hopen]
  have hplanned : (⟨i, n * blockSize, p.blockLengthAt n⟩ : BlockRange) ∈ s.plannedBlocks := by
    refine mem_plannedBlocks.mpr ⟨i, hneeded, ?_⟩
    rw [hblocks]
    exact List.mem_map.mpr ⟨n, (hmissing n).mpr rfl, rfl⟩
  refine plan_requests env h.download h.budget hplanned (h.unassigned _) (h.candidate rfl)
    fun c hc hne => h.only fun hci => hne ?_
  obtain ⟨j, -, hcj⟩ := mem_plannedBlocks.mp hc
  rw [← mem_unreceivedBlocks_index hcj, hci, hblocks] at hcj
  obtain ⟨k, hk, rfl⟩ := List.mem_map.mp hcj
  rw [(hmissing k).mp hk]

theorem prefix_held (sha1 : Sha1) (env : Entropy) {hash : PieceHash} {content : Bytes} {n : Nat}
    (hp : s.pieces.pieces[i]? = some (.new hash content.length))
    (hn : Bitfield.divCeil content.length blockSize = n + 1) :
    ∃ p, (step sha1 s (.localPiece i (content.take (n * blockSize)), env)).1.pieces.pieces =
        s.pieces.pieces.set i p ∧ p.isComplete = false ∧ ∀ k, k ∈ p.unreceivedBlocks ↔ k = n := by
  refine ⟨(Piece.new hash content.length).filled content n, onLocalPiece_take hp hn, rfl,
    fun k => ?_⟩
  have htotal : (Piece.new hash content.length).blocksTotal = n + 1 := hn
  rw [Piece.mem_unreceivedBlocks_filled, htotal]
  omega

theorem new_piece {pm : PieceManager} (hnew : PieceManager.new m = some pm) {len : Nat}
    (hi : i < m.pieces.length) (hlen : pieceLengthAt m i = some len) :
    ∃ hash, pm.pieces[i]? = some (.new hash len) := by
  obtain ⟨hlength, -, hspec⟩ := new_spec hnew
  have hget := List.getElem?_eq_getElem (hlength ▸ hi : i < pm.pieces.length)
  obtain ⟨hash, len', -, hlen', hpiece⟩ := hspec i _ hget
  rw [hlen, Option.some.injEq] at hlen'
  rw [hget, hpiece, hlen']
  exact ⟨hash, rfl⟩

theorem last_block_requested (sha1 : Sha1) (clientId : PeerId) {m : Metainfo} {pm : PieceManager}
    (hnew : PieceManager.new m = some pm) {i len : Nat} (hi : i < m.pieces.length)
    (hlen : pieceLengthAt m i = some len) (hpos : 0 < len) :
    ∃ h s, History (step sha1) (Started clientId m) h s ∧ ∃ f ∈ h, ∃ x range,
      .sendToPeer x (.request range) ∈ f.outputs ∧ range.pieceIndex = i ∧
        range.pieceOffset = (Bitfield.divCeil len blockSize - 1) * blockSize := by
  obtain ⟨s, hs⟩ : ∃ s, Started clientId m s := by
    unfold Started new
    rw [hnew]
    exact ⟨_, rfl⟩
  obtain ⟨pieces, hpieces, hstart⟩ := started_eq hs
  rw [hnew, Option.some.injEq] at hpieces
  obtain ⟨content, rfl⟩ : ∃ content : Bytes, len = content.length :=
    ⟨List.replicate len 0, by simp⟩
  obtain ⟨hash, hp⟩ := new_piece hnew hi hlen
  obtain ⟨n, hn⟩ : ∃ n, Bitfield.divCeil content.length blockSize = n + 1 :=
    Nat.exists_eq_succ_of_ne_zero (Bitfield.divCeil_pos hpos blockSize_pos).ne'
  have hsp : s.pieces.pieces[i]? = some (.new hash content.length) := by
    rw [hstart, ← hpieces]
    exact hp
  obtain ⟨p, hlocal, hopen, hmissing⟩ := prefix_held sha1 Sample.env hsp hn
  have hist : History (step sha1) (Started clientId m) _ _ :=
    (History.start hs).next (.localPiece i (content.take (n * blockSize)), Sample.env)
  obtain ⟨t, u, htpieces, hsole, h, hu, f, hf, hout⟩ := sole_source_arrives hist m.pieces.length
    (by rw [hstart]; rfl) (by rw [hstart]; rfl) (by rw [hstart]; rfl) (Sample.addr 80)
    (Sample.peerId 2) .outbound Sample.extensions Sample.env i
  have htp : t.pieces.pieces[i]? = some p := by
    rw [htpieces, hlocal, getElem?_set_piece hsp, if_pos rfl]
  have hsound := (htpieces ▸ history_sound hist : t.pieces.Sound).pieces i p htp
  obtain ⟨y, hy⟩ := hsole.requests Sample.env htp hsound hopen hmissing
  refine ⟨h, u, hu, f, hf, y, _, hout ▸ mem_requestsOf.mp hy, rfl, ?_⟩
  rw [hn, Nat.add_sub_cancel]

end

theorem narrow_survives {range : BlockRange}
    (h : range.pieceIndex < 2 ^ 32 ∧ range.pieceOffset < 2 ^ 32 ∧ range.len < 2 ^ 32)
    (o : IterOrder) : Message.decode ((Message.request range).encode o) = .ok (.request range) :=
  Message.decode_range 6 Message.request (fun _ => rfl) h

theorem last_offset_wide {len : Nat} (h : 2 ^ 32 < len) :
    2 ^ 32 ≤ (Bitfield.divCeil len blockSize - 1) * blockSize := by
  unfold Bitfield.divCeil blockSize
  omega

theorem requests_survive_iff (sha1 : Sha1) (clientId : PeerId) {m : Metainfo} {pm : PieceManager}
    (hnew : PieceManager.new m = some pm) :
    (∀ h s, History (step sha1) (Started clientId m) h s → ∀ e ∈ h, ∀ x range,
      .sendToPeer x (.request range) ∈ e.outputs →
        (range.pieceIndex < 2 ^ 32 ∧ range.pieceOffset < 2 ^ 32 ∧ range.len < 2 ^ 32) ∧
          ∀ o, Message.decode ((Message.request range).encode o) = .ok (.request range)) ↔
      m.Narrow := by
  constructor
  · intro hall i len hi hlen hpos
    obtain ⟨h, s, hist, f, hf, x, range, hout, hindex, hoffset⟩ :=
      last_block_requested sha1 clientId hnew hi hlen hpos
    obtain ⟨⟨hnarrow, hstart, -⟩, -⟩ := hall h s hist f hf x range hout
    refine ⟨hindex ▸ hnarrow, Nat.not_lt.mp fun hwide => ?_⟩
    have hlast := last_offset_wide hwide
    omega
  · intro hnarrow h s hist e he x range hout
    have hfits := requests_narrow hist hnarrow he hout
    exact ⟨hfits, narrow_survives hfits⟩

theorem sample_request_survives : ∃ h s, History (step Sample.sha1)
      (Started (Sample.peerId 1) Sample.pairMetainfo) h s ∧
    ∃ e ∈ h, .sendToPeer (Sample.addr 80) (.request ⟨0, 16384, 16384⟩) ∈ e.outputs ∧
      Message.decode ((Message.request ⟨0, 16384, 16384⟩).encode .insertion) =
        .ok (.request ⟨0, 16384, 16384⟩) := by
  have hnarrow : Sample.pairMetainfo.Narrow := by
    intro i len hi hlen _
    have hi : i < 2 := hi
    have hlen : min (40000 - i * 32768) 32768 = len := by
      interval_cases i <;> exact Option.some.inj hlen
    omega
  have hnew : PieceManager.new Sample.pairMetainfo = some Sample.pair.pieces := rfl
  have hist := Sample.run_history Sample.pair_started Sample.pairRequesting
  have hsent : (History.events (step Sample.sha1) Sample.pair Sample.pairRequesting).any (fun e =>
      decide (.sendToPeer (Sample.addr 80) (.request ⟨0, 16384, 16384⟩) ∈ e.outputs)) = true := by
    decide +kernel
  obtain ⟨e, he, hout⟩ := List.any_eq_true.mp hsent
  exact ⟨_, _, hist, e, he, of_decide_eq_true hout,
    ((requests_survive_iff Sample.sha1 (Sample.peerId 1) hnew).mpr hnarrow _ _ hist e he _ _
      (of_decide_eq_true hout)).2 .insertion⟩

end Swarm

namespace Metainfo

def wideBytes : Bytes :=
  ByteStr "d8:announce1:u4:infod6:lengthi4294967297e4:name1:n12:piece lengthi4294967298e6:pieces" ++
    ByteStr "20:" ++ List.replicate 20 0 ++ ByteStr "ee"

theorem wideBytes_accepted : ∃ m, tryFrom Sample.sha1 wideBytes = .ok m ∧
    m.pieces.length = 1 ∧ m.mode = .single 4294967297 := by
  have hchecked : (tryFrom Sample.sha1 wideBytes).toOption.any
      (fun m => decide (m.pieces.length = 1 ∧ m.mode = .single 4294967297)) = true := by
    decide +kernel
  obtain ⟨m, hm, haccepted⟩ := Except.exists_ok hchecked
  exact ⟨m, hm, of_decide_eq_true haccepted⟩

end Metainfo

namespace Swarm

theorem wide_offset_requested : ¬ ∀ sha1 data m, Metainfo.tryFrom sha1 data = .ok m →
    ∀ pm, PieceManager.new m = some pm → ∀ clientId h s,
      History (step sha1) (Started clientId m) h s → ∀ e ∈ h, ∀ x range,
        .sendToPeer x (.request range) ∈ e.outputs →
          range.pieceIndex < 2 ^ 32 ∧ range.pieceOffset < 2 ^ 32 ∧ range.len < 2 ^ 32 := by
  intro hall
  obtain ⟨m, hm, hn, hmode⟩ := Metainfo.wideBytes_accepted
  have hlen : pieceLengthAt m 0 = some 4294967297 := by
    unfold pieceLengthAt Metainfo.totalSize
    rw [hn, hmode, Nat.zero_mul]
    rfl
  obtain ⟨pm, hnew⟩ := (new_isSome_iff m).mpr fun i hi => by
    have hzero : i = 0 := by omega
    exact ⟨_, hzero ▸ hlen⟩
  obtain ⟨h, s, hist, f, hf, x, range, hout, -, hoffset⟩ :=
    last_block_requested Sample.sha1 (Sample.peerId 1) hnew (by omega) hlen (by decide)
  obtain ⟨-, hstart, -⟩ := hall _ _ m hm pm hnew _ h s hist f hf x range hout
  have hwide : 2 ^ 32 ≤ (Bitfield.divCeil 4294967297 blockSize - 1) * blockSize :=
    last_offset_wide (by decide)
  omega

end Swarm

end Tortue
