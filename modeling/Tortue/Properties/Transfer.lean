import Mathlib.Algebra.Order.BigOperators.Group.Finset
import Tortue.Adapters.TransferRuns

namespace Tortue

open Collections

namespace Transfer

variable {ι : Type} {sha1 : Sha1} {m : Metainfo} {content : Bytes}
  {disk : ι → List OutputFile} {t : Topology ι} {e e' start : Transfer ι} {i : ι}

theorem Running.settled (h : Running sha1 m content t e) (hw : m.Wired) [Nonempty ι]
    (hreg : ∀ i, e.leecher.peerRegistry.containsAddr (t.addr i) = true)
    (htoLeecher : ∀ i, e.toLeecher i = []) (htoSeeder : ∀ i, e.toSeeder i = [])
    (hreads : ∀ i, (e.seeders i).pendingReads.keys = []) :
    e.leecher.pieces.isComplete = true := by
  by_contra hopen
  rw [Bool.not_eq_true] at hopen
  have hnone : ∀ i, outstanding (e.seeders i) (e.toSeeder i) (e.toLeecher i) = [] := by
    intro i
    rw [outstanding, htoLeecher, htoSeeder, hreads]
    rfl
  obtain ⟨b, hb⟩ := PieceManager.exists_wanted h.leeching.sound (h.leeching.underway hw) hopen
  have hplanned := h.leeching.mem_plannedBlocks.mpr hb
  obtain ⟨i⟩ := ‹Nonempty ι›
  obtain ⟨p, hp⟩ := HashMap.contains_iff.mp (hreg i)
  have hlink := h.links i
  have hunchoked : p.peerChoking = false := by
    rcases hlink.courtship.courted p hp with hq | ⟨f, hf, -⟩ | ⟨f, hf, -⟩
    · exact hq
    · rw [htoSeeder] at hf
      contradiction
    · rw [htoLeecher] at hf
      contradiction
  have hseeds : e.leecher.peerRegistry.availability.isSeeder (t.addr i) = true :=
    hlink.courtship.known p hp hunchoked
  have hhas := (PieceAvailability.isSeeder_iff h.leeching.classified.tidy _).mp hseeds b.pieceIndex
    (h.leeching.planned_block hplanned).index
  refine h.busy b (t.addr i) ⟨Swarm.mem_plannedBlocks.mp hplanned, fun z => ?_,
    (PieceAvailability.mem_peersFor ..).mpr hhas,
    canServe_eq_some.mpr ⟨p, hp, by simp [PeerState.canServe, hunchoked]⟩, ?_⟩
  · refine Bool.eq_false_iff.mpr fun hheld => ?_
    obtain ⟨clientId, hreachable⟩ := h.leeching.reachable
    have hregistered := (Swarm.reachable_accounted hreachable).registered_holder hheld
    obtain ⟨q, hq⟩ := HashMap.contains_iff.mp hregistered
    obtain ⟨k, rfl⟩ := h.known z q hq
    have hin := ((h.links k).ledger.mem b).mpr hheld
    rw [hnone k] at hin
    contradiction
  · unfold BlockAssignments.freeSlotsFor
    rw [← h.inFlight i, hnone i]
    decide

theorem Seeds.seeding {s : Swarm} (h : Seeds sha1 m s) (y : SocketAddr) : Seeding s y := by
  refine ⟨h.complete, h.uploads, fun z p hp => ?_, ?_, fun b read hread => ?_⟩
  · rw [h.alone] at hp
    contradiction
  · rw [h.alone]
    exact PeerRegistry.noDangling_new _
  · rw [h.idle] at hread
    contradiction

theorem Started.link (h : Started sha1 m content disk start) (t : Topology ι) (i : ι) :
    Link m content (start.leecher.view (t.addr i)) (start.seeders i) (t.own i) (start.toSeeder i)
      (start.toLeecher i) := by
  obtain ⟨o, htoLeecher⟩ := h.toLeecher i
  obtain ⟨o', htoSeeder⟩ := h.toSeeder i
  have hpeer : ∀ p, (start.leecher.view (t.addr i)).peer ≠ some p := by
    intro p hp
    unfold Swarm.view at hp
    rw [h.alone] at hp
    contradiction
  have hholds : ∀ b, (start.leecher.view (t.addr i)).holds b = false := by
    intro b
    unfold Swarm.view
    rw [h.unassigned]
    rfl
  have hnothing : outstanding (start.seeders i) (start.toSeeder i) (start.toLeecher i) = [] := by
    rw [outstanding, htoLeecher, htoSeeder, (h.seeders i).idle]
    rfl
  refine ⟨fun p hp => absurd hp (hpeer p), (h.seeders i).seeding _, fun f hf => ?_, fun f hf => ?_,
    ⟨hnothing ▸ List.nodup_nil, fun b => ?_⟩, fun p hp => absurd hp (hpeer p), ?_,
    fun p hp => absurd hp (hpeer p)⟩
  · rw [htoSeeder] at hf
    rw [List.mem_singleton.mp hf]
    exact .hello
  · rw [htoLeecher] at hf
    rw [List.mem_singleton.mp hf]
    exact .hello
  · rw [hnothing, hholds b]
    simp
  · have hunopened : (start.seeders i).peerRegistry.containsAddr (t.own i) = false := by
      rw [(h.seeders i).alone]
      rfl
    rw [htoLeecher, hunopened]
    exact .inr (.inr ⟨⟨_, rfl⟩, rfl⟩)

theorem Started.running (h : Started sha1 m content disk start) (t : Topology ι) :
    Running sha1 m content t start := by
  refine ⟨⟨h.reachable, ?_, h.matching, h.downloads⟩, fun z p hp => ?_, fun b y hidle => ?_,
    h.identities, fun i => (h.seeders i).reachable, h.link t⟩
  · rw [h.alone]
    exact PeerRegistry.noDangling_new _
  · rw [h.alone] at hp
    contradiction
  · have hserves := hidle.serves
    rw [h.alone] at hserves
    contradiction

theorem Started.kept (h : Started sha1 m content disk start) :
    Kept m content start.leecher.pieces start := by
  refine ⟨fun j hj => hj, [], h.written, List.nodup_nil, fun j => ?_⟩
  simp

def budget [Fintype ι] (e : Transfer ι) : Nat :=
  Fintype.card ι * (5 * e.leecher.plannedBlocks.length + 3 * e.leecher.pieces.missing + 14)

theorem Started.cost_le (h : Started sha1 m content disk start) (t : Topology ι) (i : ι) :
    cost t start i ≤ 5 * start.leecher.plannedBlocks.length +
      3 * start.leecher.pieces.missing + 14 := by
  obtain ⟨o, htoLeecher⟩ := h.toLeecher i
  obtain ⟨o', htoSeeder⟩ := h.toSeeder i
  have hcard : (unasked start.leecher (t.addr i)).card ≤ start.leecher.plannedBlocks.length :=
    (Finset.card_filter_le ..).trans (List.toFinset_card_le _)
  have hreads : (start.seeders i).pendingReads.len = 0 := by
    rw [(h.seeders i).idle]
    rfl
  have hhello : ∀ o, weigh [greeting o m] = 1 := fun _ => rfl
  unfold cost dues arrears
  rw [htoLeecher, htoSeeder, hreads, hhello, hhello]
  split_ifs <;> omega

variable [DecidableEq ι]

theorem Running.reads (hw : m.Wired)
    (hdisk : ∀ i, DiskStorage.Laid m (disk i) ∧ DiskStorage.bytes (disk i) = content)
    (h : Running sha1 m content t e) {b : BlockRange}
    (hb : b ∈ (e.seeders i).pendingReads.keys) (env : Entropy) :
    ∃ e', e.completeRead sha1 m disk t i b env = some e' := by
  obtain ⟨read, hread⟩ := HashMap.contains_iff.mp (HashMap.mem_keys_iff.mp hb)
  obtain ⟨clientId, hreachable⟩ := h.reachable i
  obtain ⟨data, hserve, -⟩ := seeder_reads hw hreachable (h.links i) (hdisk i).1 (hdisk i).2 hread
    env
  unfold completeRead
  rw [hread]
  simp only [hserve]
  exact ⟨_, rfl⟩

theorem Running.reads_leecher (hw : m.Wired) (hd : m.Describes sha1 content)
    (h : Running sha1 m content t e)
    (hreg : e.leecher.peerRegistry.containsAddr (t.addr i) = true) (hsome : e.toLeecher i ≠ []) :
    ∃ learns, ∀ env, ∃ e', e.atLeecher sha1 t i learns env = some e' := by
  obtain ⟨f, rest, hframe⟩ := List.exists_cons_of_ne_nil hsome
  have hfrom := (h.links i).fromSeeder f (hframe ▸ List.mem_cons_self ..)
  obtain ⟨message, hmessage, -⟩ := arrival_same (fromSeeder_sendable hw hd.length hfrom)
  refine ⟨f.2.isExtension, fun env => ?_⟩
  unfold atLeecher
  rw [hframe]
  simp only [hreg, hmessage, ne_eq, not_true_eq_false, Bool.not_true, Bool.false_eq_true, if_false]
  exact ⟨_, rfl⟩

theorem Running.reads_seeder (hw : m.Wired) (h : Running sha1 m content t e)
    (hreg : (e.seeders i).peerRegistry.containsAddr (t.own i) = true) (hsome : e.toSeeder i ≠ []) :
    ∃ learns, ∀ env, ∃ e', e.atSeeder sha1 t i learns env = some e' := by
  obtain ⟨f, rest, hframe⟩ := List.exists_cons_of_ne_nil hsome
  have hfrom := (h.links i).fromLeecher f (hframe ▸ List.mem_cons_self ..)
  obtain ⟨message, hmessage, -⟩ := arrival_same (fromLeecher_sendable hw hfrom)
  refine ⟨f.2.isExtension, fun env => ?_⟩
  unfold atSeeder
  rw [hframe]
  simp only [hreg, hmessage, ne_eq, not_true_eq_false, Bool.not_true, Bool.false_eq_true, if_false]
  exact ⟨_, rfl⟩

theorem Running.moves [Nonempty ι] (hw : m.Wired) (hd : m.Describes sha1 content)
    (hdisk : ∀ i, DiskStorage.Laid m (disk i) ∧ DiskStorage.bytes (disk i) = content)
    (h : Running sha1 m content t e) : e.leecher.pieces.isComplete = true ∨
      ∃ move : Move ι, move.isTick = false ∧
        ∀ env, ∃ e', step sha1 m disk t e (move, env) = some e' := by
  by_contra hstuck
  obtain ⟨hcomplete, hnone⟩ := not_or.mp hstuck
  have hopen := Bool.eq_false_iff.mpr hcomplete
  have hblocked : ∀ move : Move ι, move.isTick = false →
      ¬ ∀ env, ∃ e', step sha1 m disk t e (move, env) = some e' :=
    fun move hmove hall => hnone ⟨move, hmove, hall⟩
  unfold step at hblocked
  rw [hopen] at hblocked
  have hleecher : ∀ i, e.leecher.peerRegistry.containsAddr (t.addr i) = true := by
    intro i
    by_contra hreg
    refine hblocked (.leecherConnected i .outbound) rfl fun env => ?_
    simp only [Bool.false_eq_true, if_false, leecherOpens, if_neg hreg]
    exact ⟨_, rfl⟩
  have hseeder : ∀ i, (e.seeders i).peerRegistry.containsAddr (t.own i) = true := by
    intro i
    by_contra hreg
    refine hblocked (.seederConnected i .inbound) rfl fun env => ?_
    simp only [Bool.false_eq_true, if_false, seederOpens, if_neg hreg]
    exact ⟨_, rfl⟩
  refine hcomplete (h.settled hw hleecher (fun i => ?_) (fun i => ?_) fun i => ?_)
  · by_contra hsome
    obtain ⟨learns, hreads⟩ := h.reads_leecher hw hd (hleecher i) hsome
    cases learns with
    | false => exact hblocked (.leecherReceives i) rfl hreads
    | true => exact hblocked (.leecherLearns i) rfl hreads
  · by_contra hsome
    obtain ⟨learns, hreads⟩ := h.reads_seeder hw (hseeder i) hsome
    cases learns with
    | false => exact hblocked (.seederReceives i) rfl hreads
    | true => exact hblocked (.seederLearns i) rfl hreads
  · by_contra hsome
    obtain ⟨b, rest, hkeys⟩ := List.exists_cons_of_ne_nil hsome
    exact hblocked (.readCompletes i b) rfl (h.reads hw hdisk (hkeys ▸ List.mem_cons_self ..))

variable [Fintype ι] {moves : List (Move ι × Entropy)}

theorem transfer_writes (hfew : Few ι) (hw : m.Wired) (hd : m.Describes sha1 content)
    (hs : Started sha1 m content disk start) (t : Topology ι)
    (hwalk : Walk (step sha1 m disk t) start moves e) :
    (∀ range data, (range, data) ∈ e.written → range = ⟨range.pieceIndex, 0, data.length⟩ ∧
      data = pieceBytes m content range.pieceIndex ∧
      m.pieces[range.pieceIndex]? = some (sha1 data)) ∧
    (e.written.map fun w => w.1.pieceIndex).Nodup ∧
    ∀ i, (i ∈ e.written.map fun w => w.1.pieceIndex) ↔
      e.leecher.pieces.CompleteAt i ∧ ¬ start.leecher.pieces.CompleteAt i := by
  have hboth := hwalk.invariant (P := fun e => Running sha1 m content t e ∧
      Kept m content start.leecher.pieces e) (fun e i e' h hstep =>
    ⟨h.1.turn (step_turn hfew hw hd hs.disks h.1 hstep),
      h.2.turn (step_turn hfew hw hd hs.disks h.1 hstep)⟩)
    ⟨hs.running t, hs.kept⟩
  obtain ⟨hrunning, -, indices, hwritten, henum⟩ := hboth
  have hmap : e.written.map (fun w => w.1.pieceIndex) = indices := by
    rw [hwritten, List.map_map]
    exact List.map_id _
  rw [hmap]
  refine ⟨fun range data hin => ?_, henum.nodup, henum.mem⟩
  rw [hwritten] at hin
  obtain ⟨i, hi, heq⟩ := List.mem_map.mp hin
  obtain ⟨rfl, rfl⟩ := Prod.mk.inj heq
  obtain ⟨⟨p, hp, -⟩, -⟩ := (henum.mem i).mp hi
  refine ⟨rfl, rfl, hd.hashes i ?_⟩
  rw [← hrunning.leeching.described.length]
  exact (List.getElem?_eq_some_iff.mp hp).1

def rank (t : Topology ι) (e : Transfer ι) : Nat := ∑ i, cost t e i

theorem ranked (hfew : Few ι) (hw : m.Wired) (hd : m.Describes sha1 content)
    (hdisk : ∀ i, DiskStorage.Laid m (disk i) ∧ DiskStorage.bytes (disk i) = content)
    (t : Topology ι) : Ranked (step sha1 m disk t) (Running sha1 m content t) (rank t)
      fun i => i.1.advances where
  keeps e i e' h hstep := h.turn (step_turn hfew hw hd hdisk h hstep)
  holds e i e' h hstep := Finset.sum_le_sum fun k _ =>
    (cost_turn (step_turn hfew hw hd hdisk h hstep)).1 k
  falls e i e' h hstep hi := by
    obtain ⟨hle, hlt⟩ := cost_turn (step_turn hfew hw hd hdisk h hstep)
    obtain ⟨k, hk⟩ := hlt hi
    exact Finset.sum_lt_sum (fun k _ => hle k) ⟨k, Finset.mem_univ k, hk⟩

theorem learns_nearer (h : Running sha1 m content t e) {move : Move ι} {env : Entropy}
    (htick : move.isTick = false) (hlearns : move.advances = false)
    (hstep : step sha1 m disk t e (move, env) = some e') :
    ∑ i, frames e' i < ∑ i, frames e i := by
  have hfall : ∀ i, (∀ k, frames e' k + (if k = i then 1 else 0) = frames e k) →
      ∑ k, frames e' k < ∑ k, frames e k := by
    intro i hframes
    refine Finset.sum_lt_sum (fun k _ => (hframes k) ▸ Nat.le_add_right ..)
      ⟨i, Finset.mem_univ i, ?_⟩
    have hone := hframes i
    rw [if_pos rfl] at hone
    omega
  unfold step at hstep
  split_ifs at hstep
  cases move with
  | leecherLearns k => exact hfall k (leecherLearns_frames h hstep)
  | seederLearns k => exact hfall k (seederLearns_frames h hstep)
  | _ => contradiction

theorem transfer_completes [Nonempty ι] (hfew : Few ι) (hw : m.Wired)
    (hd : m.Describes sha1 content) (hs : Started sha1 m content disk start) (t : Topology ι)
    (hwalk : Walk (step sha1 m disk t) start moves e) :
    (moves.countP fun i => i.1.advances) ≤ budget start ∧
      ∃ more e', Walk (step sha1 m disk t) e more e' ∧ e'.leecher.pieces.isComplete = true := by
  have hranked := ranked hfew hw hd hs.disks t
  have hstart := hs.running t
  have hrunning := hwalk.invariant hranked.keeps hstart
  refine ⟨?_, ?_⟩
  · have hbound := hranked.bound hwalk hstart
    have hrank : rank t start ≤ budget start := by
      refine (Finset.sum_le_card_nsmul _ _ _ fun i _ => hs.cost_le t i).trans ?_
      rw [Finset.card_univ]
      exact Nat.le_refl _
    omega
  · have hlive : ∀ e : Transfer ι, Running sha1 m content t e →
        e.leecher.pieces.isComplete = true ∨ ∃ i e', step sha1 m disk t e i = some e' ∧
          Running sha1 m content t e' ∧
          toLex (rank t e', ∑ k, frames e' k) < toLex (rank t e, ∑ k, frames e k) := by
      intro e h
      refine (h.moves hw hd hs.disks).imp_right fun ⟨move, hmove, hall⟩ => ?_
      obtain ⟨e', hstep⟩ := hall ⟨fun _ => 0, .insertion⟩
      refine ⟨(move, _), e', hstep, hranked.keeps _ _ _ h hstep, ?_⟩
      cases hadvances : move.advances with
      | true => exact Prod.Lex.toLex_lt_toLex.mpr (.inl (hranked.falls _ _ _ h hstep hadvances))
      | false =>
        exact Prod.Lex.toLex_lt_toLex'.mpr ⟨hranked.holds _ _ _ h hstep,
          fun _ => learns_nearer h hmove hadvances hstep⟩
    obtain ⟨more, e', hmore, -, hdone⟩ := Walk.arrives
      (fun e : Transfer ι => toLex (rank t e, ∑ k, frames e k)) hlive hrunning
    exact ⟨more, e', hmore, hdone⟩

end Transfer

namespace Sample

def halves : Metainfo :=
  { metainfo with pieceLength := 2, pieces := [octets 0, octets 1], mode := .single 3 }

def halvesContent : Bytes := [1, 2, 3]

def halvesDisk : List OutputFile := [⟨halvesContent, 3, 0⟩]

def halvesSha1 : Sha1 := fun b =>
  if b = [1, 2] then octets 0 else if b = [3] then octets 1 else octets 2

def taker : Swarm := { swarm with
  metainfo := halves
  peerRegistry := .new 2
  pieces := ⟨[.new (octets 0) 2, .new (octets 1) 1], .new 2⟩ }

def giver (id : UInt8) : Swarm :=
  (History.run (Swarm.step halvesSha1) { taker with clientId := peerId id }
    [(.localPiece 0 [1, 2], env), (.localPiece 1 [3], env)]).1

def meeting : Transfer Bool where
  leecher := taker
  seeders second := giver (if second then 3 else 2)
  toLeecher _ := [Transfer.greeting .insertion halves]
  toSeeder _ := [Transfer.greeting .insertion halves]
  written := []
  closed := []

def star : Topology Bool :=
  ⟨fun second => addr (if second then 81 else 80), by decide, fun _ => addr 82⟩

def halvesStep : Transfer Bool → Transfer.Move Bool × Entropy → Option (Transfer Bool) :=
  Transfer.step halvesSha1 halves (fun _ => halvesDisk) star

def halvesAsking : List (Transfer.Move Bool × Entropy) :=
  ([.leecherConnected false .outbound, .leecherConnected true .inbound,
    .seederConnected false .inbound, .seederConnected true .outbound, .leecherReceives false,
    .leecherReceives false, .leecherReceives false, .leecherReceives true, .leecherTick .pex,
    .seederTick true .pex, .leecherReceives true, .leecherReceives true, .seederReceives false,
    .seederReceives false, .seederReceives false, .leecherReceives false, .seederReceives false,
    .leecherReceives false, .seederReceives false, .seederReceives true, .seederReceives true,
    .seederReceives true, .leecherReceives true, .seederLearns false, .seederReceives false,
    .leecherReceives false, .seederReceives false, .seederReceives false, .leecherReceives false,
    .seederReceives false, .seederLearns true, .seederReceives true, .leecherReceives true,
    .seederReceives true, .seederReceives true, .leecherReceives true, .seederReceives true,
    .seederReceives true, .leecherReceives true, .seederReceives true] :
    List (Transfer.Move Bool)).map fun i => (i, env)

def halvesDelivering : List (Transfer.Move Bool × Entropy) :=
  ([.readCompletes false ⟨0, 0, 2⟩, .leecherReceives false, .seederReceives false,
    .leecherReceives false, .seederReceives false, .seederReceives true, .leecherReceives true,
    .seederReceives true, .readCompletes true ⟨0, 0, 2⟩, .leecherReceives true,
    .readCompletes false ⟨1, 0, 1⟩, .leecherReceives false] :
    List (Transfer.Move Bool)).map fun i => (i, env)

theorem halves_cases {i : Nat} (hi : i < halves.pieces.length) : i = 0 ∨ i = 1 := by
  have hlt : i < 2 := hi
  omega

theorem halves_wired : halves.Wired where
  divided := by
    refine ⟨by decide, rfl, fun i hi => ?_⟩
    obtain rfl | rfl := halves_cases hi
    · exact ⟨rfl, by decide, by decide⟩
    · exact ⟨rfl, by decide, by decide⟩
  narrow := by
    intro i len hi hlen _
    obtain rfl | rfl := halves_cases hi
    · obtain rfl : 2 = len := Option.some.inj hlen
      omega
    · obtain rfl : 1 = len := Option.some.inj hlen
      omega
  bits := by decide
  info := by decide

theorem halves_describes : halves.Describes halvesSha1 halvesContent where
  length := rfl
  hashes i hi := by
    obtain rfl | rfl := halves_cases hi
    · rfl
    · rfl

theorem giver_seeds (id : UInt8) : Transfer.Seeds halvesSha1 halves (giver id) where
  reachable := by
    have hstart : Swarm.Reachable halvesSha1 (peerId id) halves
        { taker with clientId := peerId id } := ⟨[], .start rfl⟩
    exact ⟨peerId id, (hstart.next _).next _⟩
  complete := rfl
  uploads := rfl
  alone := rfl
  idle := rfl

theorem taker_matches : taker.pieces.Matches halvesSha1 (pieceBytes halves halvesContent) := by
  intro i p hp
  obtain ⟨hlt, hget⟩ := List.getElem?_eq_some_iff.mp hp
  obtain rfl | rfl := halves_cases hlt
  · subst hget
    exact Piece.matches_new
  · subst hget
    exact Piece.matches_new

theorem meeting_started :
    Transfer.Started halvesSha1 halves halvesContent (fun _ => halvesDisk) meeting where
  reachable := ⟨peerId 1, [], .start rfl⟩
  matching := taker_matches
  downloads := rfl
  alone := rfl
  unassigned := rfl
  seeders _ := giver_seeds _
  identities := by decide +kernel
  disks _ := ⟨⟨rfl, fun f hf => by rw [List.mem_singleton.mp hf]; rfl, rfl, trivial⟩, rfl⟩
  toLeecher _ := ⟨.insertion, rfl⟩
  toSeeder _ := ⟨.insertion, rfl⟩
  written := rfl
  closed := rfl

theorem halves_asked : ∃ e, Walk halvesStep meeting halvesAsking e ∧
    e.leecher.pieces.isComplete = false ∧ e.leecher.blockAssignments.requestsInFlight = 4 := by
  have hrun : (Walk.run halvesStep meeting halvesAsking).any (fun e =>
      decide (e.leecher.pieces.isComplete = false ∧
        e.leecher.blockAssignments.requestsInFlight = 4)) = true := by decide +kernel
  obtain ⟨e, hrun, hasked⟩ := (Option.any_eq_true _ _).mp hrun
  exact ⟨e, Walk.of_run hrun, of_decide_eq_true hasked⟩

end Sample

namespace Transfer

open Sample

theorem few_sessions : Few Bool := show 18 * 2 + 64 ≤ 1024 * 1024 by decide

theorem sample_transfer_completes : ∃ e more e', Walk halvesStep meeting halvesAsking e ∧
    (halvesAsking.countP fun i => i.1.advances) ≤ 60 ∧ Walk halvesStep e more e' ∧
      e'.leecher.pieces.isComplete = true := by
  obtain ⟨e, hwalk, -⟩ := halves_asked
  have hbudget : budget meeting = 60 := by decide +kernel
  obtain ⟨hcount, more, e', hmore, hdone⟩ := transfer_completes few_sessions halves_wired
    halves_describes meeting_started star hwalk
  exact ⟨e, more, e', hwalk, hbudget ▸ hcount, hmore, hdone⟩

theorem sample_transfer_writes : ∃ e,
    Walk halvesStep meeting (halvesAsking ++ halvesDelivering) e ∧
      e.written.map (fun w => w.1.pieceIndex) = [0, 1] ∧
        ∀ i ∈ [0, 1], e.leecher.pieces.CompleteAt i := by
  have hrun : (Walk.run halvesStep meeting (halvesAsking ++ halvesDelivering)).any (fun e =>
      decide (e.written.map (fun w => w.1.pieceIndex) = [0, 1])) = true := by decide +kernel
  obtain ⟨e, hrun, hindices⟩ := (Option.any_eq_true _ _).mp hrun
  have hwalk := Walk.of_run hrun
  obtain ⟨-, -, hwritten⟩ := transfer_writes few_sessions halves_wired halves_describes
    meeting_started star hwalk
  have hindices := of_decide_eq_true hindices
  exact ⟨e, hwalk, hindices, fun i hi => ((hwritten i).mp (hindices ▸ hi)).1⟩

end Transfer

end Tortue
