import Tortue.Adapters.TransferLinks
import Tortue.Domain.Swarm.Saturation
import Tortue.Domain.Swarm.Counters

namespace Tortue

open Collections

namespace Transfer

universe u

structure Leeching (sha1 : Sha1) (m : Metainfo) (content : Bytes) (l : Swarm) : Prop where
  reachable : ∃ clientId, Swarm.Reachable sha1 clientId m l
  noDangling : l.peerRegistry.NoDangling
  matching : l.pieces.Matches sha1 (pieceBytes m content)
  downloads : l.status.download = true

def dues (l : Swarm) (x : SocketAddr) : Nat :=
  5 * (unasked l x).card + 3 * l.pieces.missing + if l.peerRegistry.containsAddr x then 0 else 6

variable {sha1 : Sha1} {m : Metainfo} {content : Bytes} {l s : Swarm} {x y : SocketAddr}
  {toSeeder toLeecher : List Message.Sending} {f : Message.Sending} {b : BlockRange}
  {message : Message} {env : Entropy} {o : IterOrder} {p : PeerState} {r : PeerRegistry}

namespace Leeching

theorem sound (h : Leeching sha1 m content l) : l.pieces.Sound := by
  obtain ⟨clientId, trace, hist⟩ := h.reachable
  exact Swarm.history_sound hist

theorem described (h : Leeching sha1 m content l) : PieceManager.Described m l.pieces := by
  obtain ⟨clientId, trace, hist⟩ := h.reachable
  exact Swarm.history_described hist

theorem classified (h : Leeching sha1 m content l) :
    l.peerRegistry.Classified m.pieces.length := by
  obtain ⟨clientId, trace, hist⟩ := h.reachable
  exact Swarm.history_classified hist

theorem reached (hw : m.Wired) : m.Reached := by
  intro i hi
  obtain ⟨-, hstart, hpos⟩ := hw.divided.pieces i hi
  exact ⟨hpos, hstart, hstart.trans hw.divided.small⟩

theorem underway (hw : m.Wired) (h : Leeching sha1 m content l) : l.pieces.Underway := by
  obtain ⟨clientId, trace, hist⟩ := h.reachable
  exact Swarm.history_underway (reached hw) hist

theorem mem_plannedBlocks (h : Leeching sha1 m content l) :
    b ∈ l.plannedBlocks ↔ l.pieces.Wants b :=
  Swarm.mem_plannedBlocks.trans (PieceManager.wants_iff h.sound).symm

theorem planned_block (h : Leeching sha1 m content l) (hb : b ∈ l.plannedBlocks) : m.Block b :=
  PieceManager.wants_block h.sound h.described (h.mem_plannedBlocks.mp hb)

end Leeching

theorem plan_fromLeecher (h : ∀ b ∈ l.plannedBlocks, m.Block b) (o : IterOrder) (x : SocketAddr)
    (env : Entropy) : ∀ f ∈ sent o x (l.plan env).2, FromLeecher m f.2 := by
  have hgranted := Swarm.plan_granted env l
  intro f hf
  obtain ⟨-, hin | hin⟩ := mem_sent.mp hf
  · obtain ⟨z, hz | ⟨b, hz⟩⟩ := hgranted.messages _ hin
    · rw [(Output.sendToPeer.inj hz).2]
      exact .interested
    · have hf2 := (Output.sendToPeer.inj hz).2
      rw [hf2] at hin ⊢
      exact .request (h b (hgranted.eligible x b (mem_requestsOf.mpr hin)).1)
  · exact absurd hin (plan_quiet env l f.2)

theorem Link.plans (h : Link m content (l.view x) s y toSeeder toLeecher)
    (hblocks : ∀ b ∈ l.plannedBlocks, m.Block b) (o : IterOrder) (env : Entropy) :
    Link m content ((l.plan env).1.view x) s y (toSeeder ++ sent o x (l.plan env).2) toLeecher := by
  have hgranted := Swarm.plan_granted env l
  rw [Swarm.view_plan]
  refine h.sends (plan_fromLeecher hblocks o x env) plan_asks_nodup (fun b hb => ?_) fun b => ?_
  · exact hgranted.fresh x b (mem_plan_asks.mp hb)
  · rw [mem_plan_asks]
    exact hgranted.holders b x

theorem plan_dues (o : IterOrder) (env : Entropy) (l : Swarm) (x : SocketAddr) :
    dues (l.plan env).1 x + weigh (sent o x (l.plan env).2) ≤ dues l x := by
  have hasked := plan_unasked o env l x
  have hweight := plan_weigh (o := o) (x := x) env l
  unfold dues
  rw [Swarm.plan_pieces, Swarm.plan_peerRegistry]
  omega

def Gains (m : Metainfo) (content : Bytes) (before after : PieceManager)
    (written : List (BlockRange × Bytes)) : Prop :=
  written = [] ∧ (∀ j, after.CompleteAt j ↔ before.CompleteAt j) ∨
    ∃ i < m.pieces.length, written =
        [(⟨i, 0, (pieceBytes m content i).length⟩, pieceBytes m content i)] ∧
      ¬ before.CompleteAt i ∧ ∀ j, after.CompleteAt j ↔ before.CompleteAt j ∨ j = i

structure Absorbed (sha1 : Sha1) (m : Metainfo) (content : Bytes) (l : Swarm) (x : SocketAddr)
    (message : Message) (o : IterOrder) (q : Swarm × List Output)
    (news : List Message.Sending) : Prop where
  self : q.1.view x = (l.view x).hears message
  others : ∀ y, y ≠ x → q.1.view y = l.view y
  said : sent o x q.2 = message.reply.map (Prod.mk o) ++ news
  told : ∀ y, y ≠ x → sent o y q.2 = news
  piece : news = [] ∨ ∃ i < m.pieces.length, news = [(o, .havePiece i)]
  falls : ∀ y, dues q.1 y + weigh news ≤ dues l y
  matching : q.1.pieces.Matches sha1 (pieceBytes m content)
  stays : q.1.pieces.isComplete = false → disconnects q.2 = []
  gains : Gains m content l.pieces q.1.pieces (q.2.filterMap Output.written)

theorem hears_apply (hc : l.peerRegistry.Classified m.pieces.length)
    (hheard : Heard m content f message) (hnone : message.brought = none)
    (ha : l.peerRegistry.apply x message = .ok r) :
    ({ l with peerRegistry := r } : Swarm).view x = (l.view x).hears message := by
  obtain ⟨p, hp, -⟩ := PeerRegistry.apply_ok ha
  have hself : message.advertises = false → message.offersAll = false → message.brought = none →
      ({ l with peerRegistry := r } : Swarm).view x = (l.view x).hears message := by
    intro hquiet hoffers hbrought
    rw [Swarm.view_apply_self hp ha hquiet]
    simp [SessionView.hears, Swarm.view, hp, hoffers, hbrought]
  rcases hheard with ⟨-, ⟨hs, rfl⟩, -⟩ | ⟨-, rfl⟩ | ⟨-, rfl⟩ | ⟨-, rfl⟩ | ⟨b, -, -, rfl⟩ |
    ⟨d, -, rfl⟩
  · exact hself rfl rfl rfl
  · rw [Swarm.view_apply_haveAll hp hc ha]
    simp [SessionView.hears, Swarm.view, hp, Message.offersAll, Message.brought, PeerState.apply]
  · exact hself rfl rfl rfl
  · exact hself rfl rfl rfl
  · contradiction
  · exact hself rfl rfl rfl

theorem heard_handled (sha1 : Sha1) (hheard : Heard m content f message)
    (hnone : message.brought = none) (hreg : s.peerRegistry.containsAddr x = true) (o : IterOrder)
    (env : Entropy) : ∃ outputs, s.handleMessage sha1 env x message = (s, outputs) ∧
      sent o x outputs = message.reply.map (Prod.mk o) ∧ (∀ y, y ≠ x → sent o y outputs = []) ∧
      disconnects outputs = [] ∧ outputs.filterMap Output.written = [] := by
  have hlight : message.light = true → ∃ outputs,
      s.handleMessage sha1 env x message = (s, outputs) ∧
      sent o x outputs = message.reply.map (Prod.mk o) ∧ (∀ y, y ≠ x → sent o y outputs = []) ∧
      disconnects outputs = [] ∧ outputs.filterMap Output.written = [] := by
    intro hlight
    refine ⟨_, Swarm.handleMessage_light hreg hlight, sent_replies_self ..,
      fun y hne => sent_replies_other o hne.symm _, disconnects_sends x _, ?_⟩
    rw [List.filterMap_map, List.filterMap_eq_nil_iff]
    exact fun _ _ => rfl
  rcases hheard with ⟨-, ⟨hs, rfl⟩, -⟩ | ⟨-, rfl⟩ | ⟨-, rfl⟩ | ⟨-, rfl⟩ | ⟨b, -, -, rfl⟩ |
    ⟨d, -, rfl⟩
  · exact hlight rfl
  · exact hlight rfl
  · exact hlight rfl
  · exact hlight rfl
  · contradiction
  · obtain ⟨outputs, hout, hsent, hstays, hwritten⟩ := Swarm.handleMessage_pex sha1 env s x d
    exact ⟨outputs, hout, hsent o x, fun y _ => hsent o y, hstays, hwritten⟩

theorem unasked_subset {q : Swarm} (hplanned : ∀ b ∈ q.plannedBlocks, b ∈ l.plannedBlocks ∧
      (l.blockAssignments.isHolder b y = true → q.blockAssignments.isHolder b y = true)) :
    unasked q y ⊆ unasked l y := by
  intro b hb
  obtain ⟨hin, hfree⟩ := mem_unasked.mp hb
  obtain ⟨hwas, hheld⟩ := hplanned b hin
  refine mem_unasked.mpr ⟨hwas, Bool.eq_false_iff.mpr fun h => ?_⟩
  rw [hheld h] at hfree
  contradiction

theorem dues_le {q : Swarm} (hsub : unasked q y ⊆ unasked l y)
    (hreg : q.peerRegistry.containsAddr y = l.peerRegistry.containsAddr y) (told : Nat)
    (hmissing : q.pieces.missing + told = l.pieces.missing) : dues q y + 3 * told ≤ dues l y := by
  have hcard := Finset.card_le_card hsub
  unfold dues
  rw [hreg]
  omega

theorem planned_registry (r : PeerRegistry) :
    b ∈ ({ l with peerRegistry := r } : Swarm).plannedBlocks ↔ b ∈ l.plannedBlocks := by
  rw [Swarm.mem_plannedBlocks, Swarm.mem_plannedBlocks]

theorem absorbs_word (h : Leeching sha1 m content l) (hheard : Heard m content f message)
    (hnone : message.brought = none) (ha : l.peerRegistry.apply x message = .ok r) (o : IterOrder)
    (env : Entropy) : Absorbed sha1 m content l x message o
      (({ l with peerRegistry := r } : Swarm).handleMessage sha1 env x message) [] := by
  have hreg : ({ l with peerRegistry := r } : Swarm).peerRegistry.containsAddr x = true :=
    Swarm.contains_of_apply ha
  obtain ⟨outputs, hhandled, hself, hothers, hstays, hwritten⟩ :=
    heard_handled sha1 hheard hnone hreg o env
  rw [hhandled]
  refine ⟨hears_apply h.classified hheard hnone ha,
    fun y hne => Swarm.view_apply_other h.classified ha hne, ?_, hothers, .inl rfl, fun y => ?_,
    h.matching, fun _ => hstays, .inl ⟨hwritten, fun j => Iff.rfl⟩⟩
  · rw [List.append_nil]
    exact hself
  · exact dues_le (unasked_subset fun b hb => ⟨(planned_registry r).mp hb, id⟩)
      (PeerRegistry.apply_contains ha y) 0 rfl

theorem completion_silent {α : Type u} {g : Output → Option α} (hcompleted : g .completed = none)
    (hdisconnect : ∀ y, g (.disconnectPeer y) = none) (env : Entropy) (s : Swarm) :
    (s.completionOutputs env).filterMap g = [] := by
  rcases Swarm.completionOutputs_eq env s with h | ⟨-, l, h⟩
  · rw [h]
    rfl
  · rw [h, List.filterMap_cons, hcompleted, List.filterMap_map, List.filterMap_eq_nil_iff]
    exact fun y _ => hdisconnect y

section

variable {data : Bytes} {q : Swarm × List Output}

theorem fed_holds (env : Entropy)
    (hq : q = ({ l with peerRegistry := r } : Swarm).handleMessage sha1 env x (.piece b data))
    (y : SocketAddr) (b' : BlockRange) : q.1.blockAssignments.isHolder b' y = true ↔
      l.blockAssignments.isHolder b' y = true ∧ ¬ (y = x ∧ b' = b) := by
  rw [hq]
  exact Swarm.handleMessage_isHolder ..

theorem fed_view_self (ha : l.peerRegistry.apply x (.piece b data) = .ok r) (env : Entropy)
    (hq : q = ({ l with peerRegistry := r } : Swarm).handleMessage sha1 env x (.piece b data)) :
    q.1.view x = (l.view x).hears (.piece b data) := by
  obtain ⟨p, hp, -⟩ := PeerRegistry.apply_ok ha
  have hholds : (fun b' => q.1.blockAssignments.isHolder b' x) =
      fun b' => l.blockAssignments.isHolder b' x && decide (some b ≠ some b') := by
    funext b'
    rw [Bool.eq_iff_iff, fed_holds env hq]
    simp only [Bool.and_eq_true, decide_eq_true_eq, ne_eq, Option.some.injEq, true_and]
    exact and_congr_right fun _ => not_congr eq_comm
  have hview := Swarm.view_handle sha1 env { l with peerRegistry := r } x x (.piece b data)
  rw [← hq, hholds, Swarm.view_apply_self hp ha rfl] at hview
  rw [hview]
  simp [SessionView.hears, Swarm.view, hp, Message.offersAll, Message.brought]

theorem fed_view_other (hc : l.peerRegistry.Classified m.pieces.length)
    (ha : l.peerRegistry.apply x (.piece b data) = .ok r) (env : Entropy)
    (hq : q = ({ l with peerRegistry := r } : Swarm).handleMessage sha1 env x (.piece b data))
    (hne : y ≠ x) : q.1.view y = l.view y := by
  have hholds : (fun b' => q.1.blockAssignments.isHolder b' y) =
      fun b' => l.blockAssignments.isHolder b' y := by
    funext b'
    rw [Bool.eq_iff_iff, fed_holds env hq]
    exact and_iff_left fun h => hne h.1
  have hview := Swarm.view_handle sha1 env { l with peerRegistry := r } x y (.piece b data)
  rw [← hq, hholds, Swarm.view_apply_other hc ha hne] at hview
  exact hview

theorem fed_dues (hs : l.pieces.Sound) {content : Nat → Bytes}
    (hf : PieceManager.Filled sha1 content l.pieces b data) (hsound : q.1.pieces.Sound)
    (env : Entropy) (ha : l.peerRegistry.apply x (.piece b data) = .ok r)
    (hq : q = ({ l with peerRegistry := r } : Swarm).handleMessage sha1 env x (.piece b data))
    (hpieces : q.1.pieces = (l.pieces.receiveBlock sha1 b data).2) {told : Nat}
    (hmissing : (l.pieces.receiveBlock sha1 b data).2.missing + told = l.pieces.missing)
    (y : SocketAddr) : dues q.1 y + 3 * told ≤ dues l y := by
  refine dues_le (unasked_subset fun b' hb' => ?_) ?_ told (hpieces ▸ hmissing)
  · have hwants := (PieceManager.wants_iff hsound).mpr (Swarm.mem_plannedBlocks.mp hb')
    rw [hpieces] at hwants
    obtain ⟨hwas, hne⟩ := hf.wants b' hwants
    refine ⟨Swarm.mem_plannedBlocks.mpr ((PieceManager.wants_iff hs).mp hwas), fun hheld => ?_⟩
    exact (fed_holds env hq y b').mpr ⟨hheld, fun h => hne h.2⟩
  · have hregistry := Swarm.handleMessage_peerRegistry sha1 env { l with peerRegistry := r } x
      (.piece b data)
    rw [← hq] at hregistry
    rw [hregistry]
    exact PeerRegistry.apply_contains ha y

theorem fed_matching (h : Leeching sha1 m content l) (hb : m.Block b)
    (hdata : data = window content (position m b) b.len) (hlen : data.length = b.len) :
    (l.pieces.receiveBlock sha1 b data).2.Matches sha1 (pieceBytes m content) := by
  refine PieceManager.matches_receiveBlock h.sound h.matching ?_
  rw [hlen, hdata]
  exact block_slice hb

theorem fed_filled (h : Leeching sha1 m content l) (hd : m.Describes sha1 content) (hb : m.Block b)
    (hdata : data = window content (position m b) b.len) (hlen : data.length = b.len) :
    PieceManager.Filled sha1 (pieceBytes m content) l.pieces b data := by
  refine PieceManager.receive_content h.sound h.matching (fun i p hp => ?_) hlen ?_
  · have hi : i < m.pieces.length :=
      h.described.length ▸ (List.getElem?_eq_some_iff.mp hp).1
    have hhash := (h.described.piece i p hp).2
    rw [hd.hashes i hi] at hhash
    exact Option.some.inj hhash
  · rw [hlen, hdata]
    exact block_slice hb

theorem absorbs_block (h : Leeching sha1 m content l)
    (hf : PieceManager.Filled sha1 (pieceBytes m content) l.pieces b data)
    (hmatching : (l.pieces.receiveBlock sha1 b data).2.Matches sha1 (pieceBytes m content))
    (ha : l.peerRegistry.apply x (.piece b data) = .ok r) (o : IterOrder) (env : Entropy)
    (hq : q = ({ l with peerRegistry := r } : Swarm).handleMessage sha1 env x (.piece b data))
    (hpieces : q.1.pieces = (l.pieces.receiveBlock sha1 b data).2) (hout : q.2 = [])
    (hnone : ∀ c, (l.pieces.receiveBlock sha1 b data).1 ≠ .ok (some c)) :
    Absorbed sha1 m content l x (.piece b data) o q [] := by
  have hsound := PieceManager.sound_receiveBlock h.sound sha1 b data
  have hmissing : (l.pieces.receiveBlock sha1 b data).2.missing + 0 = l.pieces.missing := by
    rcases hf.outcome with ⟨-, hmissing⟩ | ⟨hsome, -⟩
    · exact hmissing
    · exact absurd hsome (hnone _)
  refine ⟨fed_view_self ha env hq, fun y hne => fed_view_other h.classified ha env hq hne,
    by rw [hout]; rfl, fun y _ => by rw [hout]; rfl, .inl rfl,
    fed_dues h.sound hf (hpieces ▸ hsound) env ha hq hpieces hmissing, hpieces ▸ hmatching,
    fun _ => by rw [hout]; rfl, .inl ⟨by rw [hout]; rfl, fun j => ?_⟩⟩
  rw [hpieces, PieceManager.completeAt_receiveBlock h.sound]
  refine or_iff_left ?_
  rintro ⟨c, hc, -⟩
  exact hnone c hc

theorem absorbs_last (h : Leeching sha1 m content l)
    (hf : PieceManager.Filled sha1 (pieceBytes m content) l.pieces b data)
    (hmatching : (l.pieces.receiveBlock sha1 b data).2.Matches sha1 (pieceBytes m content))
    (ha : l.peerRegistry.apply x (.piece b data) = .ok r) (o : IterOrder) (env : Entropy)
    (hq : q = ({ l with peerRegistry := r } : Swarm).handleMessage sha1 env x (.piece b data))
    (hpieces : q.1.pieces = (l.pieces.receiveBlock sha1 b data).2) {c : CompletedPiece}
    (hc : (l.pieces.receiveBlock sha1 b data).1 = .ok (some c))
    (hout : q.2 = .broadcast (.havePiece c.range.pieceIndex) :: .writePiece c.range c.data ::
      q.1.completionOutputs env) :
    Absorbed sha1 m content l x (.piece b data) o q [(o, .havePiece b.pieceIndex)] := by
  have hsound := PieceManager.sound_receiveBlock h.sound sha1 b data
  rcases hf.outcome with ⟨hnone, -⟩ | ⟨hsome, hmissing, hindex, hopen⟩
  · exact absurd hc (hnone c)
  · obtain rfl := Option.some.inj (Except.ok.inj (hc.symm.trans hsome))
    have hlt : b.pieceIndex < m.pieces.length := h.described.length ▸ hindex
    have hsent : ∀ y, sent o y q.2 = [(o, .havePiece b.pieceIndex)] := by
      intro y
      rw [hout]
      unfold sent
      rw [List.filterMap_cons, List.filterMap_cons,
        completion_silent (g := sentTo o y) rfl (fun _ => rfl)]
      rfl
    have hwritten : q.2.filterMap Output.written =
        [(⟨b.pieceIndex, 0, (pieceBytes m content b.pieceIndex).length⟩,
          pieceBytes m content b.pieceIndex)] := by
      rw [hout, List.filterMap_cons, List.filterMap_cons,
        completion_silent (g := Output.written) rfl fun _ => rfl]
      rfl
    refine ⟨fed_view_self ha env hq, fun y hne => fed_view_other h.classified ha env hq hne,
      hsent x,
      fun y _ => hsent y, .inr ⟨b.pieceIndex, hlt, rfl⟩,
      fed_dues h.sound hf (hpieces ▸ hsound) env ha hq hpieces hmissing, hpieces ▸ hmatching,
      fun hopen => by rw [hout, Swarm.completionOutputs, hopen]; rfl,
        .inr ⟨b.pieceIndex, hlt, hwritten, hopen, fun j => ?_⟩⟩
    rw [hpieces, PieceManager.completeAt_receiveBlock h.sound]
    refine or_congr_right ⟨?_, ?_⟩
    · rintro ⟨c, hc', hj⟩
      obtain rfl := Option.some.inj (Except.ok.inj (hc'.symm.trans hsome))
      exact hj.symm
    · rintro rfl
      exact ⟨_, hsome, rfl⟩

theorem absorbs_piece (hw : m.Wired) (hd : m.Describes sha1 content)
    (h : Leeching sha1 m content l) (hb : m.Block b)
    (hdata : data = window content (position m b) b.len)
    (hheld : l.blockAssignments.isHolder b x = true)
    (ha : l.peerRegistry.apply x (.piece b data) = .ok r) (o : IterOrder) (env : Entropy)
    (hq : q = ({ l with peerRegistry := r } : Swarm).handleMessage sha1 env x (.piece b data)) :
    ∃ news, Absorbed sha1 m content l x (.piece b data) o q news := by
  have hlen : data.length = b.len := hdata ▸ length_block hw hd.length hb
  have hf := fed_filled h hd hb hdata hlen
  have hmatching := fed_matching h hb hdata hlen
  have hpiece : q = ({ l with peerRegistry := r } : Swarm).onMessagePiece sha1 env x b data := hq
  rcases Swarm.onMessagePiece_cases sha1 env { l with peerRegistry := r } x b data with
    ⟨hfree, -⟩ | ⟨-, hpieces, ⟨hnone, hout⟩ | ⟨c, hc, hout⟩⟩
  · have hfree' : l.blockAssignments.isHolder b x = false := hfree
    rw [hheld] at hfree'
    contradiction
  · rw [← hpiece] at hpieces hout
    exact ⟨[], absorbs_block h hf hmatching ha o env hq hpieces hout hnone⟩
  · rw [← hpiece] at hpieces hout
    exact ⟨_, absorbs_last h hf hmatching ha o env hq hpieces hc hout⟩

end

theorem availability_fromLeecher (h : Leeching sha1 m content l)
    (hopen : l.pieces.isComplete = false) :
    FromLeecher m (l.availabilityMessage ⟨false, true⟩) := by
  obtain ⟨clientId, trace, hist⟩ := h.reachable
  have hmarked := Swarm.history_marked hist
  unfold Swarm.availabilityMessage
  rw [hopen]
  simp only [Bool.and_false, Bool.false_eq_true, if_false, Bool.true_and]
  split
  · exact .haveNone
  · exact .bitfield hmarked.size

def introduction (o : IterOrder) (l : Swarm) : List Message.Sending :=
  [(o, l.availabilityMessage ⟨false, true⟩), (o, .interested)]

theorem introduction_fromLeecher (h : Leeching sha1 m content l)
    (hopen : l.pieces.isComplete = false) : ∀ f ∈ introduction o l, FromLeecher m f.2 := by
  intro f hf
  rcases List.mem_pair.mp hf with rfl | rfl
  · exact availability_fromLeecher h hopen
  · exact .interested

theorem asks_introduction (o : IterOrder) (l : Swarm) : asks (introduction o l) = [] := by
  have hquiet : (l.availabilityMessage ⟨false, true⟩).asked = none := by
    unfold Swarm.availabilityMessage
    split_ifs <;> rfl
  simp only [asks, introduction, List.filterMap_cons, hquiet]
  rfl

theorem weigh_introduction (o : IterOrder) (l : Swarm) : weigh (introduction o l) ≤ 5 := by
  have hweight : (l.availabilityMessage ⟨false, true⟩).weight ≤ 3 := by
    unfold Swarm.availabilityMessage
    split_ifs <;> simp [Message.weight]
  have hsum : weigh (introduction o l) = (l.availabilityMessage ⟨false, true⟩).weight + 2 := rfl
  omega

theorem Leeching.unheld (h : Leeching sha1 m content l)
    (hnone : l.peerRegistry.containsAddr x = false) (b : BlockRange) :
    l.blockAssignments.isHolder b x = false := by
  obtain ⟨clientId, hreachable⟩ := h.reachable
  refine Bool.eq_false_iff.mpr fun hheld => ?_
  rw [(Swarm.reachable_accounted hreachable).registered_holder hheld] at hnone
  contradiction

structure Joined (l : Swarm) (x : SocketAddr) (id : PeerId) (o : IterOrder)
    (q : Swarm × List Output) : Prop where
  self : q.1.view x = ⟨some (.new id ⟨false, true⟩), (l.view x).seeds, fun _ => false⟩
  others : ∀ y, y ≠ x → q.1.view y = l.view y
  said : sent o x q.2 = introduction o l
  told : ∀ y, y ≠ x → sent o y q.2 = []
  falls : dues q.1 x + 6 ≤ dues l x
  keeps : ∀ y, y ≠ x → dues q.1 y ≤ dues l y
  pieces : q.1.pieces = l.pieces
  written : q.2.filterMap Output.written = []
  stays : disconnects q.2 = []

theorem leecher_joins (h : Leeching sha1 m content l) {id : PeerId}
    (hid : l.peerRegistry.byId.get id = none)
    (hnone : l.peerRegistry.containsAddr x = false) (d : ConnectionDirection) (env : Entropy) :
    Joined l x id env.order (l.step sha1 (opens m id d x, env)) := by
  have hstep : l.step sha1 (opens m id d x, env) = l.register x d id ⟨false, true⟩ :=
    Swarm.onConnected_new hid
  have hout := Swarm.register_greets l x d id ⟨false, true⟩
  have hsub : ∀ y, unasked (l.register x d id ⟨false, true⟩).1 y ⊆ unasked l y := by
    refine fun y => unasked_subset fun b hb => ⟨?_, fun hheld => ?_⟩
    · rw [Swarm.mem_plannedBlocks] at hb ⊢
      exact hb
    · rw [Swarm.register_blockAssignments, BlockAssignments.isHolder_releasePeer]
      refine ⟨hheld, ?_⟩
      rintro rfl
      rw [h.unheld hnone] at hheld
      contradiction
  rw [hstep]
  refine ⟨Swarm.view_register_self .., fun y hne => Swarm.view_register_other hne, ?_,
    fun y hne => ?_, ?_, fun y hne => ?_, rfl, ?_, ?_⟩
  · rw [hout]
    simp [sent, sentTo, introduction]
  · rw [hout]
    simp [sent, sentTo, hne.symm]
  · have hcard := Finset.card_le_card (hsub x)
    have hpieces : (l.register x d id ⟨false, true⟩).1.pieces = l.pieces := rfl
    unfold dues
    rw [Swarm.contains_register, hnone, hpieces]
    simp only [if_true, Bool.false_eq_true, if_false]
    omega
  · refine dues_le (hsub y) ?_ 0 rfl
    rw [Swarm.register_peerRegistry]
    simp [PeerRegistry.containsAddr, HashMap.contains, PeerRegistry.get_connected, hne]
  · rw [hout]
    rfl
  · rw [hout]
    rfl

def Busy (l : Swarm) : Prop := ∀ b y, ¬ Swarm.Idle l b y

theorem canServe_eq_some {i : Nat} : r.canServe y i = true ↔
    ∃ p, r.peers.get y = some p ∧ p.canServe i = true := by
  unfold PeerRegistry.canServe
  cases hp : r.peers.get y <;> simp

theorem serves_unchoked {i : Nat} (hp : p.allowedFast = .empty) (h : p.canServe i = true) :
    p.peerChoking = false := by
  simpa [PeerState.canServe, hp] using h

theorem plan_busy (hdownloads : l.status.download = true)
    (hbare : ∀ z q, l.peerRegistry.peers.get z = some q → q.allowedFast = .empty)
    (env : Entropy) : Busy (l.plan env).1 := by
  have hsaturated := Swarm.plan_saturates env hdownloads fun z i hserves => by
    obtain ⟨q, hq, hcan⟩ := canServe_eq_some.mp hserves
    exact Swarm.mem_unchoked.mpr ⟨q, hq, serves_unchoked (hbare z q hq) hcan⟩
  exact fun b y hidle => hsaturated ((Swarm.idle_plan_iff env l).mp ⟨b, y, hidle⟩)

theorem busy_hears (h : Leeching sha1 m content l) (hbusy : Busy l)
    (hlink : Link m content (l.view x) s y toSeeder (f :: toLeecher))
    (hheard : Heard m content f message) (hquiet : message.affectsScheduling = false)
    (ha : l.peerRegistry.apply x message = .ok r) : Busy { l with peerRegistry := r } := by
  obtain ⟨p, hp, -, hpeers, -, havail⟩ := PeerRegistry.apply_ok ha
  have hloyal := hlink.loyal p hp
  intro b z hidle
  have hplanned : b ∈ l.plannedBlocks := Swarm.mem_plannedBlocks.mpr hidle.needed
  have hi : b.pieceIndex < m.pieces.length := (h.planned_block hplanned).index
  have hhas : r.availability.has b.pieceIndex z = true :=
    (PieceAvailability.mem_peersFor ..).mp hidle.known
  obtain ⟨q, hq, hcan⟩ := canServe_eq_some.mp hidle.serves
  have hget : (l.peerRegistry.peers.insert x (p.apply message)).get z = some q := hpeers ▸ hq
  rw [HashMap.get_insert] at hget
  have hwas : l.peerRegistry.canServe z b.pieceIndex = true ∧
      l.peerRegistry.availability.has b.pieceIndex z = true := by
    split_ifs at hget with hz
    · obtain rfl := Option.some.inj hget
      subst hz
      have happlied := hloyal.apply hheard.not_allowedFast hheard.introduces
      rcases hheard.opens_iff.mp (serves_unchoked happlied.bare hcan) with hopen | rfl
      · refine ⟨canServe_eq_some.mpr ⟨p, hp, by simp [PeerState.canServe, hopen]⟩, ?_⟩
        have hseeds : l.peerRegistry.availability.isSeeder z = true :=
          hlink.courtship.known p hp hopen
        exact (PieceAvailability.isSeeder_iff h.classified.tidy z).mp hseeds _ hi
      · contradiction
    · refine ⟨canServe_eq_some.mpr ⟨q, hget, hcan⟩, ?_⟩
      rw [havail, PieceAvailability.has_recordMessage_iff h.classified.tidy hi] at hhas
      rcases hhas with ⟨hhas, -⟩ | ⟨heq, -⟩
      · exact hhas
      · exact absurd heq hz
  exact hbusy b z ⟨hidle.needed, hidle.holderless,
    (PieceAvailability.mem_peersFor ..).mpr hwas.2, hwas.1, hidle.room⟩

theorem busy_joins (h : Leeching sha1 m content l) (hbusy : Busy l)
    (hnone : l.peerRegistry.containsAddr x = false) (d : ConnectionDirection) (id : PeerId) :
    Busy (l.register x d id ⟨false, true⟩).1 := by
  intro b z hidle
  have hserves := hidle.serves
  have hroom := hidle.room
  have hholderless := hidle.holderless
  rw [Swarm.register_peerRegistry] at hserves
  rw [Swarm.register_blockAssignments] at hroom hholderless
  obtain ⟨q, hq, hcan⟩ := canServe_eq_some.mp hserves
  rw [PeerRegistry.get_connected] at hq
  split_ifs at hq with hz
  · obtain rfl := Option.some.inj hq
    contradiction
  · refine hbusy b z ⟨hidle.needed, fun w => ?_, hidle.known, canServe_eq_some.mpr ⟨q, hq, hcan⟩,
      ?_⟩
    · by_cases hw : w = x
      · rw [hw]
        exact h.unheld hnone b
      · have hkept := hholderless w
        rw [Bool.eq_false_iff] at hkept ⊢
        exact fun hheld => hkept ((BlockAssignments.isHolder_releasePeer ..).mpr ⟨hheld, hw⟩)
    · unfold BlockAssignments.freeSlotsFor at hroom ⊢
      rwa [BlockAssignments.inFlight_releasePeer_other _ hz] at hroom

end Transfer

end Tortue
