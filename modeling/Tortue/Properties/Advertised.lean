import Tortue.Domain.Swarm.Adverts
import Tortue.Domain.Swarm.Announcements

namespace Tortue

open Collections

namespace PieceManager

variable {pm : PieceManager}

theorem hasNoPiece_iff (pm : PieceManager) : pm.hasNoPiece = true ↔ ∀ i, ¬ pm.CompleteAt i := by
  unfold hasNoPiece CompleteAt
  rw [List.all_eq_true]
  constructor
  · rintro h i ⟨p, hp, hc⟩
    have hopen := h p (List.mem_of_getElem? hp)
    rw [hc] at hopen
    contradiction
  · intro h p hp
    obtain ⟨i, hi⟩ := List.mem_iff_getElem?.mp hp
    rw [Bool.not_eq_true', Bool.eq_false_iff]
    exact fun hc => h i ⟨p, hi, hc⟩

end PieceManager

def Output.Offers (n : Nat) (x : SocketAddr) (i : Nat) : Output → Prop
  | .sendToPeer y m => y = x ∧ m.Offers n i
  | .broadcast m => m.Offers n i
  | _ => False

namespace Swarm

open PieceManager

variable {sha1 : Sha1} {clientId : PeerId} {metainfo : Metainfo} {s : Swarm} {h : Trace}

def Registers (x : SocketAddr) (e : Happening) : Prop :=
  ∃ ext, e.before.Accepts x ext e.input.1

def Announced (n : Nat) (x : SocketAddr) (i : Nat) (h : Trace) : Prop :=
  Since (fun e => ∃ o ∈ e.outputs, o.Offers n x i) (Registers x) h

def LocalFirst (h : Trace) : Prop :=
  ∀ newer e older, h = newer ++ e :: older → (∃ j data, e.input.1 = .localPiece j data) →
    ∀ f ∈ older, ∀ id d x ext, f.input.1 ≠ .peerConnected id d x ext

inductive Greeting (n : Nat) (ext : PeerExtensions) : Message → Prop
  | haveAll : ext.fast = true → Greeting n ext .haveAll
  | haveNone : ext.fast = true → Greeting n ext .haveNone
  | bitfield {bits : Bytes} : bits.length = (n + 7) / 8 →
      (∀ i, n ≤ i → Bitfield.bitSet bits i = false) → Greeting n ext (.bitfield bits)

section

variable {n : Nat}

theorem availability_offers (h : Marked n s.pieces) (ext : PeerExtensions) (i : Nat) :
    (s.availabilityMessage ext).Offers n i ↔ s.pieces.CompleteAt i := by
  unfold availabilityMessage
  split
  · next hall =>
    rw [Bool.and_eq_true, isComplete_iff, h.count] at hall
    exact ⟨hall.2 i, fun hi => h.count ▸ completeAt_lt hi⟩
  · split
    · next hnone =>
      rw [Bool.and_eq_true, hasNoPiece_iff] at hnone
      exact ⟨False.elim, hnone.2 i⟩
    · exact h.marks i

theorem availability_greeting (h : Marked n s.pieces) (ext : PeerExtensions) :
    Greeting n ext (s.availabilityMessage ext) := by
  unfold availabilityMessage
  split
  · next hall =>
    rw [Bool.and_eq_true] at hall
    exact .haveAll hall.1
  · split
    · next hnone =>
      rw [Bool.and_eq_true] at hnone
      exact .haveNone hnone.1
    · refine .bitfield h.size fun i hi => Bool.eq_false_iff.mpr fun hset => ?_
      have hlt := completeAt_lt ((h.marks i).mp hset)
      rw [h.count] at hlt
      omega

end

theorem registered_connected (hist : History (step sha1) (Started clientId metainfo) h s)
    {x : SocketAddr} (hx : s.peerRegistry.containsAddr x = true) : ∃ e ∈ h, Registers x e := by
  induction hist with
  | start hs =>
    rw [(started_fields hs).2.2.2.1] at hx
    contradiction
  | next i _ ih =>
    rcases step_contains hx with haccept | ⟨hold, -⟩
    · exact ⟨_, List.mem_cons_self .., haccept⟩
    · obtain ⟨e, he, hreg⟩ := ih hold
      exact ⟨e, List.mem_cons_of_mem _ he, hreg⟩

theorem offers_cases {n j : Nat} {i : Input × Entropy} {x : SocketAddr} {o : Output}
    (ho : o ∈ (step sha1 s i).2) (hoffers : o.Offers n x j) :
    (∃ ext, s.Accepts x ext i.1 ∧ o = .sendToPeer x (s.availabilityMessage ext)) ∨
      ∃ m, o = .broadcast m ∧ m.Offers n j := by
  cases o with
  | sendToPeer y m =>
    obtain ⟨rfl, hm⟩ := hoffers
    have hadvert : Output.advertises (.sendToPeer y m) = true := by
      cases m <;> first | rfl | exact hm.elim
    obtain ⟨z, ext, haccept, heq⟩ := advert_step ho hadvert
    have hz : y = z := (Output.sendToPeer.inj heq).1
    rw [← hz] at haccept heq
    exact .inl ⟨ext, haccept, heq⟩
  | broadcast m => exact .inr ⟨m, rfl, hoffers⟩
  | _ => exact hoffers.elim

theorem offers_step {n : Nat} (hs : s.pieces.Sound) {i : Input × Entropy} {x : SocketAddr}
    (hlocal : ∀ j data, i.1 ≠ .localPiece j data) (hnot : ¬ ∃ ext, s.Accepts x ext i.1) (j : Nat) :
    (step sha1 s i).1.pieces.CompleteAt j ↔
      s.pieces.CompleteAt j ∨ ∃ o ∈ (step sha1 s i).2, o.Offers n x j := by
  have hbroadcast : ∀ o ∈ (step sha1 s i).2, o.Offers n x j →
      ∃ m, o = .broadcast m ∧ m.Offers n j := by
    intro o ho hoffers
    rcases offers_cases ho hoffers with ⟨ext, haccept, -⟩ | hm
    · exact absurd ⟨ext, haccept⟩ hnot
    · exact hm
  rcases step_completion hs i hlocal with ⟨hsilent, hsame⟩ | ⟨y, range, data, c, -, hc⟩
  · constructor
    · exact fun hj => .inl (hsame j hj)
    · rintro (hj | ⟨o, ho, hoffers⟩)
      · exact (complete_step sha1 j s i ⟨hs, hj⟩).2
      · obtain ⟨m, rfl, -⟩ := hbroadcast o ho hoffers
        have hfalse := hsilent _ ho
        contradiction
  · rw [hc.completeAt_iff hs]
    refine or_congr_right ⟨fun hj => ?_, ?_⟩
    · obtain ⟨rest, hout, -⟩ := hc.outputs
      refine ⟨.broadcast (.havePiece c.range.pieceIndex), ?_, hj⟩
      rw [hout]
      exact List.mem_cons_self ..
    · rintro ⟨o, ho, hoffers⟩
      obtain ⟨m, rfl, hm⟩ := hbroadcast o ho hoffers
      rcases hc.writes_iff ho rfl with heq | heq | heq
      · rw [Output.broadcast.injEq] at heq
        rw [heq] at hm
        exact hm
      · contradiction
      · contradiction

theorem offers_accepted {n : Nat} (hm : Marked n s.pieces) {i : Input × Entropy} {x : SocketAddr}
    {ext : PeerExtensions} (haccept : s.Accepts x ext i.1) (j : Nat) :
    (∃ o ∈ (step sha1 s i).2, o.Offers n x j) ↔ (step sha1 s i).1.pieces.CompleteAt j := by
  obtain ⟨cancelled, rest, hout, -, -, hpieces⟩ := accepts_step sha1 haccept
  rw [hpieces]
  constructor
  · rintro ⟨o, ho, hoffers⟩
    rcases offers_cases ho hoffers with ⟨ext', -, rfl⟩ | ⟨m, rfl, -⟩
    · exact (availability_offers hm ext' j).mp hoffers.2
    · obtain ⟨input, env⟩ := i
      obtain ⟨id, d, rfl, -⟩ := haccept
      have hfalse := (plain_onConnected env s x d id ext).silent _ ho
      contradiction
  · intro hj
    refine ⟨.sendToPeer x (s.availabilityMessage ext), ?_, rfl,
      (availability_offers hm ext j).mpr hj⟩
    rw [hout]
    exact List.mem_append_right _ (List.mem_cons_self ..)

theorem localFirst_cons {e : Happening} (h' : LocalFirst (e :: h)) :
    LocalFirst h ∧ ∀ j data, e.input.1 = .localPiece j data → ∀ x, ∀ f ∈ h, ¬ Registers x f := by
  constructor
  · intro newer f older hh
    exact h' (e :: newer) f older (by rw [hh]; rfl)
  · rintro j data hi x f hf ⟨ext, id, d, hconnect, -⟩
    exact h' [] e h rfl ⟨j, data, hi⟩ f hf id d x ext hconnect

theorem announced_iff_complete (hist : History (step sha1) (Started clientId metainfo) h s)
    (hlocal : LocalFirst h) {x : SocketAddr} (hx : s.peerRegistry.containsAddr x = true) (j : Nat) :
    Announced metainfo.pieces.length x j h ↔ s.pieces.CompleteAt j := by
  induction hist with
  | start hs =>
    rw [(started_fields hs).2.2.2.1] at hx
    contradiction
  | @next h s i hist ih =>
    have hm := history_marked hist
    obtain ⟨hbefore, hnone⟩ := localFirst_cons hlocal
    rw [Announced, since_cons]
    by_cases haccept : ∃ ext, s.Accepts x ext i.1
    · obtain ⟨ext, haccept⟩ := haccept
      have hreg : Registers x ⟨s, i, (step sha1 s i).2⟩ := ⟨ext, haccept⟩
      rw [offers_accepted hm haccept]
      simp [hreg]
    · have hkept : ¬ Registers x ⟨s, i, (step sha1 s i).2⟩ := haccept
      have hold := ((step_contains hx).resolve_left haccept).1
      obtain ⟨f, hf, hreg⟩ := registered_connected hist hold
      have hnot : ∀ k data, i.1 ≠ .localPiece k data := fun k data hi =>
        hnone k data hi x f hf hreg
      rw [offers_step hm.sound hnot haccept, ← ih hbefore hold]
      simp only [hkept, not_false_eq_true, and_true]
      exact Iff.rfl

theorem advertised_is_held (hist : History (step sha1) (Started clientId metainfo) h s)
    (hlocal : LocalFirst h) :
    (∀ x, s.peerRegistry.containsAddr x = true → ∀ j,
      Announced metainfo.pieces.length x j h ↔ s.pieces.CompleteAt j) ∧
    (∀ e ∈ h, ∀ x ext, e.before.Accepts x ext e.input.1 →
      ∃ m, e.outputs.filter Output.advertises = [.sendToPeer x m] ∧
        Greeting metainfo.pieces.length ext m) ∧
    (∀ e ∈ h, (∀ x, ¬ Registers x e) → Quiet e.outputs) := by
  refine ⟨fun x hx j => announced_iff_complete hist hlocal hx j, fun e he x ext haccept => ?_,
    fun e he hnot => ?_⟩
  · obtain ⟨newer, older, hh⟩ := List.append_of_mem he
    obtain ⟨hbefore, hout⟩ := hist.event_before hh
    rw [hout]
    exact ⟨_, accepts_adverts haccept, availability_greeting (history_marked hbefore) ext⟩
  · obtain ⟨newer, older, hh⟩ := List.append_of_mem he
    rw [(hist.event_before hh).2]
    exact quiet_step fun x ext haccept => hnot x ⟨ext, haccept⟩

end Swarm

namespace Sample

def lateJoin : List (Input × Entropy) :=
  requesting ++ [message 80 (.piece ⟨0, 0, 2⟩ [1, 2]), connect 3 .outbound 81]

end Sample

namespace Swarm

theorem late_peer_told_of_piece :
    Announced 1 (Sample.addr 81) 0
      (History.events (step Sample.sha1) Sample.swarm Sample.lateJoin) := by
  have hlocal : ∀ i ∈ Sample.lateJoin, ∀ j data, i.1 ≠ .localPiece j data := by
    simp [Sample.lateJoin, Sample.requesting, Sample.message, Sample.connect]
  refine ((advertised_is_held (Sample.history Sample.lateJoin) ?_).1 (Sample.addr 81)
    (by decide +kernel) 0).mpr ?_
  · rintro newer e older hh ⟨j, data, hi⟩
    exact absurd hi (hlocal _ (History.mem_events (by rw [hh]; simp)) j data)
  · exact (PieceManager.isComplete_iff _).mp (by decide +kernel) 0 (by decide +kernel)

end Swarm

end Tortue
