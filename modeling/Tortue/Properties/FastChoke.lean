import Tortue.Domain.Swarm.Announcements

namespace Tortue

open Collections

namespace Swarm

variable {sha1 : Sha1} {s : Swarm} {clientId : PeerId} {metainfo : Metainfo}
  {h newer older : Trace} {e : Happening} {x : SocketAddr} {r : BlockRange}

def Resolves (s : Swarm) (x : SocketAddr) (r : BlockRange) : Input → Prop
  | .messageReceived y (.piece range _) => x = y ∧ r = range
  | .messageReceived y (.rejectRequest range) => x = y ∧ r = range
  | .peerDisconnected y => x = y
  | .peerConnected id d y _ =>
    ¬ s.Refused d id ∧ (x = y ∨ ∃ d', s.peerRegistry.connectionFor id = some (x, d'))
  | _ => False

structure OpenRequest (sha1 : Sha1) (newer : Trace) (e : Happening) (x : SocketAddr)
    (r : BlockRange) : Prop where
  requested : .sendToPeer x (.request r) ∈ e.outputs
  fast : ∃ p, (step sha1 e.before e.input).1.peerRegistry.peers.get x = some p ∧ p.fast = true
  unresolved : ∀ f ∈ newer, ¬ f.before.Resolves x r f.input.1

structure StillHeld (s : Swarm) (newer : Trace) (x : SocketAddr) (r : BlockRange) : Prop where
  held : s.blockAssignments.isHolder r x = true
  once : ∀ f ∈ newer, .sendToPeer x (.request r) ∉ f.outputs
  received : ∀ data, delivered s (.messageReceived x (.piece r data)) = [(r, data)]

theorem released_iff_choke {i : Input} (hopen : ¬ s.Resolves x r i) :
    s.Released x r i ↔ i = .messageReceived x .choke := by
  cases i with
  | messageReceived y m =>
    cases m with
    | piece range data =>
      have hnot : ¬ s.Released x r (.messageReceived y (.piece range data)) := hopen
      simp [hnot]
    | rejectRequest range =>
      have hnot : ¬ s.Released x r (.messageReceived y (.rejectRequest range)) :=
        fun hreleased => hopen hreleased.1
      simp [hnot]
    | choke => simp [Released, eq_comm]
    | _ => simp [Released]
  | peerDisconnected y =>
    have hnot : ¬ s.Released x r (.peerDisconnected y) := hopen
    simp [hnot]
  | peerConnected id d y e =>
    have hnot : ¬ s.Released x r (.peerConnected id d y e) := hopen
    simp [hnot]
  | _ => simp [Released]

theorem kept_of_no_choke (hist : History (step sha1) (Started clientId metainfo) h s)
    (hh : h = newer ++ e :: older) (hopen : OpenRequest sha1 newer e x r)
    (hquiet : ∀ f ∈ newer, f.input.1 ≠ .messageReceived x .choke) : StillHeld s newer x r := by
  have hkept : ∀ f ∈ newer, ¬ f.before.Released x r f.input.1 := fun f hf hreleased =>
    hquiet f hf ((released_iff_choke (hopen.unresolved f hf)).mp hreleased)
  have hrequested : (x, r) ∈ requestsOf e.outputs := mem_requestsOf.mpr hopen.requested
  have hheld : s.blockAssignments.isHolder r x = true :=
    (held_iff_outstanding hist x r).mpr ⟨newer, e, older, hh, hrequested, hkept⟩
  refine ⟨hheld, fun f hf hagain => ?_, fun data => ?_⟩
  · obtain ⟨later, earlier, hsplit⟩ := List.mem_iff_append.mp hf
    have hh' : h = later ++ f :: (earlier ++ e :: older) := by simp [hh, hsplit]
    obtain ⟨hbefore, hout⟩ := hist.event_before hh'
    have hbal := step_balanced sha1 (reachable_accounted ⟨_, hbefore⟩) f.input
    refine hbal.fresh r x (hout ▸ mem_requestsOf.mpr hagain) ⟨?_, hkept f hf⟩
    refine (held_iff_outstanding hbefore x r).mpr ⟨earlier, e, older, rfl, hrequested, ?_⟩
    exact fun g hg => hkept g (hsplit ▸ by simp [hg])
  · have hacc := reachable_accounted ⟨h, hist⟩
    have hreg : s.peerRegistry.containsAddr x = true :=
      hacc.registered x (hacc.assigned r x hheld)
    simp [delivered, hreg, hheld]

theorem not_kept_after_choke (hist : History (step sha1) (Started clientId metainfo) h s)
    (hh : h = newer ++ e :: older) (hkept : StillHeld s newer x r) {f : Happening}
    (hf : f ∈ newer) : f.input.1 ≠ .messageReceived x .choke := by
  intro hchoke
  have hreleased : f.before.Released x r f.input.1 := by
    rw [hchoke]
    exact rfl
  obtain ⟨later, earlier, rfl⟩ := List.mem_iff_append.mp hf
  have hsince : Since (fun g : Happening => (x, r) ∈ requestsOf g.outputs)
      (fun g => g.before.Released x r g.input.1) (later ++ f :: (earlier ++ e :: older)) := by
    have hout := (held_iff_outstanding hist x r).mp hkept.held
    rwa [hh, List.append_assoc, List.cons_append] at hout
  rcases since_after hsince hreleased with hagain | ⟨g, hg, hagain⟩
  · exact hkept.once f hf (mem_requestsOf.mp hagain)
  · exact hkept.once g (List.mem_append_left _ hg) (mem_requestsOf.mp hagain)

theorem open_request_kept_iff (hist : History (step sha1) (Started clientId metainfo) h s)
    (hh : h = newer ++ e :: older) (hopen : OpenRequest sha1 newer e x r) :
    StillHeld s newer x r ↔ ∀ f ∈ newer, f.input.1 ≠ .messageReceived x .choke :=
  ⟨fun hkept _ hf => not_kept_after_choke hist hh hkept hf,
    fun hquiet => kept_of_no_choke hist hh hopen hquiet⟩

end Swarm

namespace Sample

def offering : List (Input × Entropy) := [connect 2 .outbound 80, message 80 (.havePiece 0)]

def offered : Swarm := (History.run (Swarm.step sha1) swarm offering).1

theorem unchoke_requests (newer : Swarm.Trace)
    (hnewer : ∀ f ∈ newer, ¬ f.before.Resolves (addr 80) ⟨0, 0, 2⟩ f.input.1) :
    Swarm.OpenRequest sha1 newer
      ⟨offered, message 80 .unchoke, (Swarm.step sha1 offered (message 80 .unchoke)).2⟩
      (addr 80) ⟨0, 0, 2⟩ where
  requested := by decide +kernel
  fast := ⟨⟨peerId 2, false, false, .empty, .empty, true, none, 0, 0⟩, by decide +kernel, rfl⟩
  unresolved := hnewer

end Sample

namespace Swarm

theorem request_kept_after_allowedFast :
    StillHeld (step Sample.sha1 (step Sample.sha1 Sample.offered (Sample.message 80 .unchoke)).1
      (Sample.message 80 (.allowedFast 0))).1
      [⟨(step Sample.sha1 Sample.offered (Sample.message 80 .unchoke)).1,
        Sample.message 80 (.allowedFast 0), (step Sample.sha1 (step Sample.sha1 Sample.offered
          (Sample.message 80 .unchoke)).1 (Sample.message 80 (.allowedFast 0))).2⟩]
      (Sample.addr 80) ⟨0, 0, 2⟩ := by
  refine (open_request_kept_iff (((Sample.history Sample.offering).next
    (Sample.message 80 .unchoke)).next (Sample.message 80 (.allowedFast 0))) rfl
    (Sample.unchoke_requests _ ?_)).mpr ?_
  · intro f hf
    rw [List.mem_singleton] at hf
    subst hf
    exact fun hresolved => hresolved
  · intro f hf
    rw [List.mem_singleton] at hf
    subst hf
    simp [Sample.message]

theorem choked_request_sent_again :
    ¬ ∀ sha1 clientId metainfo h s, History (step sha1) (Started clientId metainfo) h s →
      ∀ newer e older x r, h = newer ++ e :: older → OpenRequest sha1 newer e x r →
        StillHeld s newer x r := by
  intro hall
  have hist := (((Sample.history Sample.offering).next (Sample.message 80 .unchoke)).next
    (Sample.message 80 .choke)).next (Sample.message 80 .unchoke)
  have hkept := hall _ _ _ _ _ hist [_, _] _ _ _ _ rfl (Sample.unchoke_requests _ ?_)
  · refine hkept.once _ (List.mem_cons_self ..) ?_
    decide +kernel
  · intro f hf
    rcases List.mem_cons.mp hf with rfl | hf
    · exact fun hresolved => hresolved
    · rw [List.mem_singleton] at hf
      subst hf
      exact fun hresolved => hresolved

end Swarm

end Tortue
