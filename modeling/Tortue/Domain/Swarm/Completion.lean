import Tortue.Domain.Swarm.Ledger
import Tortue.Domain.Swarm.PieceHistory

namespace Tortue

open Collections

def Output.announces : Output → Bool
  | .writePiece _ _ | .broadcast _ | .completed => true
  | _ => false

theorem Plain.silent {outputs : List Output} (h : Plain outputs) :
    ∀ o ∈ outputs, o.announces = false := by
  intro o ho
  have hplain := h o ho
  cases o <;> first | rfl | contradiction

namespace Swarm

open PieceManager

variable {sha1 : Sha1} {env : Entropy} {s : Swarm}

def delivered (s : Swarm) : Input → List (BlockRange × Bytes)
  | .messageReceived x (.piece range data) =>
    if s.peerRegistry.containsAddr x && s.blockAssignments.isHolder range x then [(range, data)]
    else []
  | .localPiece i data =>
    (localBlocks s.pieces i data).map fun range =>
      (range, (data.drop range.pieceOffset).take range.len)
  | _ => []

def deliveries (sha1 : Sha1) (h : Trace) : Deliveries :=
  h.flatMap fun e => History.events (deliver sha1) e.before.pieces (delivered e.before e.input.1)

theorem run_localBlocks (sha1 : Sha1) (data : Bytes) (ranges : List BlockRange)
    (pm : PieceManager) :
    (History.run (deliver sha1) pm (ranges.map fun range =>
      (range, (data.drop range.pieceOffset).take range.len))).1 =
      ranges.foldl (receiveLocalBlock sha1 data) pm := by
  induction ranges generalizing pm with
  | nil => rfl
  | cons range ranges ih => exact ih _

theorem handleMessage_pieces (x : SocketAddr) {m : Message}
    (hm : ∀ range data, m ≠ .piece range data) :
    (s.handleMessage sha1 env x m).1.pieces = s.pieces := by
  cases m with
  | piece range data => exact absurd rfl (hm range data)
  | request range =>
    obtain ⟨_, _, hs⟩ := onMessageRequest_fst s x range
    simp only [handleMessage, hs]
  | cancel range =>
    obtain ⟨_, hs⟩ := cancelUpload_fst s x range
    simp only [handleMessage, hs]
  | _ => rfl

theorem plan_silent (env : Entropy) (s : Swarm) : ∀ o ∈ (s.plan env).2, o.announces = false := by
  intro o ho
  obtain ⟨y, rfl | ⟨b, rfl⟩⟩ := (plan_granted env s).messages o ho <;> rfl

theorem onMessage_unaffected (x : SocketAddr) {m : Message}
    (hm : ∀ range data, m ≠ .piece range data) :
    (s.onMessage sha1 env x m).1.pieces = s.pieces ∧
      ∀ o ∈ (s.onMessage sha1 env x m).2, o.announces = false := by
  have hhandled : ∀ r, ∀ o ∈ (handleMessage sha1 env { s with peerRegistry := r } x m).2,
      o.announces = false := by
    intro r
    by_cases hr : ∃ range, m = .request range
    · obtain ⟨range, rfl⟩ := hr
      simp only [handleMessage]
      rcases onMessageRequest_cases { s with peerRegistry := r } x range with hs | ⟨-, -, -, hs⟩ <;>
        rw [hs] <;> simp [Output.announces]
    · exact (plain_handleMessage sha1 env _ x m hm fun range h => hr ⟨range, h⟩).silent
  rcases onMessage_cases sha1 env s x m with ⟨_, -, hs, ho⟩ | ⟨r, -, -, hs⟩ | ⟨r, -, -, hs⟩
  · refine ⟨by rw [hs], fun o hin => ?_⟩
    rw [ho o hin]
    rfl
  · rw [hs]
    exact ⟨handleMessage_pieces x hm, hhandled r⟩
  · rw [hs]
    refine ⟨?_, fun o ho => ?_⟩
    · rw [plan_pieces]
      exact handleMessage_pieces x hm
    · rcases List.mem_append.mp ho with ho | ho
      · exact hhandled r o ho
      · exact plan_silent env _ o ho

structure Completes (sha1 : Sha1) (s : Swarm) (x : SocketAddr) (range : BlockRange) (data : Bytes)
    (t : Swarm) (outputs : List Output) (c : CompletedPiece) : Prop where
  held : delivered s (.messageReceived x (.piece range data)) = [(range, data)]
  result : (s.pieces.receiveBlock sha1 range data).1 = .ok (some c)
  pieces : t.pieces = (s.pieces.receiveBlock sha1 range data).2
  outputs : ∃ rest, outputs =
      .broadcast (.havePiece c.range.pieceIndex) :: .writePiece c.range c.data :: rest ∧
    (∀ o ∈ rest, o.announces = true → o = .completed) ∧
    rest.count .completed = if t.pieces.isComplete then 1 else 0

theorem apply_piece_ok {r : PeerRegistry} {x : SocketAddr} {m : Message}
    (h : s.peerRegistry.apply x m = .ok r) : s.peerRegistry.containsAddr x = true := by
  obtain ⟨p, hp, -⟩ := PeerRegistry.apply_ok h
  exact HashMap.contains_iff.mpr ⟨p, hp⟩

theorem apply_piece_error {reason : RejectReason} {x : SocketAddr} {range : BlockRange}
    {data : Bytes} (h : s.peerRegistry.apply x (.piece range data) = .error reason) :
    s.peerRegistry.containsAddr x = false := by
  by_contra hin
  rw [Bool.not_eq_false] at hin
  obtain ⟨p, hp⟩ := HashMap.contains_iff.mp hin
  unfold PeerRegistry.apply at h
  simp [hp, Message.needsFast] at h

theorem completionOutputs_count (env : Entropy) (s : Swarm) :
    (∀ o ∈ s.completionOutputs env, o.announces = true → o = .completed) ∧
      (s.completionOutputs env).count .completed = if s.pieces.isComplete then 1 else 0 := by
  rcases completionOutputs_eq env s with h | ⟨hc, l, h⟩
  · have hnot : s.pieces.isComplete = false := by
      by_contra hc
      rw [Bool.not_eq_false] at hc
      simp [completionOutputs, hc] at h
    rw [h, hnot]
    simp
  · rw [h, hc]
    refine ⟨fun o ho ha => ?_, ?_⟩
    · rcases List.mem_cons.mp ho with rfl | ho
      · rfl
      · obtain ⟨y, -, rfl⟩ := List.mem_map.mp ho
        contradiction
    · rw [List.count_cons_self, if_pos rfl, List.count_eq_zero.mpr]
      simp

theorem count_completed_silent {outputs : List Output} (h : ∀ o ∈ outputs, o.announces = false) :
    outputs.count .completed = 0 := by
  refine List.count_eq_zero.mpr fun hin => ?_
  have hfalse := h _ hin
  contradiction

theorem onMessagePiece_step (sha1 : Sha1) (env : Entropy) (s : Swarm) (x : SocketAddr)
    (range : BlockRange) (data : Bytes) :
    (s.onMessage sha1 env x (.piece range data)).1.pieces =
      (History.run (deliver sha1) s.pieces
        (delivered s (.messageReceived x (.piece range data)))).1 ∧
    (((∀ o ∈ (s.onMessage sha1 env x (.piece range data)).2, o.announces = false) ∧
      ∀ c, delivered s (.messageReceived x (.piece range data)) = [(range, data)] →
        (s.pieces.receiveBlock sha1 range data).1 ≠ .ok (some c)) ∨
    ∃ c, Completes sha1 s x range data (s.onMessage sha1 env x (.piece range data)).1
      (s.onMessage sha1 env x (.piece range data)).2 c) := by
  rcases onMessage_cases sha1 env s x (.piece range data) with
    ⟨_, ha, hs, ho⟩ | ⟨r, ha, hsched, hs⟩ | ⟨r, ha, -, hs⟩
  · have hnone : delivered s (.messageReceived x (.piece range data)) = [] := by
      simp [delivered, apply_piece_error ha]
    rw [hs, hnone]
    refine ⟨rfl, .inl ⟨fun o hin => ?_, fun c h => by simp at h⟩⟩
    rw [ho o hin]
    rfl
  · contradiction
  · have hknown := apply_piece_ok ha
    rw [hs, plan_pieces]
    simp only [handleMessage]
    rcases onMessagePiece_cases sha1 env { s with peerRegistry := r } x range data with
      ⟨hfree, hres⟩ | ⟨hheld, hpieces, hres⟩
    · have hnone : delivered s (.messageReceived x (.piece range data)) = [] := by
        simp only at hfree
        simp [delivered, hfree]
      rw [hres, hnone]
      refine ⟨rfl, .inl ⟨fun o hin => ?_, fun c h => by simp at h⟩⟩
      exact plan_silent env _ o (by simpa using hin)
    · have hone : delivered s (.messageReceived x (.piece range data)) = [(range, data)] := by
        simp only at hheld
        simp [delivered, hknown, hheld]
      rw [hone]
      refine ⟨by rw [hpieces]; rfl, ?_⟩
      rcases hres with ⟨hnot, hres⟩ | ⟨c, hc, hres⟩
      · refine .inl ⟨fun o hin => ?_, fun c _ => hnot c⟩
        rw [hres] at hin
        exact plan_silent env _ o (by simpa using hin)
      · refine .inr ⟨c, hone, hc, by rw [plan_pieces, hpieces], ?_⟩
        obtain ⟨honly, hcount⟩ := completionOutputs_count env
          (onMessagePiece sha1 env { s with peerRegistry := r } x range data).1
        have hplan := plan_silent env
          (onMessagePiece sha1 env { s with peerRegistry := r } x range data).1
        let s' := (onMessagePiece sha1 env { s with peerRegistry := r } x range data).1
        refine ⟨s'.completionOutputs env ++ (s'.plan env).2, by rw [hres]; rfl,
          fun o hin hann => ?_, ?_⟩
        · rcases List.mem_append.mp hin with hin | hin
          · exact honly o hin hann
          · rw [hplan o hin] at hann
            contradiction
        · rw [List.count_append, hcount, count_completed_silent hplan, plan_pieces]
          rfl

theorem step_pieces (sha1 : Sha1) (s : Swarm) (i : Input × Entropy) :
    (step sha1 s i).1.pieces =
      (History.run (deliver sha1) s.pieces (delivered s i.1)).1 := by
  obtain ⟨input, env⟩ := i
  cases input with
  | messageReceived x m =>
    by_cases hm : ∃ range data, m = .piece range data
    · obtain ⟨range, data, rfl⟩ := hm
      exact (onMessagePiece_step sha1 env s x range data).1
    · have hne : ∀ range data, m ≠ .piece range data := fun range data h => hm ⟨range, data, h⟩
      have hnone : delivered s (.messageReceived x m) = [] := by
        cases m <;> first | rfl | exact absurd rfl (hne _ _)
      rw [hnone]
      exact (onMessage_unaffected x hne).1
  | localPiece i data => exact (run_localBlocks sha1 data _ s.pieces).symm
  | peerConnected id d x e =>
    rcases onConnected_cases env s x d id e with ⟨-, h⟩ | ⟨_, -, -, h⟩ | ⟨_, -, -, h⟩ <;>
      simp only [step, h] <;> rfl
  | uploadReadCompleted id range data =>
    rcases onUploadReadCompleted_cases env s id range data with hs | ⟨_, _, hs⟩ <;>
      simp only [step, hs] <;> rfl
  | swarmCommand cmd =>
    obtain ⟨_, _, _, -, hs⟩ := onSwarmCommand_cases env s cmd
    simp only [step, hs]
    rfl
  | tick t =>
    cases t with
    | block => exact plan_pieces env s
    | pex => rfl
  | _ => rfl

theorem step_announces (sha1 : Sha1) (s : Swarm) (i : Input × Entropy) :
    ((∀ o ∈ (step sha1 s i).2, o.announces = false) ∧
      ∀ x range data c, i.1 = .messageReceived x (.piece range data) →
        delivered s i.1 = [(range, data)] →
          (s.pieces.receiveBlock sha1 range data).1 ≠ .ok (some c)) ∨
    ∃ x range data c, i.1 = .messageReceived x (.piece range data) ∧
      Completes sha1 s x range data (step sha1 s i).1 (step sha1 s i).2 c := by
  obtain ⟨input, env⟩ := i
  cases input with
  | messageReceived x m =>
    by_cases hm : ∃ range data, m = .piece range data
    · obtain ⟨range, data, rfl⟩ := hm
      rcases (onMessagePiece_step sha1 env s x range data).2 with
        ⟨hsilent, hnot⟩ | ⟨c, hc⟩
      · refine .inl ⟨hsilent, fun x' range' data' c hi hd => ?_⟩
        simp only [Input.messageReceived.injEq, Message.piece.injEq] at hi
        obtain ⟨rfl, rfl, rfl⟩ := hi
        exact hnot c hd
      · exact .inr ⟨x, range, data, c, rfl, hc⟩
    · have hne : ∀ range data, m ≠ .piece range data := fun range data h => hm ⟨range, data, h⟩
      refine .inl ⟨(onMessage_unaffected x hne).2, fun x' range' data' c hi => ?_⟩
      simp only [Input.messageReceived.injEq] at hi
      exact absurd hi.2 (hne range' data')
  | peersDiscovered addrs => exact .inl ⟨(plain_onDiscovered s addrs).silent, by simp⟩
  | peerConnected id d x e => exact .inl ⟨(plain_onConnected env s x d id e).silent, by simp⟩
  | peerDisconnected x => exact .inl ⟨(plain_onDisconnected env s x).silent, by simp⟩
  | localPiece i data => exact .inl ⟨by simp [step, onLocalPiece], by simp⟩
  | uploadReadCompleted id range data =>
    refine .inl ⟨fun o ho => ?_, by simp⟩
    rcases onUploadReadCompleted_cases env s id range data with hs | ⟨_, _, hs⟩ <;>
      simp only [step, hs] at ho
    · contradiction
    · obtain ⟨y, -, rfl⟩ := List.mem_map.mp ho
      rfl
  | swarmCommand cmd => exact .inl ⟨(plain_onSwarmCommand env s cmd).silent, by simp⟩
  | tick t =>
    cases t with
    | block => exact .inl ⟨plan_silent env s, by simp⟩
    | pex => exact .inl ⟨(plain_pexOutputs env s).silent, by simp⟩

theorem deliveries_delivered {clientId : PeerId} {metainfo : Metainfo} {h : Trace}
    (hist : History (step sha1) (Started clientId metainfo) h s) :
    Delivered sha1 metainfo (deliveries sha1 h) s.pieces := by
  induction hist with
  | start hs => exact .start (started_fields hs).1
  | next i hist ih =>
    rw [step_pieces]
    exact ih.run_events _

theorem completeAt_run {pm : PieceManager} (hs : pm.Sound) (sha1 : Sha1)
    (ds : List (BlockRange × Bytes)) {i : Nat} (hi : pm.CompleteAt i) :
    (History.run (deliver sha1) pm ds).1.CompleteAt i := by
  have hboth : (History.run (deliver sha1) pm ds).1.Sound ∧
      (History.run (deliver sha1) pm ds).1.CompleteAt i := by
    refine History.run_invariant (P := fun (pm : PieceManager) => pm.Sound ∧ pm.CompleteAt i)
      (G := fun _ => True) (fun pm d _ h => ⟨?_, ?_⟩) ⟨hs, hi⟩ ds fun _ _ => trivial
    · exact sound_receiveBlock h.1 sha1 d.1 d.2
    · exact (completeAt_receiveBlock h.1 sha1 d.1 d.2 i).mpr (.inl h.2)
  exact hboth.2

theorem sound_run {pm : PieceManager} (hs : pm.Sound) (sha1 : Sha1)
    (ds : List (BlockRange × Bytes)) : (History.run (deliver sha1) pm ds).1.Sound :=
  History.run_invariant (P := PieceManager.Sound) (G := fun _ => True)
    (fun _ d _ h => sound_receiveBlock h sha1 d.1 d.2) hs ds fun _ _ => trivial

theorem complete_step (sha1 : Sha1) (j : Nat) (s : Swarm) (i : Input × Entropy)
    (h : s.pieces.Sound ∧ s.pieces.CompleteAt j) :
    (step sha1 s i).1.pieces.Sound ∧ (step sha1 s i).1.pieces.CompleteAt j := by
  rw [step_pieces]
  exact ⟨sound_run h.1 sha1 _, completeAt_run h.1 sha1 _ h.2⟩

namespace Completes

variable {x : SocketAddr} {range : BlockRange} {data : Bytes} {t : Swarm} {outputs : List Output}
  {c : CompletedPiece}

theorem completeAt_iff (h : Completes sha1 s x range data t outputs c) (hs : s.pieces.Sound)
    (j : Nat) : t.pieces.CompleteAt j ↔ s.pieces.CompleteAt j ∨ c.range.pieceIndex = j := by
  rw [h.pieces, completeAt_receiveBlock hs, h.result]
  simp

theorem writes_iff (h : Completes sha1 s x range data t outputs c) {o : Output} :
    o ∈ outputs → o.announces = true → o = .broadcast (.havePiece c.range.pieceIndex) ∨
      o = .writePiece c.range c.data ∨ o = .completed := by
  intro ho hann
  obtain ⟨rest, hout, honly, -⟩ := h.outputs
  rw [hout] at ho
  rcases List.mem_cons.mp ho with rfl | ho
  · exact .inl rfl
  · rcases List.mem_cons.mp ho with rfl | ho
    · exact .inr (.inl rfl)
    · exact .inr (.inr (honly o ho hann))

end Completes

section

variable {clientId : PeerId} {metainfo : Metainfo} {h : Trace}

theorem history_sound (hist : History (step sha1) (Started clientId metainfo) h s) :
    s.pieces.Sound :=
  delivered_sound (deliveries_delivered hist)

theorem completes_missing (hist : History (step sha1) (Started clientId metainfo) h s)
    {x : SocketAddr} {range : BlockRange} {data : Bytes} {t : Swarm} {outputs : List Output}
    {c : CompletedPiece} (hc : Completes sha1 s x range data t outputs c) :
    ¬ s.pieces.CompleteAt c.range.pieceIndex ∧ s.pieces.isComplete = false := by
  have hs := history_sound hist
  have hnew := (completed_verified (deliveries_delivered hist) (d := (range, data)) hc.result).2
  refine ⟨hnew, Bool.eq_false_iff.mpr fun hall => ?_⟩
  obtain ⟨p, hp, -⟩ := (hc.completeAt_iff hs c.range.pieceIndex).mpr (.inr rfl)
  have hlt := (List.getElem?_eq_some_iff.mp hp).1
  rw [hc.pieces, length_receiveBlock] at hlt
  exact hnew ((isComplete_iff _).mp hall _ hlt)

theorem step_length (sha1 : Sha1) (s : Swarm) (inp : Input × Entropy) :
    (step sha1 s inp).1.pieces.pieces.length = s.pieces.pieces.length := by
  rw [step_pieces]
  exact History.run_invariant
    (P := fun (pm : PieceManager) => pm.pieces.length = s.pieces.pieces.length)
    (G := fun _ => True)
    (fun pm d _ h => (length_receiveBlock sha1 pm d.1 d.2).trans h) rfl _ fun _ _ => trivial

theorem isComplete_stable (sha1 : Sha1) (s : Swarm) (inp : Input × Entropy) (hs : s.pieces.Sound)
    (hc : s.pieces.isComplete = true) : (step sha1 s inp).1.pieces.isComplete = true := by
  rw [isComplete_iff] at hc ⊢
  intro i hi
  rw [step_length sha1 s inp] at hi
  exact (complete_step sha1 i s inp ⟨hs, hc i hi⟩).2

theorem completeAt_of_incomplete (hs : s.pieces.Sound) {inp : Input × Entropy} {x : SocketAddr}
    {range : BlockRange} {data : Bytes} (hi : inp.1 = .messageReceived x (.piece range data))
    (hnot : delivered s inp.1 = [(range, data)] →
      ∀ c, (s.pieces.receiveBlock sha1 range data).1 ≠ .ok (some c)) {j : Nat}
    (hj : (step sha1 s inp).1.pieces.CompleteAt j) : s.pieces.CompleteAt j := by
  rw [step_pieces] at hj
  by_cases hone : delivered s inp.1 = [(range, data)]
  · rw [hone] at hj
    rcases (completeAt_receiveBlock hs sha1 range data j).mp hj with hold | ⟨c, hc, -⟩
    · exact hold
    · exact absurd hc (hnot hone c)
  · have hnone : delivered s inp.1 = [] := by
      rw [hi] at hone ⊢
      simp only [delivered] at hone ⊢
      split
      · next hcond => exact absurd (by rw [if_pos hcond]) hone
      · rfl
    rw [hnone] at hj
    exact hj

theorem step_completion (hs : s.pieces.Sound) (inp : Input × Entropy)
    (hlocal : ∀ j data, inp.1 ≠ .localPiece j data) :
    ((∀ o ∈ (step sha1 s inp).2, o.announces = false) ∧
      ∀ j, (step sha1 s inp).1.pieces.CompleteAt j → s.pieces.CompleteAt j) ∨
    ∃ x range data c, inp.1 = .messageReceived x (.piece range data) ∧
      Completes sha1 s x range data (step sha1 s inp).1 (step sha1 s inp).2 c := by
  rcases step_announces sha1 s inp with ⟨hsilent, hnot⟩ | hcompletes
  · refine .inl ⟨hsilent, fun j hj => ?_⟩
    by_cases hpiece : ∃ x range data, inp.1 = .messageReceived x (.piece range data)
    · obtain ⟨x, range, data, hi⟩ := hpiece
      exact completeAt_of_incomplete hs hi (fun hone c => hnot x range data c hi hone) hj
    · have hnone : delivered s inp.1 = [] := by
        unfold delivered
        split
        · next x range data hi => exact absurd ⟨x, range, data, hi⟩ hpiece
        · next i data hi => exact absurd hi (hlocal i data)
        · rfl
      rw [step_pieces, hnone] at hj
      exact hj
  · exact .inr hcompletes

end

end Swarm

namespace PieceManager

variable {sha1 : Sha1} {pm : PieceManager} {n : Nat}

structure Marked (n : Nat) (pm : PieceManager) : Prop where
  sound : pm.Sound
  count : pm.pieces.length = n
  size : pm.bitfield.data.length = (n + 7) / 8
  marks : ∀ i, Bitfield.bitSet pm.bitfield.data i = true ↔ pm.CompleteAt i

theorem completeAt_lt {i : Nat} (h : pm.CompleteAt i) : i < pm.pieces.length := by
  obtain ⟨p, hp, -⟩ := h
  exact (List.getElem?_eq_some_iff.mp hp).1

theorem marked_new {m : Metainfo} (h : PieceManager.new m = some pm) :
    Marked m.pieces.length pm := by
  have hsound := sound_new h
  obtain ⟨hlength, -, hspec⟩ := new_spec h
  simp only [PieceManager.new, Option.bind_eq_bind, Option.bind_eq_some_iff, Option.pure_def,
    Option.some.injEq] at h
  obtain ⟨pieces, -, rfl⟩ := h
  refine ⟨hsound, hlength, by simp [Bitfield.new, Bitfield.divCeil, Bitfield.bitsPerByte],
    fun i => ?_⟩
  rw [Bitfield.new, Bitfield.bitSet_zeros]
  constructor
  · intro h
    contradiction
  · rintro ⟨p, hp, hc⟩
    obtain ⟨hash, len, -, -, rfl⟩ := hspec i p hp
    contradiction

theorem receiveBlock_bitfield (sha1 : Sha1) (pm : PieceManager) (range : BlockRange)
    (data : Bytes) :
    ((∀ c, (pm.receiveBlock sha1 range data).1 ≠ .ok (some c)) ∧
      (pm.receiveBlock sha1 range data).2.bitfield = pm.bitfield) ∨
    ∃ c, (pm.receiveBlock sha1 range data).1 = .ok (some c) ∧
      pm.bitfield.setBit c.range.pieceIndex =
        .ok (pm.receiveBlock sha1 range data).2.bitfield := by
  unfold receiveBlock
  split
  · exact .inl ⟨by simp, rfl⟩
  · split
    · exact .inl ⟨by simp, rfl⟩
    · split
      · exact .inl ⟨by simp, rfl⟩
      · next p hp =>
        simp only
        split
        · exact .inl ⟨by simp, rfl⟩
        · exact .inl ⟨by simp, rfl⟩
        · split
          · exact .inl ⟨by simp, rfl⟩
          · next bf hbf => exact .inr ⟨_, rfl, hbf⟩

theorem marked_receiveBlock (h : Marked n pm) (sha1 : Sha1) (range : BlockRange) (data : Bytes) :
    Marked n (pm.receiveBlock sha1 range data).2 := by
  have hcomplete := completeAt_receiveBlock h.sound sha1 range data
  refine ⟨sound_receiveBlock h.sound sha1 range data,
    (length_receiveBlock sha1 pm range data).trans h.count, ?_, fun i => ?_⟩
  · rcases receiveBlock_bitfield sha1 pm range data with ⟨-, hbf⟩ | ⟨c, -, hbf⟩
    · rw [hbf]
      exact h.size
    · rw [(Bitfield.setBit_ok hbf).2, List.length_modify]
      exact h.size
  · rw [hcomplete i]
    rcases receiveBlock_bitfield sha1 pm range data with ⟨hnot, hbf⟩ | ⟨c, hc, hbf⟩
    · rw [hbf, h.marks]
      constructor
      · exact .inl
      · rintro (hold | ⟨c, hc, -⟩)
        · exact hold
        · exact absurd hc (hnot c)
    · have hlen : pm.bitfield.data.length =
          Bitfield.divCeil pm.bitfield.pieces Bitfield.bitsPerByte := by
        rw [h.size, h.sound.bits, h.count]
        rfl
      rw [Bitfield.bitSet_setBit hbf hlen, h.marks, hc, or_comm]
      simp [eq_comm]

end PieceManager

namespace Swarm

open PieceManager

variable {sha1 : Sha1} {clientId : PeerId} {metainfo : Metainfo} {s : Swarm} {h : Trace}

theorem history_marked (hist : History (step sha1) (Started clientId metainfo) h s) :
    Marked metainfo.pieces.length s.pieces := by
  induction hist with
  | start hs => exact marked_new (started_fields hs).1
  | next i _ ih =>
    rw [step_pieces]
    refine History.run_invariant (P := Marked metainfo.pieces.length) (G := fun _ => True)
      (fun pm d _ hm => ?_) ih _ fun _ _ => trivial
    exact marked_receiveBlock hm sha1 d.1 d.2

end Swarm

end Tortue
