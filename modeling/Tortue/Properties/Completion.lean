import Tortue.Domain.Swarm.Completion

namespace Tortue

open Collections

def Output.writes (i : Nat) : Output → Bool
  | .writePiece range _ => decide (range.pieceIndex = i)
  | _ => false

namespace Swarm

open PieceManager

variable {sha1 : Sha1} {s : Swarm}

namespace Completes

variable {x : SocketAddr} {range : BlockRange} {data : Bytes} {t : Swarm} {outputs : List Output}
  {c : CompletedPiece}

theorem countP_writes (h : Completes sha1 s x range data t outputs c) (i : Nat) :
    outputs.countP (Output.writes i) = if c.range.pieceIndex = i then 1 else 0 := by
  obtain ⟨rest, hout, honly, -⟩ := h.outputs
  have hrest : rest.countP (Output.writes i) = 0 := by
    refine List.countP_eq_zero.mpr fun o ho hw => ?_
    cases o with
    | writePiece r d =>
      have heq := honly _ ho rfl
      contradiction
    | _ => contradiction
  rw [hout, List.countP_cons, List.countP_cons, hrest]
  simp [Output.writes]

theorem count_completed (h : Completes sha1 s x range data t outputs c) :
    outputs.count .completed = if t.pieces.isComplete then 1 else 0 := by
  obtain ⟨rest, hout, -, hcount⟩ := h.outputs
  rw [hout, ← hcount]
  simp

end Completes

theorem countP_writes_silent {outputs : List Output} (h : ∀ o ∈ outputs, o.announces = false)
    (i : Nat) : outputs.countP (Output.writes i) = 0 := by
  refine List.countP_eq_zero.mpr fun o ho hw => ?_
  cases o with
  | writePiece r d =>
    have hfalse := h _ ho
    contradiction
  | _ => contradiction

section

variable {clientId : PeerId} {metainfo : Metainfo} {h : Trace}

theorem writes_le_complete (hist : History (step sha1) (Started clientId metainfo) h s) (i : Nat) :
    (h.flatMap Event.outputs).countP (Output.writes i) ≤ 1 ∧
      (0 < (h.flatMap Event.outputs).countP (Output.writes i) → s.pieces.CompleteAt i) := by
  induction hist with
  | start _ => simp
  | @next h s inp hist ih =>
    have hs := history_sound hist
    rw [List.flatMap_cons, List.countP_append]
    rcases step_announces sha1 s inp with ⟨hsilent, -⟩ | ⟨x, range, data, c, -, hc⟩
    · rw [countP_writes_silent hsilent, Nat.zero_add]
      exact ⟨ih.1, fun hpos => (complete_step sha1 i s inp ⟨hs, ih.2 hpos⟩).2⟩
    · have hnew := (completes_missing hist hc).1
      rw [hc.countP_writes, hc.completeAt_iff hs]
      split
      · next heq =>
        have hzero : ¬ 0 < (h.flatMap Event.outputs).countP (Output.writes i) :=
          fun hpos => hnew (heq ▸ ih.2 hpos)
        exact ⟨by omega, fun _ => .inr heq⟩
      · rw [Nat.zero_add]
        exact ⟨ih.1, fun hpos => .inl (ih.2 hpos)⟩

theorem completed_le_complete (hist : History (step sha1) (Started clientId metainfo) h s) :
    (h.flatMap Event.outputs).count .completed ≤ 1 ∧
      (0 < (h.flatMap Event.outputs).count .completed → s.pieces.isComplete = true) := by
  induction hist with
  | start _ => simp
  | @next h s inp hist ih =>
    have hs := history_sound hist
    rw [List.flatMap_cons, List.count_append]
    rcases step_announces sha1 s inp with ⟨hsilent, -⟩ | ⟨x, range, data, c, -, hc⟩
    · rw [count_completed_silent hsilent, Nat.zero_add]
      exact ⟨ih.1, fun hpos => isComplete_stable sha1 s inp hs (ih.2 hpos)⟩
    · have hopen := (completes_missing hist hc).2
      have hzero : ¬ 0 < (h.flatMap Event.outputs).count .completed := by
        intro hpos
        rw [ih.2 hpos] at hopen
        contradiction
      rw [hc.count_completed]
      split
      · next hall => exact ⟨by omega, fun _ => hall⟩
      · exact ⟨by omega, fun hpos => absurd hpos (by omega)⟩

theorem event_writes {newer older : Trace} {e : Event Swarm (Input × Entropy) Output}
    (hist : History (step sha1) (Started clientId metainfo) h s) (hh : h = newer ++ e :: older)
    {range : BlockRange} {data : Bytes} (hw : .writePiece range data ∈ e.outputs) :
    ∃ x r d c, e.input.1 = .messageReceived x (.piece r d) ∧ c.range = range ∧ c.data = data ∧
      Completes sha1 e.before x r d (step sha1 e.before e.input).1 e.outputs c := by
  obtain ⟨-, hout⟩ := hist.event_before hh
  rw [hout] at hw ⊢
  rcases step_announces sha1 e.before e.input with ⟨hsilent, -⟩ | ⟨x, r, d, c, hi, hc⟩
  · have hfalse := hsilent _ hw
    contradiction
  · refine ⟨x, r, d, c, hi, ?_⟩
    rcases hc.writes_iff hw rfl with hb | hb | hb
    · contradiction
    · simp only [Output.writePiece.injEq] at hb
      exact ⟨hb.1.symm, hb.2.symm, hc⟩
    · contradiction

theorem write_verified {newer older : Trace} {e : Event Swarm (Input × Entropy) Output}
    (hist : History (step sha1) (Started clientId metainfo) h s) (hh : h = newer ++ e :: older)
    {range : BlockRange} {data : Bytes} (hw : .writePiece range data ∈ e.outputs) :
    Verified sha1 metainfo (deliveries sha1 (e :: older)) ⟨range, data⟩ := by
  obtain ⟨hbefore, -⟩ := hist.event_before hh
  obtain ⟨x, r, d, c, hi, rfl, rfl, hc⟩ := event_writes hist hh hw
  have hone : deliveries sha1 (e :: older) =
      ⟨e.before.pieces, (r, d), (deliver sha1 e.before.pieces (r, d)).2⟩ ::
        deliveries sha1 older := by
    unfold deliveries
    rw [List.flatMap_cons, hi, hc.held]
    rfl
  rw [hone]
  exact (completed_verified (deliveries_delivered hbefore) (d := (r, d)) hc.result).1

theorem write_after_have {pre post : List Output} {e : Event Swarm (Input × Entropy) Output}
    (hist : History (step sha1) (Started clientId metainfo) h s) (he : e ∈ h)
    {range : BlockRange} {data : Bytes} (hout : e.outputs = pre ++ .writePiece range data :: post) :
    ∃ pre', pre = pre' ++ [.broadcast (.havePiece range.pieceIndex)] := by
  obtain ⟨newer, older, hh⟩ := List.append_of_mem he
  have hw : .writePiece range data ∈ e.outputs := by
    rw [hout]
    simp
  obtain ⟨x, r, d, c, hi, rfl, rfl, hc⟩ := event_writes hist hh hw
  obtain ⟨rest, hrest, honly, -⟩ := hc.outputs
  rw [hrest] at hout
  cases pre with
  | nil => simp at hout
  | cons o pre =>
    rw [List.cons_append, List.cons.injEq] at hout
    obtain ⟨rfl, hout⟩ := hout
    cases pre with
    | nil => exact ⟨[], rfl⟩
    | cons o pre =>
      rw [List.cons_append, List.cons.injEq] at hout
      have hlate : .writePiece c.range c.data ∈ rest := by
        rw [hout.2]
        simp
      have heq := honly _ hlate rfl
      contradiction

theorem completion_unique {e f : Event Swarm (Input × Entropy) Output} {i : Nat}
    (hist : History (step sha1) (Started clientId metainfo) h s) (he : e ∈ h) (hf : f ∈ h)
    (hebefore : ¬ e.before.pieces.CompleteAt i)
    (heafter : (step sha1 e.before e.input).1.pieces.CompleteAt i)
    (hfbefore : ¬ f.before.pieces.CompleteAt i)
    (hfafter : (step sha1 f.before f.input).1.pieces.CompleteAt i) : e = f := by
  have hlater : ∀ {a : Event Swarm (Input × Entropy) Output} {newer older : Trace},
      h = newer ++ a :: older → (step sha1 a.before a.input).1.pieces.CompleteAt i →
        ∀ b ∈ newer, b.before.pieces.CompleteAt i := by
    intro a newer older hh ha b hb
    have hsound : (step sha1 a.before a.input).1.pieces.Sound := by
      rw [step_pieces]
      exact sound_run (history_sound (hist.event_before hh).1) sha1 _
    exact ((hist.stable_after (complete_step sha1 i) hh ⟨hsound, ha⟩).1 b hb).2
  obtain ⟨newer, older, hh⟩ := List.append_of_mem he
  rw [hh] at hf
  rcases List.mem_append.mp hf with hf | hf
  · exact absurd (hlater hh heafter f hf) hfbefore
  · rcases List.mem_cons.mp hf with rfl | hf
    · rfl
    · obtain ⟨mid, oldest, hold⟩ := List.append_of_mem hf
      have hh' : h = (newer ++ e :: mid) ++ f :: oldest := by
        rw [hh, hold]
        simp
      exact absurd (hlater hh' hfafter e (by simp)) hebefore

theorem announced_index {f : Event Swarm (Input × Entropy) Output} {i : Nat}
    (hist : History (step sha1) (Started clientId metainfo) h s) (hf : f ∈ h)
    (hann : (∃ range data, range.pieceIndex = i ∧ .writePiece range data ∈ f.outputs) ∨
      .broadcast (.havePiece i) ∈ f.outputs) :
    (∃ x range data, f.input.1 = .messageReceived x (.piece range data)) ∧
      ¬ f.before.pieces.CompleteAt i ∧ (step sha1 f.before f.input).1.pieces.CompleteAt i := by
  obtain ⟨newer, older, hh⟩ := List.append_of_mem hf
  obtain ⟨hbefore, hout⟩ := hist.event_before hh
  rw [hout] at hann
  rcases step_announces sha1 f.before f.input with ⟨hsilent, -⟩ | ⟨x, r, d, c, hi, hc⟩
  · rcases hann with ⟨range, data, -, hin⟩ | hin
    · have hfalse := hsilent _ hin
      contradiction
    · have hfalse := hsilent _ hin
      contradiction
  · have hindex : c.range.pieceIndex = i := by
      rcases hann with ⟨range, data, hidx, hin⟩ | hin
      · rcases hc.writes_iff hin rfl with h | h | h
        · contradiction
        · simp only [Output.writePiece.injEq] at h
          rw [← h.1]
          exact hidx
        · contradiction
      · rcases hc.writes_iff hin rfl with h | h | h
        · simp only [Output.broadcast.injEq, Message.havePiece.injEq] at h
          exact h.symm
        · contradiction
        · contradiction
    refine ⟨⟨x, r, d, hi⟩, ?_, ?_⟩
    · rw [← hindex]
      exact (completes_missing hbefore hc).1
    · exact (hc.completeAt_iff (history_sound hbefore) i).mpr (.inr hindex)

theorem completed_iff {e : Event Swarm (Input × Entropy) Output}
    (hist : History (step sha1) (Started clientId metainfo) h s) (he : e ∈ h) :
    .completed ∈ e.outputs ↔
      (∃ x range data, e.input.1 = .messageReceived x (.piece range data)) ∧
        e.before.pieces.isComplete = false ∧
          (step sha1 e.before e.input).1.pieces.isComplete = true := by
  obtain ⟨newer, older, hh⟩ := List.append_of_mem he
  obtain ⟨hbefore, hout⟩ := hist.event_before hh
  have hs := history_sound hbefore
  rw [hout]
  rcases step_announces sha1 e.before e.input with ⟨hsilent, hnot⟩ | ⟨x, r, d, c, hi, hc⟩
  · constructor
    · intro hin
      have hfalse := hsilent _ hin
      contradiction
    · rintro ⟨⟨x, range, data, hi⟩, hopen, hclosed⟩
      have hsame : ∀ j, (step sha1 e.before e.input).1.pieces.CompleteAt j →
          e.before.pieces.CompleteAt j := fun j hj =>
        completeAt_of_incomplete hs hi (fun hone c => hnot x range data c hi hone) hj
      have hall : e.before.pieces.isComplete = true := by
        rw [isComplete_iff] at hclosed ⊢
        intro j hj
        refine hsame j (hclosed j ?_)
        rw [step_length sha1 e.before e.input]
        exact hj
      rw [hall] at hopen
      contradiction
  · have hcount := hc.count_completed
    constructor
    · intro hin
      have hpos := List.count_pos_iff.mpr hin
      rw [hcount] at hpos
      refine ⟨⟨x, r, d, hi⟩, (completes_missing hbefore hc).2, ?_⟩
      by_contra hopen
      rw [if_neg hopen] at hpos
      omega
    · rintro ⟨-, -, hclosed⟩
      rw [if_pos hclosed] at hcount
      exact List.count_pos_iff.mp (by omega)

theorem exactly_once_verified_completion
    (hist : History (step sha1) (Started clientId metainfo) h s) :
    (∀ i, (h.flatMap Event.outputs).countP (Output.writes i) ≤ 1) ∧
    (∀ newer e older, h = newer ++ e :: older → ∀ range data,
      .writePiece range data ∈ e.outputs →
        Verified sha1 metainfo (deliveries sha1 (e :: older)) ⟨range, data⟩) ∧
    (∀ e ∈ h, ∀ pre post range data, e.outputs = pre ++ .writePiece range data :: post →
      ∃ pre', pre = pre' ++ [.broadcast (.havePiece range.pieceIndex)]) ∧
    (∀ e ∈ h, ∀ j data, e.input.1 = .localPiece j data → ∀ i, ¬ e.before.pieces.CompleteAt i →
      (step sha1 e.before e.input).1.pieces.CompleteAt i → ∀ f ∈ h,
        (∀ range data, range.pieceIndex = i → .writePiece range data ∉ f.outputs) ∧
          .broadcast (.havePiece i) ∉ f.outputs) ∧
    (∀ newer e older, h = newer ++ e :: older → ∀ i, e.before.pieces.CompleteAt i →
      (∀ f ∈ newer, f.before.pieces.CompleteAt i) ∧ s.pieces.CompleteAt i) ∧
    (h.flatMap Event.outputs).count .completed ≤ 1 ∧
    (∀ e ∈ h, .completed ∈ e.outputs ↔
      (∃ x range data, e.input.1 = .messageReceived x (.piece range data)) ∧
        e.before.pieces.isComplete = false ∧
          (step sha1 e.before e.input).1.pieces.isComplete = true) := by
  refine ⟨fun i => (writes_le_complete hist i).1, fun newer e older hh range data hw => ?_,
    fun e he pre post range data hout => write_after_have hist he hout, ?_, ?_,
    (completed_le_complete hist).1, fun e he => completed_iff hist he⟩
  · exact write_verified hist hh hw
  · intro e he j data hi i hopen hclosed f hf
    have hnot : ¬ ((∃ range data, range.pieceIndex = i ∧ .writePiece range data ∈ f.outputs) ∨
        .broadcast (.havePiece i) ∈ f.outputs) := by
      intro hann
      obtain ⟨⟨x, r, d, hfi⟩, hfopen, hfclosed⟩ := announced_index hist hf hann
      have heq := completion_unique hist he hf hopen hclosed hfopen hfclosed
      rw [heq, hfi] at hi
      contradiction
    rw [not_or] at hnot
    exact ⟨fun range data hidx hin => hnot.1 ⟨range, data, hidx, hin⟩, hnot.2⟩
  · intro newer e older hh i hi
    obtain ⟨hbefore, -⟩ := hist.event_before hh
    have hnext := complete_step sha1 i e.before e.input ⟨history_sound hbefore, hi⟩
    obtain ⟨hnewer, hlast⟩ := hist.stable_after (complete_step sha1 i) hh hnext
    exact ⟨fun f hf => (hnewer f hf).2, hlast.2⟩

theorem sample_piece_written_once :
    ((History.events (step Sample.sha1) Sample.swarm
      (Sample.requesting ++ [Sample.message 80 (.piece ⟨0, 0, 2⟩ [1, 2])])).flatMap
        Event.outputs).countP (Output.writes 0) = 1 := by
  refine Nat.le_antisymm ?_ (by decide +kernel)
  exact (exactly_once_verified_completion (Sample.history _)).1 0

end

end Swarm

end Tortue
