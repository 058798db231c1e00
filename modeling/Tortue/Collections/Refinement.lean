import Tortue.Collections.History

namespace Collections

universe u v w u' v' w'

variable {σ : Type u} {ι : Type v} {ο : Type w} {τ : Type u'} {κ : Type v'} {π : Type w'}
  {step : σ → ι → σ × List ο} {init : σ → Prop} {step' : τ → κ → τ × List π} {init' : τ → Prop}
  {view : ο → Option π} {R : σ → τ → Prop}

namespace History

def transcript (h : List (Event σ ι ο)) : List ο := h.reverse.flatMap Event.outputs

theorem transcript_cons (e : Event σ ι ο) (h : List (Event σ ι ο)) :
    transcript (e :: h) = transcript h ++ e.outputs := by
  rw [transcript, List.reverse_cons, List.flatMap_append, List.flatMap_singleton]
  rfl

theorem transcript_events (s : σ) (is : List ι) (h : List (Event σ ι ο)) :
    transcript (events step s is ++ h) = transcript h ++ (run step s is).2 := by
  induction is generalizing s h with
  | nil => exact (List.append_nil _).symm
  | cons i is ih =>
    rw [events, List.append_assoc, List.singleton_append, ih, transcript_cons, run,
      List.append_assoc]

end History

structure Refines (step : σ → ι → σ × List ο) (init : σ → Prop) (step' : τ → κ → τ × List π)
    (init' : τ → Prop) (view : ο → Option π) (R : σ → τ → Prop) : Prop where
  start : ∀ s, init s → ∃ t, init' t ∧ R s t
  answer : ∀ s t i, R s t → ∃ js, R (step s i).1 (History.run step' t js).1 ∧
    (History.run step' t js).2 = (step s i).2.filterMap view

theorem Refines.transfer (h : Refines step init step' init' view R) {log : List (Event σ ι ο)}
    {s : σ} (hist : History step init log s) : ∃ log' t, History step' init' log' t ∧ R s t ∧
      History.transcript log' = (History.transcript log).filterMap view := by
  induction hist with
  | start hs =>
    obtain ⟨t, ht, hR⟩ := h.start _ hs
    exact ⟨[], t, .start ht, hR, rfl⟩
  | next i _ ih =>
    obtain ⟨log', t, hist', hR, htranscript⟩ := ih
    obtain ⟨js, hnext, houtputs⟩ := h.answer _ _ i hR
    refine ⟨_, _, hist'.run_events js, hnext, ?_⟩
    rw [History.transcript_events, History.transcript_cons, List.filterMap_append, htranscript,
      houtputs]

end Collections
