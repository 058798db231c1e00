import Tortue.Adapters.Greetings
import Tortue.Properties.Integrity

namespace Tortue

open Collections

namespace SwarmIo

variable {sha1 : Sha1} {clientId : PeerId} {metainfo : Metainfo} {io : SwarmIo} {log : Log}
  {k : Nat}

def recipients (io : SwarmIo) : Move → List SocketAddr
  | .handle accepts =>
    match io.phase, io.outputs with
    | .handling, .broadcast _ :: _ => io.peerCmds.keys.filter accepts
    | _, _ => []
  | _ => []

def ReachesRegistered (io : SwarmIo) (move : Move) : Prop :=
  ∀ x ∈ io.recipients move, io.swarm.peerRegistry.containsAddr x = true

instance (io : SwarmIo) (move : Move) : Decidable (io.ReachesRegistered move) :=
  inferInstanceAs (Decidable (∀ x ∈ _, _))

theorem have_after_greeting {i : Move × Entropy} {io' : SwarmIo} {effects : List Effect}
    (h : Orderly log io) (ht : Turn sha1 io i io' effects) (hreach : io.ReachesRegistered i.1)
    {x : SocketAddr} {j : Nat} (hsent : .sent k x (.havePiece j) ∈ effects) : Greeted k log := by
  cases ht with
  | send y m k' hout _ _ hone =>
    rw [hone, List.mem_singleton, Effect.sent.injEq] at hsent
    obtain ⟨rfl, rfl, rfl⟩ := hsent
    exact absurd (hout ▸ List.mem_cons_self ..) (h.targeted x j)
  | broadcast accepts m rest failed hmove hphase hout _ _ honly =>
    obtain ⟨-, hget, haccepts⟩ := honly k x _ hsent
    have hin : x ∈ io.recipients i.1 := by
      rw [hmove]
      simp only [recipients, hphase, hout]
      refine List.mem_filter.mpr ⟨HashMap.mem_keys_iff.mpr ?_, haccepts⟩
      exact HashMap.contains_iff.mpr ⟨k, hget⟩
    obtain ⟨k', hget', hgreeted⟩ := met_before h hout rfl (hreach x hin)
    rw [hget, Option.some.injEq] at hget'
    exact hget' ▸ hgreeted
  | rest _ _ hsilent => exact absurd hsent (hsilent k x _)
  | input _ _ _ _ _ hsilent => exact absurd hsent (hsilent k x _)
  | spawn _ _ _ _ _ _ hsilent => exact absurd hsent (hsilent k x _)
  | pass _ _ _ _ _ hsilent => exact absurd hsent (hsilent k x _)
  | disconnect _ _ _ _ _ _ hsilent => exact absurd hsent (hsilent k x _)
  | refuse _ _ _ _ _ _ hsilent => exact absurd hsent (hsilent k x _)

theorem greeting_first (hist : History (step sha1) (Started sha1 clientId metainfo) log io)
    (hreach : ∀ e ∈ log, e.before.ReachesRegistered e.input.1) : GreetsFirst log := by
  induction hist with
  | start _ => exact greetsFirst_nil
  | next i hist ih =>
    have hnow := hreach _ (List.mem_cons_self ..)
    refine greetsFirst_cons (ih fun e he => hreach e (List.mem_cons_of_mem _ he))
      fun k x j hsent => ?_
    exact have_after_greeting (history_orderly hist) (turn_step _ _ i) hnow hsent

end SwarmIo

namespace Sample

def delivering : List SwarmIo.Move :=
  sessionEvent 0 (.receive (.piece ⟨0, 0, 5⟩ fileContent)) ++
    [.runWorker none, .runWorker none] ++ handled

def dialing : List SwarmIo.Move :=
  [.peers (some [addr 80])] ++ handled ++
    sessionEvent 0 (.connect (peerId 2) extensions) ++ sessionEvent 0 (.receive (.havePiece 0)) ++
    sessionEvent 0 (.receive .unchoke) ++ [.peers (some [addr 81])] ++ handled

def greetedInTime : List SwarmIo.Move :=
  dialing ++ sessionEvent 1 (.connect (peerId 3) extensions) ++ delivering

def overtakenGreeting : List SwarmIo.Move :=
  dialing ++ delivering ++ sessionEvent 1 (.connect (peerId 3) extensions)

end Sample

namespace SwarmIo

theorem have_after_greeting_in_time : ∃ io log,
    History (step Sample.contentSha1) (Started Sample.contentSha1 (Sample.peerId 1) Sample.torrent)
      log io ∧ .havePiece 0 ∈ messagesOn 1 log ∧ GreetsFirst log := by
  have hrun : (Sample.opened.any fun io =>
      decide (.havePiece 0 ∈ messagesOn 1 (History.events (step Sample.contentSha1) io
        (Sample.drawn Sample.greetedInTime))) &&
      (History.events (step Sample.contentSha1) io (Sample.drawn Sample.greetedInTime)).all fun e =>
        decide (e.before.ReachesRegistered e.input.1)) = true := by decide +kernel
  obtain ⟨io, hcheck, hist⟩ := Sample.opened_history hrun
  rw [Bool.and_eq_true] at hcheck
  obtain ⟨hhave, hreach⟩ := hcheck
  refine ⟨_, _, hist Sample.greetedInTime, of_decide_eq_true hhave, ?_⟩
  exact greeting_first (hist Sample.greetedInTime) fun e he =>
    of_decide_eq_true (List.all_eq_true.mp hreach e he)

theorem have_overtakes_greeting :
    ¬ ∀ sha1 clientId metainfo log io,
      History (step sha1) (Started sha1 clientId metainfo) log io → GreetsFirst log := by
  intro hall
  have hrun : (Sample.opened.any fun io => decide (messagesOn 1 (History.events
      (step Sample.contentSha1) io (Sample.drawn Sample.overtakenGreeting)) =
        [] ++ .havePiece 0 :: [.haveAll, .interested])) = true := by decide +kernel
  obtain ⟨io, hcheck, hist⟩ := Sample.opened_history hrun
  obtain ⟨m, hm, -⟩ := hall _ _ _ _ _ (hist Sample.overtakenGreeting) 1 [] 0 _
    (of_decide_eq_true hcheck)
  exact absurd hm List.not_mem_nil

end SwarmIo

end Tortue
