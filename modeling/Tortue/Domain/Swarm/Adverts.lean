import Tortue.Domain.Swarm.Uploads

namespace Tortue

open Collections

def Message.advertises : Message → Bool
  | .bitfield _ | .haveAll | .haveNone | .havePiece _ => true
  | _ => false

def Output.advertises : Output → Bool
  | .sendToPeer _ m => m.advertises
  | _ => false

def Quiet (outputs : List Output) : Prop := ∀ o ∈ outputs, o.advertises = false

theorem quiet_nil : Quiet [] := by simp [Quiet]

theorem quiet_append {l m : List Output} (hl : Quiet l) (hm : Quiet m) : Quiet (l ++ m) := by
  intro o ho
  rcases List.mem_append.mp ho with ho | ho
  · exact hl o ho
  · exact hm o ho

theorem quiet_cons {o : Output} {l : List Output} (ho : o.advertises = false) (hl : Quiet l) :
    Quiet (o :: l) := by
  intro q hq
  rcases List.mem_cons.mp hq with rfl | hq
  · exact ho
  · exact hl q hq

theorem quiet_map {α : Type} {f : α → Output} (h : ∀ a, (f a).advertises = false) (l : List α) :
    Quiet (l.map f) := by
  intro o ho
  obtain ⟨a, -, rfl⟩ := List.mem_map.mp ho
  exact h a

namespace PeerRegistry

variable {r : PeerRegistry} {x y : SocketAddr}

theorem contains_connected {id : PeerId} {d : ConnectionDirection} {e : PeerExtensions}
    (h : (r.connected x id d e).containsAddr y = true) : y = x ∨ r.containsAddr y = true := by
  unfold containsAddr HashMap.contains at *
  simp only [connected, HashMap.get_insert] at h
  split_ifs at h with hyx
  · exact .inl hyx
  · exact .inr h

theorem contains_disconnected (h : (r.disconnected x).containsAddr y = true) :
    y ≠ x ∧ r.containsAddr y = true := by
  unfold containsAddr HashMap.contains at *
  rw [disconnected_peers, HashMap.get_remove] at h
  by_cases hyx : y = x
  · rw [if_pos hyx] at h
    contradiction
  · rw [if_neg hyx] at h
    exact ⟨hyx, h⟩

end PeerRegistry

namespace Swarm

open PeerRegistry

variable {sha1 : Sha1} {env : Entropy} {s : Swarm}

theorem quiet_plan (env : Entropy) (s : Swarm) : Quiet (s.plan env).2 := by
  intro o ho
  obtain ⟨y, rfl | ⟨b, rfl⟩⟩ := (plan_granted env s).messages o ho <;> rfl

theorem quiet_declareInterest (s : Swarm) (x : SocketAddr) : Quiet (s.declareInterest x) := by
  intro o ho
  rw [declareInterest_outputs s x o ho]
  rfl

theorem quiet_onDisconnected (env : Entropy) (s : Swarm) (x : SocketAddr) :
    Quiet (s.onDisconnected env x).2 := by
  intro o ho
  obtain ⟨id, rfl⟩ := onDisconnected_outputs env s x o ho
  rfl

theorem quiet_onDiscovered (s : Swarm) (addrs : List SocketAddr) :
    Quiet (s.onDiscovered addrs) := by
  unfold onDiscovered
  split
  · exact quiet_nil
  · exact quiet_map (fun _ => rfl) _

theorem quiet_onMessagePiece (sha1 : Sha1) (env : Entropy) (s : Swarm) (x : SocketAddr)
    (range : BlockRange) (data : Bytes) : Quiet (s.onMessagePiece sha1 env x range data).2 := by
  rcases onMessagePiece_cases sha1 env s x range data with ⟨-, hs⟩ |
    ⟨-, -, ⟨-, hs⟩ | ⟨c, -, hs⟩⟩ <;>
    rw [hs]
  · exact quiet_nil
  · exact quiet_nil
  · refine quiet_cons rfl (quiet_cons rfl ?_)
    rcases completionOutputs_eq env (s.onMessagePiece sha1 env x range data).1 with h | ⟨-, l, h⟩
    · rw [h]
      exact quiet_nil
    · rw [h]
      exact quiet_cons rfl (quiet_map (fun _ => rfl) l)

theorem quiet_onExtensionMessage (env : Entropy) (s : Swarm) (x : SocketAddr) (extId : UInt8)
    (payload : Bytes) : Quiet (s.onExtensionMessage env x extId payload) := by
  intro o ho
  rcases onExtensionMessage_outputs env s x extId payload o ho with ⟨y, rfl⟩ | ⟨k, reply, rfl⟩ <;>
    rfl

theorem quiet_handleMessage (sha1 : Sha1) (env : Entropy) (s : Swarm) (x : SocketAddr)
    (m : Message) : Quiet (s.handleMessage sha1 env x m).2 := by
  cases m with
  | piece range data => exact quiet_onMessagePiece sha1 env s x range data
  | request range =>
    simp only [handleMessage]
    rcases onMessageRequest_cases s x range with h | ⟨-, -, -, h⟩ <;> rw [h]
    · exact quiet_nil
    · exact quiet_cons rfl quiet_nil
  | cancel range =>
    simp only [handleMessage]
    rcases cancelUpload_cases s x range with h | ⟨_, h⟩ <;> rw [h]
    · exact quiet_nil
    · exact quiet_cons rfl quiet_nil
  | bitfield _ => exact quiet_declareInterest s x
  | havePiece _ => exact quiet_declareInterest s x
  | haveAll => exact quiet_declareInterest s x
  | suggestPiece _ => exact quiet_declareInterest s x
  | allowedFast _ => exact quiet_declareInterest s x
  | interested => exact quiet_cons rfl quiet_nil
  | extension extId payload => exact quiet_onExtensionMessage env s x extId payload
  | _ => exact quiet_nil

theorem quiet_onMessage (sha1 : Sha1) (env : Entropy) (s : Swarm) (x : SocketAddr) (m : Message) :
    Quiet (s.onMessage sha1 env x m).2 := by
  rcases onMessage_cases sha1 env s x m with ⟨_, -, -, ho⟩ | ⟨r, -, -, hs⟩ | ⟨r, -, -, hs⟩
  · intro o hin
    rw [ho o hin]
    rfl
  · rw [hs]
    exact quiet_handleMessage sha1 env _ x m
  · rw [hs]
    exact quiet_append (quiet_handleMessage sha1 env _ x m) (quiet_plan env _)

def Accepts (s : Swarm) (x : SocketAddr) (e : PeerExtensions) (i : Input) : Prop :=
  ∃ id d, i = .peerConnected id d x e ∧ ¬ s.Refused d id

theorem not_refused_of_none {d : ConnectionDirection} {id : PeerId}
    (hb : s.peerRegistry.byId.get id = none) : ¬ s.Refused d id := by
  rintro ⟨old, hold, -⟩
  rw [PeerRegistry.connectionFor, hb] at hold
  contradiction

theorem step_contains {i : Input × Entropy} {y : SocketAddr}
    (h : (step sha1 s i).1.peerRegistry.containsAddr y = true) :
    (∃ e, s.Accepts y e i.1) ∨
      s.peerRegistry.containsAddr y = true ∧ i.1 ≠ .peerDisconnected y := by
  obtain ⟨input, env⟩ := i
  by_cases hgone : ∃ x, input = .peerDisconnected x
  · obtain ⟨x, rfl⟩ := hgone
    obtain ⟨hyx, hold⟩ := contains_disconnected h
    exact .inr ⟨hold, by simp [Ne.symm hyx]⟩
  · have hstays : input ≠ .peerDisconnected y := fun hi => hgone ⟨y, hi⟩
    rcases step_peerRegistry sha1 s (input, env) with hs | ⟨x, m, -, ha⟩ | ⟨x, hi, -⟩ |
      ⟨id, d, x, e, hi, hs⟩
    · exact .inr ⟨hs ▸ h, hstays⟩
    · exact .inr ⟨(apply_contains ha y).symm.trans h, hstays⟩
    · exact absurd ⟨x, hi⟩ hgone
    · rw [hs] at h
      have hnew : y = x → ¬ s.Refused d id → ∃ e, s.Accepts y e input := by
        rintro rfl haccept
        exact ⟨e, id, d, hi, haccept⟩
      rcases onConnected_cases env s x d id e with ⟨hb, ho⟩ | ⟨_, -, -, ho⟩ | ⟨old, hb, hd, ho⟩
      · rw [ho] at h
        rcases contains_connected h with hyx | hold
        · exact .inl (hnew hyx (not_refused_of_none hb))
        · exact .inr ⟨hold, hstays⟩
      · rw [ho] at h
        exact .inr ⟨h, hstays⟩
      · rw [ho] at h
        rcases contains_connected h with hyx | hold
        · exact .inl (hnew hyx (not_refused s hb hd))
        · exact .inr ⟨(contains_disconnected hold).2, hstays⟩

theorem register_adverts (s : Swarm) (x : SocketAddr) (d : ConnectionDirection) (id : PeerId)
    (e : PeerExtensions) : ∃ rest, (s.register x d id e).2 =
      .sendToPeer x (s.availabilityMessage e) :: rest ∧ Quiet rest :=
  ⟨_, rfl, quiet_declareInterest _ x⟩

theorem accepts_step (sha1 : Sha1) {x : SocketAddr} {e : PeerExtensions} {i : Input × Entropy}
    (h : s.Accepts x e i.1) :
    ∃ cancelled rest, (step sha1 s i).2 =
        cancelled ++ .sendToPeer x (s.availabilityMessage e) :: rest ∧
      Quiet cancelled ∧ Quiet rest ∧ (step sha1 s i).1.pieces = s.pieces := by
  obtain ⟨input, env⟩ := i
  obtain ⟨id, d, rfl, haccept⟩ := h
  simp only [step]
  rcases onConnected_cases env s x d id e with ⟨-, hs⟩ | ⟨old, hb, hd, -⟩ | ⟨old, -, -, hs⟩
  · rw [hs]
    obtain ⟨rest, hout, hrest⟩ := register_adverts s x d id e
    exact ⟨[], rest, hout, quiet_nil, hrest, rfl⟩
  · exact absurd ⟨old, hb, hd⟩ haccept
  · rw [hs]
    obtain ⟨rest, hout, hrest⟩ := register_adverts (s.onDisconnected env old.1).1 x d id e
    refine ⟨(s.onDisconnected env old.1).2 ++ [.disconnectPeer old.1], rest, ?_, ?_, hrest, rfl⟩
    · rw [hout, List.append_assoc]
      rfl
    · exact quiet_append (quiet_onDisconnected env s old.1) (quiet_cons rfl quiet_nil)

theorem accepts_outputs {x : SocketAddr} {e : PeerExtensions} {i : Input × Entropy}
    (h : s.Accepts x e i.1) : ∀ o ∈ (step sha1 s i).2,
      o = .sendToPeer x (s.availabilityMessage e) ∨ o = .sendToPeer x .interested ∨
        (∃ y, o = .disconnectPeer y) ∨ ∃ id, o = .cancelUploadRead id := by
  obtain ⟨input, env⟩ := i
  obtain ⟨id, d, rfl, haccept⟩ := h
  intro o ho
  simp only [step] at ho
  rcases onConnected_cases env s x d id e with ⟨-, hs⟩ | ⟨old, hb, hd, -⟩ | ⟨old, -, -, hs⟩
  · rw [hs] at ho
    exact (register_outputs s x d id e o ho).imp_right .inl
  · exact absurd ⟨old, hb, hd⟩ haccept
  · rw [hs] at ho
    rcases List.mem_append.mp ho with ho | ho
    · exact .inr (.inr (.inr (onDisconnected_outputs env s old.1 o ho)))
    · rcases List.mem_cons.mp ho with rfl | ho
      · exact .inr (.inr (.inl ⟨old.1, rfl⟩))
      · exact (register_outputs (s.onDisconnected env old.1).1 x d id e o ho).imp_right .inl

theorem quiet_step {i : Input × Entropy} (h : ∀ x e, ¬ s.Accepts x e i.1) :
    Quiet (step sha1 s i).2 := by
  obtain ⟨input, env⟩ := i
  cases input with
  | peersDiscovered addrs => exact quiet_onDiscovered s addrs
  | peerConnected id d x e =>
    simp only [step]
    rcases onConnected_cases env s x d id e with ⟨hb, -⟩ | ⟨old, -, -, hs⟩ | ⟨old, hb, hd, -⟩
    · exact absurd ⟨id, d, rfl, not_refused_of_none hb⟩ (h x e)
    · rw [hs]
      exact quiet_cons rfl quiet_nil
    · exact absurd ⟨id, d, rfl, not_refused s hb hd⟩ (h x e)
  | peerDisconnected x => exact quiet_onDisconnected env s x
  | messageReceived x m => exact quiet_onMessage sha1 env s x m
  | localPiece i data => exact quiet_nil
  | uploadReadCompleted id range data =>
    rcases onUploadReadCompleted_cases env s id range data with hs | ⟨_, _, hs⟩ <;>
      simp only [step, hs]
    · exact quiet_nil
    · exact quiet_map (fun _ => rfl) _
  | swarmCommand cmd =>
    obtain ⟨_, _, _, -, hs⟩ := onSwarmCommand_cases env s cmd
    simp only [step, hs]
    exact quiet_map (fun _ => rfl) _
  | tick t =>
    cases t with
    | block => exact quiet_plan env s
    | pex =>
      intro o ho
      simp only [step, onTick, pexOutputs, List.mem_filterMap, Option.map_eq_some_iff] at ho
      obtain ⟨x, -, extId, -, rfl⟩ := ho
      rfl

theorem filter_quiet {outputs : List Output} (h : Quiet outputs) :
    outputs.filter Output.advertises = [] :=
  List.filter_eq_nil_iff.mpr fun o ho => by simp [h o ho]

theorem availability_advertises (s : Swarm) (x : SocketAddr) (e : PeerExtensions) :
    Output.advertises (.sendToPeer x (s.availabilityMessage e)) = true := by
  simp only [Output.advertises, availabilityMessage]
  split_ifs <;> rfl

theorem accepts_adverts {x : SocketAddr} {e : PeerExtensions} {i : Input × Entropy}
    (h : s.Accepts x e i.1) : (step sha1 s i).2.filter Output.advertises =
      [.sendToPeer x (s.availabilityMessage e)] := by
  obtain ⟨cancelled, rest, hout, hcancelled, hrest, -⟩ := accepts_step sha1 h
  rw [hout, List.filter_append, filter_quiet hcancelled, List.filter_cons,
    if_pos (availability_advertises s x e), filter_quiet hrest]
  rfl

theorem advert_step {i : Input × Entropy} {o : Output} (ho : o ∈ (step sha1 s i).2)
    (hadvert : o.advertises = true) :
    ∃ x e, s.Accepts x e i.1 ∧ o = .sendToPeer x (s.availabilityMessage e) := by
  by_cases haccept : ∃ x e, s.Accepts x e i.1
  · obtain ⟨x, e, haccept⟩ := haccept
    have hin := List.mem_filter.mpr ⟨ho, hadvert⟩
    rw [accepts_adverts haccept, List.mem_singleton] at hin
    exact ⟨x, e, haccept, hin⟩
  · have hquiet : Quiet (step sha1 s i).2 := quiet_step fun x e h => haccept ⟨x, e, h⟩
    rw [hquiet o ho] at hadvert
    contradiction

end Swarm

end Tortue
