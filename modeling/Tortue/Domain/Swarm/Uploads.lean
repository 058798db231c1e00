import Tortue.Domain.Swarm.Planning

namespace Tortue

open Collections

def Output.uploads : Output → Bool
  | .readForUpload _ _ | .sendToPeer _ (.piece _ _) => true
  | _ => false

def Output.serves : Output → Bool
  | .readForUpload _ _ | .cancelUploadRead _ | .sendToPeer _ (.piece _ _) => true
  | _ => false

theorem Output.serves_of_uploads {o : Output} (h : o.uploads = true) : o.serves = true := by
  cases o with
  | sendToPeer x m => cases m <;> first | rfl | contradiction
  | _ => first | rfl | contradiction

theorem Output.uploads_of_not_serves {o : Output} (h : o.serves = false) : o.uploads = false := by
  rw [Bool.eq_false_iff] at *
  exact fun hup => h (serves_of_uploads hup)

theorem Plain.no_uploads {outputs : List Output} (h : Plain outputs) :
    ∀ o ∈ outputs, o.uploads = false := by
  intro o ho
  have hplain := h o ho
  cases o with
  | sendToPeer x m => cases m <;> first | rfl | contradiction
  | _ => first | rfl | contradiction

namespace Swarm

variable {sha1 : Sha1} {env : Entropy} {s : Swarm}

theorem plan_serves (env : Entropy) (s : Swarm) : ∀ o ∈ (s.plan env).2, o.serves = false := by
  intro o ho
  obtain ⟨y, rfl | ⟨b, rfl⟩⟩ := (plan_granted env s).messages o ho <;> rfl

theorem completionOutputs_serves (env : Entropy) (s : Swarm) :
    ∀ o ∈ s.completionOutputs env, o.serves = false := by
  intro o ho
  rcases completionOutputs_eq env s with hnil | ⟨-, l, hl⟩
  · rw [hnil] at ho
    contradiction
  · rw [hl] at ho
    rcases List.mem_cons.mp ho with rfl | ho
    · rfl
    · obtain ⟨y, -, rfl⟩ := List.mem_map.mp ho
      rfl

theorem onMessagePiece_serves (x : SocketAddr) (range : BlockRange) (data : Bytes) :
    ∀ o ∈ (s.onMessagePiece sha1 env x range data).2, o.serves = false := by
  intro o ho
  rcases onMessagePiece_cases sha1 env s x range data with ⟨-, hs⟩ | ⟨-, -, ⟨-, hs⟩ | ⟨c, -, hs⟩⟩
  · rw [hs] at ho
    contradiction
  · rw [hs] at ho
    contradiction
  · rw [hs] at ho
    rcases List.mem_cons.mp ho with rfl | ho
    · rfl
    · rcases List.mem_cons.mp ho with rfl | ho
      · rfl
      · exact completionOutputs_serves env _ o ho

theorem plan_no_uploads (env : Entropy) (s : Swarm) :
    ∀ o ∈ (s.plan env).2, o.uploads = false :=
  fun o ho => Output.uploads_of_not_serves (plan_serves env s o ho)

theorem onMessagePiece_no_uploads (x : SocketAddr) (range : BlockRange) (data : Bytes) :
    ∀ o ∈ (s.onMessagePiece sha1 env x range data).2, o.uploads = false :=
  fun o ho => Output.uploads_of_not_serves (onMessagePiece_serves x range data o ho)

theorem handleMessage_uploads (x : SocketAddr) (m : Message) {o : Output}
    (ho : o ∈ (s.handleMessage sha1 env x m).2) (hup : o.uploads = true) :
    ∃ id range, m = .request range ∧ o = .readForUpload id range ∧
      s.pieces.validUploadRange range = true := by
  by_cases hp : ∃ range data, m = .piece range data
  · obtain ⟨range, data, rfl⟩ := hp
    rw [onMessagePiece_no_uploads x range data o ho] at hup
    contradiction
  · by_cases hr : ∃ range, m = .request range
    · obtain ⟨range, rfl⟩ := hr
      simp only [handleMessage] at ho
      rcases onMessageRequest_cases s x range with hs | ⟨-, hvalid, -, hs⟩
      · rw [hs] at ho
        contradiction
      · rw [hs, List.mem_singleton] at ho
        exact ⟨_, range, rfl, ho, hvalid⟩
    · have hplain := plain_handleMessage sha1 env s x m (fun range data h => hp ⟨range, data, h⟩)
        fun range h => hr ⟨range, h⟩
      rw [hplain.no_uploads o ho] at hup
      contradiction

theorem step_uploads (sha1 : Sha1) (s : Swarm) (i : Input × Entropy) {o : Output}
    (ho : o ∈ (step sha1 s i).2) (hup : o.uploads = true) :
    (∃ x id range, i.1 = .messageReceived x (.request range) ∧ o = .readForUpload id range ∧
      s.pieces.validUploadRange range = true) ∨
    ∃ x id range data, i.1 = .uploadReadCompleted id range data ∧
      o = .sendToPeer x (.piece range data) := by
  obtain ⟨input, env⟩ := i
  have hnone : ∀ {outputs : List Output}, Plain outputs → o ∈ outputs → False := by
    intro outputs hplain hin
    rw [hplain.no_uploads o hin] at hup
    contradiction
  cases input with
  | messageReceived x m =>
    left
    have hhandled : ∀ r, o ∈ (handleMessage sha1 env { s with peerRegistry := r } x m).2 →
        ∃ x' id range, Input.messageReceived x m = .messageReceived x' (.request range) ∧
          o = .readForUpload id range ∧ s.pieces.validUploadRange range = true := by
      intro r hin
      obtain ⟨id, range, rfl, hread, hvalid⟩ := handleMessage_uploads x m hin hup
      exact ⟨x, id, range, rfl, hread, hvalid⟩
    simp only [step] at ho
    rcases onMessage_cases sha1 env s x m with ⟨_, -, -, hout⟩ | ⟨r, -, -, hs⟩ | ⟨r, -, -, hs⟩
    · rw [hout o ho] at hup
      contradiction
    · rw [hs] at ho
      exact hhandled r ho
    · rw [hs] at ho
      rcases List.mem_append.mp ho with ho | ho
      · exact hhandled r ho
      · rw [plan_no_uploads env _ o ho] at hup
        contradiction
  | uploadReadCompleted id range data =>
    right
    rcases onUploadReadCompleted_cases env s id range data with hs | ⟨_, _, hs⟩ <;>
      simp only [step, hs] at ho
    · contradiction
    · obtain ⟨y, -, rfl⟩ := List.mem_map.mp ho
      exact ⟨y, id, range, data, rfl, rfl⟩
  | peersDiscovered addrs => exact (hnone (plain_onDiscovered s addrs) ho).elim
  | peerConnected id d x e => exact (hnone (plain_onConnected env s x d id e) ho).elim
  | peerDisconnected x => exact (hnone (plain_onDisconnected env s x) ho).elim
  | localPiece i data => contradiction
  | swarmCommand cmd => exact (hnone (plain_onSwarmCommand env s cmd) ho).elim
  | tick t =>
    cases t with
    | block =>
      rw [plan_no_uploads env s o ho] at hup
      contradiction
    | pex => exact (hnone (plain_pexOutputs env s) ho).elim

end Swarm

end Tortue
