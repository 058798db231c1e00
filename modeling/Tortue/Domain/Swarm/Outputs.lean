import Tortue.Domain.Swarm.Frame

namespace Tortue

open Collections

def Output.plain : Output → Bool
  | .connectPeer _ | .disconnectPeer _ | .cancelUploadRead _ => true
  | .sendToPeer _ (.request _) | .sendToPeer _ (.piece _ _) => false
  | .sendToPeer _ _ => true
  | .writePiece _ _ | .readForUpload _ _ | .broadcast _ | .completed => false

def Plain (outputs : List Output) : Prop := ∀ o ∈ outputs, o.plain = true

theorem plain_nil : Plain [] := by simp [Plain]

theorem plain_append {l m : List Output} (hl : Plain l) (hm : Plain m) : Plain (l ++ m) := by
  intro o ho
  rcases List.mem_append.mp ho with ho | ho
  · exact hl o ho
  · exact hm o ho

theorem plain_cons {o : Output} {l : List Output} (ho : o.plain = true) (hl : Plain l) :
    Plain (o :: l) := by
  intro q hq
  rcases List.mem_cons.mp hq with rfl | hq
  · exact ho
  · exact hl q hq

theorem plain_map {α : Type} {f : α → Output} (h : ∀ a, (f a).plain = true) (l : List α) :
    Plain (l.map f) := by
  intro o ho
  obtain ⟨a, -, rfl⟩ := List.mem_map.mp ho
  exact h a

def requestsOf (outputs : List Output) : List (SocketAddr × BlockRange) :=
  outputs.filterMap fun
    | .sendToPeer x (.request b) => some (x, b)
    | _ => none

theorem mem_requestsOf {outputs : List Output} {x : SocketAddr} {b : BlockRange} :
    (x, b) ∈ requestsOf outputs ↔ .sendToPeer x (.request b) ∈ outputs := by
  unfold requestsOf
  rw [List.mem_filterMap]
  constructor
  · rintro ⟨o, ho, hx⟩
    split at hx
    · simp only [Option.some.injEq, Prod.mk.injEq] at hx
      rw [← hx.1, ← hx.2]
      exact ho
    · contradiction
  · intro h
    exact ⟨_, h, rfl⟩

theorem requestsOf_append (l m : List Output) :
    requestsOf (l ++ m) = requestsOf l ++ requestsOf m :=
  List.filterMap_append

theorem requestsOf_eq_nil {outputs : List Output}
    (h : ∀ o ∈ outputs, ∀ x b, o ≠ .sendToPeer x (.request b)) : requestsOf outputs = [] := by
  refine List.eq_nil_iff_forall_not_mem.mpr fun c hc => ?_
  exact h _ (mem_requestsOf.mp hc) c.1 c.2 rfl

theorem Plain.requestsOf {outputs : List Output} (h : Plain outputs) :
    requestsOf outputs = [] := by
  refine requestsOf_eq_nil fun o ho x b hb => ?_
  have hplain := h o ho
  rw [hb] at hplain
  contradiction

def disconnects (outputs : List Output) : List SocketAddr :=
  outputs.filterMap fun
    | .disconnectPeer x => some x
    | _ => none

theorem mem_disconnects {outputs : List Output} {x : SocketAddr} :
    x ∈ disconnects outputs ↔ .disconnectPeer x ∈ outputs := by
  unfold disconnects
  rw [List.mem_filterMap]
  constructor
  · rintro ⟨o, ho, hx⟩
    cases o <;> simp at hx
    subst hx
    exact ho
  · intro h
    exact ⟨_, h, rfl⟩

theorem disconnects_append (l m : List Output) :
    disconnects (l ++ m) = disconnects l ++ disconnects m :=
  List.filterMap_append

theorem disconnects_eq_nil {outputs : List Output}
    (h : ∀ o ∈ outputs, ∀ x, o ≠ .disconnectPeer x) : disconnects outputs = [] := by
  refine List.eq_nil_iff_forall_not_mem.mpr fun x hx => ?_
  exact h _ (mem_disconnects.mp hx) x rfl

namespace Swarm

variable (sha1 : Sha1) (env : Entropy) (s : Swarm)

theorem onDisconnected_outputs (x : SocketAddr) :
    ∀ o ∈ (s.onDisconnected env x).2, ∃ id, o = .cancelUploadRead id := by
  intro o ho
  simp only [onDisconnected, cancelPeerUploads, List.mem_map] at ho
  obtain ⟨read, -, hread⟩ := ho
  exact ⟨read.id, hread.symm⟩

theorem declareInterest_outputs (x : SocketAddr) :
    ∀ o ∈ s.declareInterest x, o = .sendToPeer x .interested := by
  intro o ho
  simp only [declareInterest, PeerRegistry.declareInterest] at ho
  split at ho
  · next m hm =>
    split_ifs at hm with hin
    rw [List.mem_singleton] at ho
    rw [ho, ← Option.some.inj hm]
  · contradiction

theorem register_outputs (x : SocketAddr) (d : ConnectionDirection) (id : PeerId)
    (e : PeerExtensions) : ∀ o ∈ (s.register x d id e).2,
      o = .sendToPeer x (s.availabilityMessage e) ∨ o = .sendToPeer x .interested := by
  intro o ho
  rcases List.mem_cons.mp ho with rfl | ho
  · exact .inl rfl
  · exact .inr (declareInterest_outputs _ x o ho)

theorem plain_onDisconnected (x : SocketAddr) : Plain (s.onDisconnected env x).2 := by
  intro o ho
  obtain ⟨id, rfl⟩ := onDisconnected_outputs env s x o ho
  rfl

theorem plain_declareInterest (x : SocketAddr) : Plain (s.declareInterest x) := by
  intro o ho
  rw [declareInterest_outputs s x o ho]
  rfl

theorem plain_register (x : SocketAddr) (d : ConnectionDirection) (id : PeerId)
    (e : PeerExtensions) : Plain (s.register x d id e).2 := by
  intro o ho
  rcases register_outputs s x d id e o ho with rfl | rfl
  · unfold availabilityMessage
    split_ifs <;> rfl
  · rfl

theorem plain_onConnected (x : SocketAddr) (d : ConnectionDirection) (id : PeerId)
    (e : PeerExtensions) : Plain (s.onConnected env x d id e).2 := by
  rcases onConnected_cases env s x d id e with ⟨-, hs⟩ | ⟨_, -, -, hs⟩ | ⟨old, -, -, hs⟩ <;> rw [hs]
  · exact plain_register s x d id e
  · exact plain_cons rfl plain_nil
  · refine plain_append (plain_onDisconnected env s old.1) (plain_cons rfl ?_)
    exact plain_register _ x d id e

theorem plain_onDiscovered (addrs : List SocketAddr) : Plain (s.onDiscovered addrs) := by
  unfold onDiscovered
  split
  · exact plain_nil
  · exact plain_map (fun _ => rfl) _

theorem plain_onSwarmCommand (cmd : SwarmCommand) : Plain (s.onSwarmCommand env cmd).2 := by
  obtain ⟨_, _, _, -, hs⟩ := onSwarmCommand_cases env s cmd
  simp only [hs]
  exact plain_map (fun _ => rfl) _

theorem plain_pexOutputs : Plain (s.pexOutputs env) := by
  intro o ho
  simp only [pexOutputs, List.mem_filterMap, Option.map_eq_some_iff] at ho
  obtain ⟨x, -, extId, -, rfl⟩ := ho
  rfl

theorem onExtensionMessage_outputs (x : SocketAddr) (extId : UInt8) (payload : Bytes) :
    ∀ o ∈ s.onExtensionMessage env x extId payload,
      (∃ y, o = .connectPeer y) ∨ ∃ k reply, o = .sendToPeer x (.extension k reply) := by
  intro o ho
  unfold onExtensionMessage at ho
  split at ho
  · split at ho
    · split at ho
      · contradiction
      · exact .inr ⟨_, _, List.mem_singleton.mp ho⟩
    · contradiction
  · split at ho
    · split at ho
      · unfold onDiscovered at ho
        split at ho
        · contradiction
        · obtain ⟨y, -, rfl⟩ := List.mem_map.mp ho
          exact .inl ⟨y, rfl⟩
      · contradiction
    · contradiction

theorem plain_onExtensionMessage (x : SocketAddr) (extId : UInt8) (payload : Bytes) :
    Plain (s.onExtensionMessage env x extId payload) := by
  intro o ho
  rcases onExtensionMessage_outputs env s x extId payload o ho with ⟨y, rfl⟩ | ⟨k, reply, rfl⟩ <;>
    rfl

theorem cancelUpload_cases (x : SocketAddr) (range : BlockRange) :
    (s.cancelUpload x range).2 = [] ∨
    ∃ id, (s.cancelUpload x range).2 = [.cancelUploadRead id] := by
  simp only [cancelUpload]
  split
  · exact .inl rfl
  · split
    · exact .inl rfl
    · exact .inr ⟨_, rfl⟩

theorem plain_handleMessage (x : SocketAddr) (m : Message)
    (hp : ∀ range data, m ≠ .piece range data) (hr : ∀ range, m ≠ .request range) :
    Plain (s.handleMessage sha1 env x m).2 := by
  cases m with
  | piece range data => exact absurd rfl (hp range data)
  | request range => exact absurd rfl (hr range)
  | bitfield _ => exact plain_declareInterest s x
  | havePiece _ => exact plain_declareInterest s x
  | haveAll => exact plain_declareInterest s x
  | suggestPiece _ => exact plain_declareInterest s x
  | allowedFast _ => exact plain_declareInterest s x
  | interested => exact plain_cons rfl plain_nil
  | extension extId payload => exact plain_onExtensionMessage env s x extId payload
  | cancel range =>
    simp only [handleMessage]
    rcases cancelUpload_cases s x range with h | ⟨_, h⟩ <;> rw [h]
    · exact plain_nil
    · exact plain_cons rfl plain_nil
  | _ => exact plain_nil

theorem onMessageRequest_cases (x : SocketAddr) (range : BlockRange) :
    (s.onMessageRequest x range).2 = [] ∨
    (s.status.upload = true ∧ s.pieces.validUploadRange range = true ∧
      s.pendingReads.get range = none ∧
      (s.onMessageRequest x range).2 = [.readForUpload ⟨s.nextUploadReadId⟩ range]) := by
  unfold onMessageRequest
  split_ifs with hup hvalid hfull
  · exact .inl rfl
  · exact .inl rfl
  · exact .inl rfl
  · split
    · exact .inl rfl
    · next hget =>
      simp only [Bool.not_eq_true, Bool.not_eq_false'] at hup hvalid
      exact .inr ⟨hup, hvalid, hget, rfl⟩

theorem completionOutputs_eq : s.completionOutputs env = [] ∨
    (s.pieces.isComplete = true ∧ ∃ l : List SocketAddr, s.completionOutputs env =
      .completed :: l.map .disconnectPeer) := by
  unfold completionOutputs
  split
  · next h => exact .inr ⟨h, _, rfl⟩
  · exact .inl rfl

theorem onMessagePiece_cases (x : SocketAddr) (range : BlockRange) (data : Bytes) :
    (s.blockAssignments.isHolder range x = false ∧
      s.onMessagePiece sha1 env x range data = (s, [])) ∨
    (s.blockAssignments.isHolder range x = true ∧
      (s.onMessagePiece sha1 env x range data).1.pieces =
        (s.pieces.receiveBlock sha1 range data).2 ∧
      ((∀ piece, (s.pieces.receiveBlock sha1 range data).1 ≠ .ok (some piece)) ∧
        (s.onMessagePiece sha1 env x range data).2 = [] ∨
      ∃ piece, (s.pieces.receiveBlock sha1 range data).1 = .ok (some piece) ∧
        (s.onMessagePiece sha1 env x range data).2 =
          .broadcast (.havePiece piece.range.pieceIndex) :: .writePiece piece.range piece.data ::
            (s.onMessagePiece sha1 env x range data).1.completionOutputs env)) := by
  unfold onMessagePiece
  cases hheld : s.blockAssignments.isHolder range x with
  | false => exact .inl ⟨rfl, rfl⟩
  | true =>
    refine .inr ⟨rfl, ?_⟩
    simp only [Bool.not_true, Bool.false_eq_true, if_false]
    cases hresult : (s.pieces.receiveBlock sha1 range data).1 with
    | error e => exact ⟨rfl, .inl ⟨fun piece h => by contradiction, rfl⟩⟩
    | ok completed =>
      cases completed with
      | none => exact ⟨rfl, .inl ⟨fun piece h => by simp at h, rfl⟩⟩
      | some piece => exact ⟨rfl, .inr ⟨piece, rfl, rfl⟩⟩

theorem requestsOf_handleMessage (x : SocketAddr) (m : Message) :
    requestsOf (s.handleMessage sha1 env x m).2 = [] := by
  by_cases hp : ∃ range data, m = .piece range data
  · obtain ⟨range, data, rfl⟩ := hp
    simp only [handleMessage]
    rcases onMessagePiece_cases sha1 env s x range data with
      ⟨-, hs⟩ | ⟨-, -, ⟨-, hs⟩ | ⟨piece, -, hs⟩⟩
    · rw [hs]
      rfl
    · rw [hs]
      rfl
    · rw [hs]
      refine requestsOf_eq_nil fun o ho y b hb => ?_
      subst hb
      simp only [List.mem_cons, reduceCtorEq, false_or] at ho
      rcases completionOutputs_eq env (s.onMessagePiece sha1 env x range data).1 with
        hnil | ⟨-, l, hl⟩
      · rw [hnil] at ho
        contradiction
      · simp [hl] at ho
  · by_cases hr : ∃ range, m = .request range
    · obtain ⟨range, rfl⟩ := hr
      simp only [handleMessage]
      rcases onMessageRequest_cases s x range with hs | ⟨-, -, -, hs⟩ <;> rw [hs] <;> rfl
    · refine (plain_handleMessage sha1 env s x m (fun range data h => ?_)
        fun range h => ?_).requestsOf
      · exact hp ⟨range, data, h⟩
      · exact hr ⟨range, h⟩

end Swarm

end Tortue
