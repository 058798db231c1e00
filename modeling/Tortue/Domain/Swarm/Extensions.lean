import Tortue.Domain.Swarm.Uploads

namespace Tortue

open Collections

namespace Swarm

variable {sha1 : Sha1} {env : Entropy} {s : Swarm} {x : SocketAddr} {k : UInt8} {payload : Bytes}

def IsClassified (s : Swarm) (x : SocketAddr) : Prop :=
  s.peerRegistry.leechers.contains x = true ∨ s.peerRegistry.seeders.contains x = true

def AsksMetadata (x : SocketAddr) : Input → Prop
  | .messageReceived y (.extension extId payload) => x = y ∧ extId = utMetadataExtId ∧
      ∃ piece, UtMetadataMessage.decode payload = .ok (.request piece)
  | _ => False

def Addresses (s : Swarm) (x : SocketAddr) (k : UInt8) (i : Input) : Prop :=
  (i = .tick .pex ∧ s.IsClassified x ∧ s.peerRegistry.peerExtensionId x "ut_pex" = some k) ∨
    (AsksMetadata x i ∧ s.peerRegistry.peerExtensionId x "ut_metadata" = some k)

def SendsExtension (x : SocketAddr) (k : UInt8) (outputs : List Output) : Prop :=
  ∃ payload, .sendToPeer x (.extension k payload) ∈ outputs

theorem not_sendsExtension_nil : ¬ SendsExtension x k [] := by simp [SendsExtension]

theorem not_sendsExtension_map {α : Type} {f : α → Output}
    (h : ∀ a payload, .sendToPeer x (.extension k payload) ≠ f a) (l : List α) :
    ¬ SendsExtension x k (l.map f) := by
  rintro ⟨payload, ho⟩
  obtain ⟨a, -, ha⟩ := List.mem_map.mp ho
  exact h a payload ha.symm

theorem not_sendsExtension_declareInterest (y : SocketAddr) :
    ¬ SendsExtension x k (s.declareInterest y) := by
  rintro ⟨payload, ho⟩
  have hinterested := declareInterest_outputs s y _ ho
  simp at hinterested

theorem not_sendsExtension_register (y : SocketAddr) (d : ConnectionDirection) (id : PeerId)
    (e : PeerExtensions) : ¬ SendsExtension x k (s.register y d id e).2 := by
  rintro ⟨payload, ho⟩
  rcases register_outputs s y d id e _ ho with h | h
  · unfold availabilityMessage at h
    split_ifs at h <;> simp at h
  · simp at h

theorem not_sendsExtension_disconnected (y : SocketAddr) :
    ¬ SendsExtension x k (s.onDisconnected env y).2 := by
  rintro ⟨payload, ho⟩
  obtain ⟨id, h⟩ := onDisconnected_outputs env s y _ ho
  contradiction

theorem sendsExtension_append {l l' : List Output} :
    SendsExtension x k (l ++ l') ↔ SendsExtension x k l ∨ SendsExtension x k l' := by
  simp only [SendsExtension, List.mem_append, exists_or]

theorem not_sendsExtension_connected (y : SocketAddr) (d : ConnectionDirection) (id : PeerId)
    (e : PeerExtensions) : ¬ SendsExtension x k (s.onConnected env y d id e).2 := by
  rcases onConnected_cases env s y d id e with ⟨-, hs⟩ | ⟨_, -, -, hs⟩ | ⟨old, -, -, hs⟩ <;> rw [hs]
  · exact not_sendsExtension_register y d id e
  · simp [SendsExtension]
  · rw [sendsExtension_append]
    rintro (h | ⟨payload, ho⟩)
    · exact not_sendsExtension_disconnected old.1 h
    · rcases List.mem_cons.mp ho with ho | ho
      · contradiction
      · exact not_sendsExtension_register y d id e ⟨payload, ho⟩

theorem not_sendsExtension_plan : ¬ SendsExtension x k (s.plan env).2 := by
  rintro ⟨payload, ho⟩
  obtain ⟨y, h | ⟨b, h⟩⟩ := (plan_granted env s).messages _ ho <;> simp at h

theorem not_sendsExtension_piece (y : SocketAddr) (range : BlockRange) (data : Bytes) :
    ¬ SendsExtension x k (s.onMessagePiece sha1 env y range data).2 := by
  rcases onMessagePiece_cases sha1 env s y range data with
    ⟨-, hs⟩ | ⟨-, -, ⟨-, hs⟩ | ⟨c, -, hs⟩⟩ <;>
    rw [hs]
  · exact not_sendsExtension_nil
  · exact not_sendsExtension_nil
  · rintro ⟨payload, ho⟩
    rcases completionOutputs_eq env (s.onMessagePiece sha1 env y range data).1 with
      h | ⟨-, l, h⟩ <;>
      simp [h] at ho

theorem sendsExtension_onExtensionMessage (y : SocketAddr) (extId : UInt8) (received : Bytes) :
    SendsExtension x k (s.onExtensionMessage env y extId received) ↔
      AsksMetadata x (.messageReceived y (.extension extId received)) ∧
        s.peerRegistry.peerExtensionId x "ut_metadata" = some k := by
  have hpex : ∀ addrs, ¬ SendsExtension x k (s.onDiscovered addrs) := by
    intro addrs
    unfold onDiscovered
    split
    · exact not_sendsExtension_nil
    · exact not_sendsExtension_map (fun a payload => by simp) _
  simp only [onExtensionMessage, AsksMetadata]
  by_cases hid : extId = utMetadataExtId
  · rw [if_pos hid]
    cases hdecode : UtMetadataMessage.decode received with
    | error e => simp [not_sendsExtension_nil]
    | ok m =>
      cases m with
      | request piece =>
        cases hext : s.peerRegistry.peerExtensionId y "ut_metadata" with
        | none =>
          simp only [not_sendsExtension_nil, hid, true_and, false_iff, not_and]
          rintro ⟨rfl, -⟩
          simp [hext]
        | some extId' =>
          simp only [SendsExtension, List.mem_singleton, Output.sendToPeer.injEq,
            Message.extension.injEq, hid, Except.ok.injEq,
            UtMetadataMessage.request.injEq, exists_eq', and_true, exists_and_left, exists_eq]
          constructor
          · rintro ⟨rfl, rfl⟩
            exact ⟨rfl, hext⟩
          · rintro ⟨rfl, h⟩
            rw [hext, Option.some.injEq] at h
            exact ⟨rfl, h.symm⟩
      | _ => simp [not_sendsExtension_nil]
  · rw [if_neg hid]
    refine iff_of_false ?_ fun h => hid h.1.2.1
    split
    · cases UtPexMessage.decode received with
      | error e => exact not_sendsExtension_nil
      | ok msg => exact hpex _
    · exact not_sendsExtension_nil

theorem sendsExtension_handleMessage (y : SocketAddr) (m : Message) :
    SendsExtension x k (s.handleMessage sha1 env y m).2 ↔
      AsksMetadata x (.messageReceived y m) ∧
        s.peerRegistry.peerExtensionId x "ut_metadata" = some k := by
  cases m with
  | extension extId received => exact sendsExtension_onExtensionMessage y extId received
  | piece range data => exact iff_of_false (not_sendsExtension_piece y range data) fun h => h.1
  | request range =>
    refine iff_of_false ?_ fun h => h.1
    simp only [handleMessage]
    rcases onMessageRequest_cases s y range with h | ⟨-, -, -, h⟩ <;> simp [h, SendsExtension]
  | cancel range =>
    refine iff_of_false ?_ fun h => h.1
    simp only [handleMessage]
    rcases cancelUpload_cases s y range with h | ⟨_, h⟩ <;> simp [h, SendsExtension]
  | bitfield _ => exact iff_of_false (not_sendsExtension_declareInterest y) fun h => h.1
  | havePiece _ => exact iff_of_false (not_sendsExtension_declareInterest y) fun h => h.1
  | haveAll => exact iff_of_false (not_sendsExtension_declareInterest y) fun h => h.1
  | suggestPiece _ => exact iff_of_false (not_sendsExtension_declareInterest y) fun h => h.1
  | allowedFast _ => exact iff_of_false (not_sendsExtension_declareInterest y) fun h => h.1
  | interested => exact iff_of_false (by simp [handleMessage, SendsExtension]) fun h => h.1
  | _ => exact iff_of_false not_sendsExtension_nil fun h => h.1

theorem asked_under_stored_id {r : PeerRegistry} {y : SocketAddr} {m : Message}
    (ha : s.peerRegistry.apply y m = .ok r) (hasks : AsksMetadata x (.messageReceived y m))
    (name : String) : r.peerExtensionId x name = s.peerRegistry.peerExtensionId x name := by
  obtain ⟨p, hp, -, hpeers, -, -⟩ := PeerRegistry.apply_ok ha
  cases m with
  | extension extId received =>
    obtain ⟨rfl, -⟩ := hasks
    simp only [PeerRegistry.peerExtensionId, hpeers, HashMap.get_insert_self, hp]
    rfl
  | _ => exact absurd hasks fun h => h

theorem sendsExtension_onMessage (y : SocketAddr) (m : Message) :
    SendsExtension x k (s.onMessage sha1 env y m).2 ↔
      AsksMetadata x (.messageReceived y m) ∧
        s.peerRegistry.peerExtensionId x "ut_metadata" = some k := by
  have hhandled : ∀ r, s.peerRegistry.apply y m = .ok r →
      (SendsExtension x k (handleMessage sha1 env { s with peerRegistry := r } y m).2 ↔
        AsksMetadata x (.messageReceived y m) ∧
          s.peerRegistry.peerExtensionId x "ut_metadata" = some k) := by
    intro r ha
    rw [sendsExtension_handleMessage]
    refine and_congr_right fun hasks => ?_
    rw [asked_under_stored_id ha hasks]
  rcases onMessage_cases sha1 env s y m with ⟨reason, ha, -, ho⟩ | ⟨r, ha, -, hs⟩ | ⟨r, ha, -, hs⟩
  · refine iff_of_false ?_ ?_
    · rintro ⟨payload, hin⟩
      have hgone := ho _ hin
      contradiction
    · rintro ⟨hasks, hext⟩
      cases m with
      | extension extId received =>
        obtain ⟨rfl, -⟩ := hasks
        simp only [PeerRegistry.peerExtensionId, Option.bind_eq_bind, Option.bind_eq_some_iff]
          at hext
        obtain ⟨p, hp, -⟩ := hext
        simp [PeerRegistry.apply, hp, Message.needsFast] at ha
      | _ => exact hasks
  · rw [hs]
    exact hhandled r ha
  · rw [hs, sendsExtension_append, hhandled r ha]
    exact or_iff_left not_sendsExtension_plan

theorem sendsExtension_pex :
    SendsExtension x k (s.pexOutputs env) ↔
      s.IsClassified x ∧ s.peerRegistry.peerExtensionId x "ut_pex" = some k := by
  have hmem : ∀ y, y ∈ env.order.arrange
      (s.peerRegistry.leechers.keys.foldl HashSet.add s.peerRegistry.seeders).keys ↔
        s.IsClassified y := by
    intro y
    rw [(env.order.perm _).mem_iff, HashMap.mem_keys_iff, contains_foldl_add, HashMap.mem_keys_iff]
    exact Iff.rfl
  simp only [SendsExtension, pexOutputs, List.mem_filterMap, hmem, Option.map_eq_some_iff,
    Output.sendToPeer.injEq, Message.extension.injEq]
  constructor
  · rintro ⟨payload, y, hy, extId, hext, rfl, rfl, -⟩
    exact ⟨hy, hext⟩
  · rintro ⟨hx, hext⟩
    exact ⟨_, x, hx, k, hext, rfl, rfl, rfl⟩

theorem sendsExtension_step (sha1 : Sha1) (s : Swarm) (i : Input × Entropy) (x : SocketAddr)
    (k : UInt8) : SendsExtension x k (step sha1 s i).2 ↔ s.Addresses x k i.1 := by
  obtain ⟨input, env⟩ := i
  have hnone : ∀ {outputs : List Output}, ¬ SendsExtension x k outputs →
      input ≠ .tick .pex → ¬ AsksMetadata x input →
        (SendsExtension x k outputs ↔ s.Addresses x k input) := by
    intro outputs ho htick hasks
    refine iff_of_false ho ?_
    rintro (⟨h, -⟩ | ⟨h, -⟩)
    · exact htick h
    · exact hasks h
  cases input with
  | messageReceived y m =>
    refine (sendsExtension_onMessage y m).trans ?_
    simp [Addresses]
  | tick t =>
    cases t with
    | pex => simpa [step, onTick, Addresses, AsksMetadata] using sendsExtension_pex
    | block => exact hnone not_sendsExtension_plan (by simp) fun h => h
  | peersDiscovered addrs =>
    refine hnone ?_ (by simp) fun h => h
    simp only [step, onDiscovered]
    split
    · exact not_sendsExtension_nil
    · exact not_sendsExtension_map (fun a payload => by simp) _
  | peerConnected id d y e =>
    exact hnone (not_sendsExtension_connected y d id e) (by simp) fun h => h
  | peerDisconnected y => exact hnone (not_sendsExtension_disconnected y) (by simp) fun h => h
  | localPiece n data => exact hnone not_sendsExtension_nil (by simp) fun h => h
  | uploadReadCompleted id range data =>
    refine hnone ?_ (by simp) fun h => h
    rcases onUploadReadCompleted_cases env s id range data with hs | ⟨_, _, hs⟩ <;>
      simp only [step, hs]
    · exact not_sendsExtension_nil
    · exact not_sendsExtension_map (fun a payload => by simp) _
  | swarmCommand cmd =>
    refine hnone ?_ (by simp) fun h => h
    obtain ⟨_, _, _, -, hs⟩ := onSwarmCommand_cases env s cmd
    simp only [step, hs]
    exact not_sendsExtension_map (fun a payload => by simp) _

end Swarm

end Tortue
