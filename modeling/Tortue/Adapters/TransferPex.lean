import Tortue.Adapters.TransferSwarms
import Tortue.Domain.UtPex

namespace Tortue

open Collections

variable {sha1 : Sha1} {env : Entropy} {s : Swarm} {x y : SocketAddr} {p : PeerState}
  {m : Message} {r : PeerRegistry} {m' : Metainfo}

def PeerState.Exchanges (p : PeerState) : Prop :=
  ∀ hs, p.extensions = some hs → hs.extensions.get "ut_pex" = some utPexExtId

def Message.Introduces : Message → Prop
  | .extensionHandshake hs => hs.extensions.get "ut_pex" = some utPexExtId
  | _ => True

theorem PeerState.exchanges_new (id : PeerId) (e : PeerExtensions) : (new id e).Exchanges :=
  nofun

theorem PeerState.Exchanges.apply (h : p.Exchanges) (hm : m.Introduces) :
    (p.apply m).Exchanges := by
  cases m with
  | extensionHandshake hs =>
    intro hs' heq
    obtain rfl := Option.some.inj heq
    exact hm
  | _ => exact h

namespace Swarm

theorem pexAddrs_le (h : Accounted s) {addrs : Finset SocketAddr}
    (hknown : ∀ z, s.peerRegistry.containsAddr z = true → z ∈ addrs) :
    (s.peerRegistry.leechers.keys.foldl HashSet.add s.peerRegistry.seeders).keys.length ≤
      addrs.card := by
  have hnodup : (s.peerRegistry.leechers.keys.foldl HashSet.add
      s.peerRegistry.seeders).keys.Nodup := HashMap.nodup _
  rw [← List.toFinset_card_of_nodup hnodup]
  refine Finset.card_le_card fun z hz => ?_
  rw [List.mem_toFinset, HashMap.mem_keys_iff, contains_foldl_add, HashMap.mem_keys_iff] at hz
  exact hknown z (h.registered z hz.symm)

theorem sent_pex (h : Accounted s) {addrs : Finset SocketAddr}
    (hknown : ∀ z, s.peerRegistry.containsAddr z = true → z ∈ addrs)
    (hfew : 18 * addrs.card + 64 ≤ Message.maxMessageSize)
    (hx : ∀ p, s.peerRegistry.peers.get x = some p → p.Exchanges) (o : IterOrder)
    (env : Entropy) : ∀ f ∈ Transfer.sent o x (s.pexOutputs env),
      s.peerRegistry.containsAddr x = true ∧ ∃ payload : Bytes,
        f.2 = .extension utPexExtId payload ∧ payload.length + 2 ≤ Message.maxMessageSize := by
  intro f hf
  have hmax : Message.maxMessageSize = 1024 * 1024 := rfl
  obtain ⟨-, hin | hin⟩ := Transfer.mem_sent.mp hf
  · simp only [pexOutputs, List.mem_filterMap, Option.map_eq_some_iff, Output.sendToPeer.injEq]
      at hin
    obtain ⟨z, -, k, hk, rfl, hmessage⟩ := hin
    simp only [PeerRegistry.peerExtensionId, Option.bind_eq_bind, Option.bind_eq_some_iff] at hk
    obtain ⟨p, hp, hs, hhs, hget⟩ := hk
    obtain rfl := Option.some.inj (hget.symm.trans (hx p hp hs hhs))
    refine ⟨HashMap.contains_iff.mpr ⟨p, hp⟩, _, hmessage.symm, ?_⟩
    have hsize := UtPexMessage.length_encode_le env.order (m := ⟨s.peerRegistry.leechers.keys.foldl
      HashSet.add s.peerRegistry.seeders⟩) (pexAddrs_le h hknown) (by omega)
    omega
  · exact absurd (plain_pexOutputs env s _ hin) Bool.false_ne_true

theorem pexOutputs_sends (env : Entropy) (s : Swarm) :
    ∀ out ∈ s.pexOutputs env, ∃ z m, out = .sendToPeer z m := by
  intro out hout
  simp only [pexOutputs, List.mem_filterMap, Option.map_eq_some_iff] at hout
  obtain ⟨z, -, k, -, hsend⟩ := hout
  exact ⟨z, _, hsend.symm⟩

theorem disconnects_pex (env : Entropy) (s : Swarm) : disconnects (s.pexOutputs env) = [] := by
  refine disconnects_eq_nil fun out hout y heq => ?_
  obtain ⟨z, m, hsend⟩ := pexOutputs_sends env s out hout
  rw [heq] at hsend
  contradiction

theorem written_pex (env : Entropy) (s : Swarm) :
    (s.pexOutputs env).filterMap Output.written = [] := by
  refine List.filterMap_eq_nil_iff.mpr fun out hout => ?_
  obtain ⟨z, m, rfl⟩ := pexOutputs_sends env s out hout
  rfl

theorem onExtensionMessage_pex (env : Entropy) (s : Swarm) (x : SocketAddr) (payload : Bytes) :
    ∀ out ∈ s.onExtensionMessage env x utPexExtId payload, ∃ z, out = .connectPeer z := by
  intro out hout
  have hdiscovered : ∀ addrs, out ∈ s.onDiscovered addrs → ∃ z, out = .connectPeer z := by
    intro addrs hin
    unfold onDiscovered at hin
    split_ifs at hin
    · contradiction
    · obtain ⟨z, -, rfl⟩ := List.mem_map.mp hin
      exact ⟨z, rfl⟩
  have hid : utPexExtId ≠ utMetadataExtId := by decide
  unfold onExtensionMessage at hout
  rw [if_neg hid, if_pos rfl] at hout
  split at hout
  · exact hdiscovered _ hout
  · contradiction

theorem handleMessage_pex (sha1 : Sha1) (env : Entropy) (s : Swarm) (x : SocketAddr)
    (payload : Bytes) : ∃ outputs,
      s.handleMessage sha1 env x (.extension utPexExtId payload) = (s, outputs) ∧
      (∀ o y, Transfer.sent o y outputs = []) ∧ disconnects outputs = [] ∧
      outputs.filterMap Output.written = [] := by
  have hdials := onExtensionMessage_pex env s x payload
  refine ⟨_, rfl, fun o y => List.filterMap_eq_nil_iff.mpr fun out hout => ?_,
    disconnects_eq_nil fun out hout y => ?_, List.filterMap_eq_nil_iff.mpr fun out hout => ?_⟩
  · obtain ⟨z, rfl⟩ := hdials out hout
    rfl
  · obtain ⟨z, rfl⟩ := hdials out hout
    exact nofun
  · obtain ⟨z, rfl⟩ := hdials out hout
    rfl

theorem learns_silently (sha1 : Sha1) (env : Entropy) (s : Swarm) (x y : SocketAddr)
    (payload : Bytes) (o : IterOrder) : Transfer.sent o y
      (s.step sha1 (.messageReceived x (.extension utPexExtId payload), env)).2 = [] := by
  have hstep : s.step sha1 (.messageReceived x (.extension utPexExtId payload), env) =
      s.onMessage sha1 env x (.extension utPexExtId payload) := rfl
  rw [hstep]
  rcases onMessage_cases sha1 env s x (.extension utPexExtId payload) with
    ⟨_, -, -, hout⟩ | ⟨r, -, -, hres⟩ | ⟨_, -, haffects, -⟩
  · refine List.filterMap_eq_nil_iff.mpr fun out hin => ?_
    rw [hout out hin]
    rfl
  · obtain ⟨outputs, hhandled, hsent, -⟩ :=
      handleMessage_pex sha1 env { s with peerRegistry := r } x payload
    rw [hres, hhandled]
    exact hsent o y
  · contradiction

end Swarm

end Tortue
