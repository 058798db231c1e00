import Tortue.Properties.ExtensionIds
import Tortue.Properties.MetadataServing

namespace Tortue

open Collections

namespace Metadata

variable {sha1 : Sha1} {s : Metadata} {a : SocketAddr} {message : Message}

structure Asked (s : Metadata) (a : SocketAddr) (message : Message) (piece : Nat) : Prop where
  message_eq : ∃ k, s.peers.get a = some k ∧
    message = .extension k (UtMetadataMessage.request piece).encode
  vacant : Slots.Vacant s.pieces piece

def Rejects (s : Metadata) (addr : SocketAddr) (piece : Nat) (input : Input) : Prop :=
  ∃ extId payload, input = .messageReceived addr (.extension extId payload) ∧
    s.peers.get addr = some extId ∧ UtMetadataMessage.decode payload = .ok (.reject piece)

theorem asked_missing {b : SocketAddr} (h : .sendToPeer a message ∈ s.requestMissingFrom b) :
    ∃ piece, Asked s a message piece := by
  obtain ⟨k, piece, hpeer, hvacant, ho⟩ := mem_requestMissingFrom.mp h
  obtain ⟨rfl, rfl⟩ := Output.sendToPeer.inj ho
  exact ⟨piece, ⟨k, hpeer, rfl⟩, hvacant⟩

theorem asked_tryFinalize {order : IterOrder}
    (h : .sendToPeer a message ∈ (s.tryFinalize sha1 order).2) :
    ∃ piece, Asked (s.tryFinalize sha1 order).1 a message piece := by
  unfold tryFinalize at *
  split_ifs at * with hhash
  · simp at h
  · obtain ⟨b, -, hb⟩ := List.mem_flatMap.mp h
    exact asked_missing hb

theorem asked_onData {order : IterOrder} {piece : Nat} {data : Bytes}
    (h : .sendToPeer a message ∈ (s.onData sha1 order piece data).2) :
    ∃ p, Asked (s.onData sha1 order piece data).1 a message p := by
  rcases onData_cases sha1 order s piece data with ⟨-, hs⟩ | ⟨-, -, hs⟩ | ⟨-, -, hs⟩ <;>
    rw [hs] at h ⊢
  · simp at h
  · simp at h
  · exact asked_tryFinalize h

theorem asked_onHandshake {b : SocketAddr} {hs : ExtensionHandshake}
    (h : .sendToPeer a message ∈ (s.onHandshake b hs).2) :
    ∃ piece, Asked (s.onHandshake b hs).1 a message piece := by
  cases hid : hs.extensions.get "ut_metadata" with
  | none => simp [onHandshake, hid] at h
  | some n =>
    cases hsize : hs.metadataSize with
    | none => simp [onHandshake, hid, hsize] at h
    | some size =>
      rw [onHandshake_eq hid hsize] at h ⊢
      exact asked_missing h

theorem mem_onReject {order : IterOrder} {addr : SocketAddr} {piece : Nat} :
    .sendToPeer a message ∈ s.onReject order addr piece ↔
      (order.arrange s.peers.keys).find? (fun b => b ≠ addr) = some a ∧
      ∃ k, s.peers.get a = some k ∧
        message = .extension k (UtMetadataMessage.request piece).encode := by
  unfold onReject
  cases (order.arrange s.peers.keys).find? fun b => b ≠ addr with
  | none => simp
  | some b =>
    simp only [requestPieceFrom, Option.some.injEq]
    cases hpeer : s.peers.get b with
    | none =>
      simp only [List.not_mem_nil, false_iff, not_and]
      rintro rfl ⟨k, hk, -⟩
      rw [hpeer] at hk
      contradiction
    | some n =>
      simp only [makeRequest, List.mem_singleton, Output.sendToPeer.injEq]
      constructor
      · rintro ⟨rfl, rfl⟩
        exact ⟨rfl, n, hpeer, rfl⟩
      · rintro ⟨rfl, k, hk, rfl⟩
        rw [hpeer, Option.some.injEq] at hk
        exact ⟨rfl, by rw [hk]⟩

theorem asked_step {i : Input × IterOrder} (h : .sendToPeer a message ∈ (step sha1 s i).2) :
    (∃ piece, Asked (step sha1 s i).1 a message piece) ∨
    ∃ addr piece, Rejects s addr piece i.1 ∧ (step sha1 s i).1 = s ∧
      .sendToPeer a message ∈ s.onReject i.2 addr piece := by
  obtain ⟨input, order⟩ := i
  cases input with
  | peersDiscovered addrs =>
    obtain ⟨_, -, hb⟩ := List.mem_map.mp h
    contradiction
  | peerDisconnected b => contradiction
  | messageReceived b m =>
    cases m with
    | extensionHandshake hs => exact .inl (asked_onHandshake h)
    | extension extId payload =>
      simp only [step, onMessage] at h ⊢
      split_ifs at h ⊢ with hpeer
      · contradiction
      · rw [not_not] at hpeer
        rw [onPayload] at h ⊢
        split at h
        · next hdata => exact .inl (asked_onData h)
        · next piece hreject =>
          exact .inr ⟨b, piece, ⟨extId, payload, rfl, hpeer, hreject⟩, by simp, h⟩
        · contradiction
        · contradiction
        · contradiction
    | _ => contradiction

-- The announced sizes are `usize`.
def SizedInput : Input → Prop
  | .messageReceived _ (.extensionHandshake hs) => ∀ n, hs.metadataSize = some n → n < 2 ^ 64
  | _ => True

theorem divCeil_lt {n : Nat} (h : n < 2 ^ 64) : Bitfield.divCeil n pieceSize < 2 ^ 64 := by
  rw [Bitfield.divCeil, pieceSize]
  omega

theorem length_onData {order : IterOrder} {piece : Nat} {data : Bytes} :
    (s.onData sha1 order piece data).1.pieces.length = s.pieces.length := by
  rcases onData_cases sha1 order s piece data with ⟨-, hs⟩ | ⟨-, -, hs⟩ | ⟨-, -, hs⟩ <;> rw [hs]
  · exact length_store ..
  · rcases tryFinalize_cases sha1 order (s.store piece data) with ⟨-, hs⟩ | ⟨-, hs, -⟩ <;> rw [hs]
    · exact length_store ..
    · rw [discard_pieces, List.length_replicate, length_store]

theorem length_onHandshake {b : SocketAddr} {hs : ExtensionHandshake}
    (hsized : ∀ n, hs.metadataSize = some n → n < 2 ^ 64) (h : s.pieces.length < 2 ^ 64) :
    (s.onHandshake b hs).1.pieces.length < 2 ^ 64 := by
  cases hid : hs.extensions.get "ut_metadata" with
  | none => simpa [onHandshake, hid] using h
  | some n =>
    cases hsize : hs.metadataSize with
    | none => simpa [onHandshake, hid, hsize] using h
    | some size =>
      rw [onHandshake_eq hid hsize]
      by_cases hfirst : s.totalSize = none
      · simp only [greeted, announced_first hfirst, List.length_replicate]
        exact divCeil_lt (hsized size hsize)
      · simp only [greeted, announced_later hfirst]
        exact h

theorem length_step {i : Input × IterOrder} (hsized : SizedInput i.1)
    (h : s.pieces.length < 2 ^ 64) : (step sha1 s i).1.pieces.length < 2 ^ 64 := by
  obtain ⟨input, order⟩ := i
  cases input with
  | messageReceived b m =>
    cases m with
    | extensionHandshake hs => exact length_onHandshake hsized h
    | extension extId payload =>
      simp only [step, onMessage, onPayload]
      split_ifs
      · exact h
      · split
        · rw [length_onData]
          exact h
        all_goals exact h
    | _ => exact h
  | _ => exact h

def RequestsMissing (sha1 : Sha1) (e : Event Metadata (Input × IterOrder) Output) : Prop :=
  ∀ a k payload piece, .sendToPeer a (.extension k payload) ∈ e.outputs →
    UtMetadataMessage.decode payload = .ok (.request piece) →
      piece < (step sha1 e.before e.input).1.pieces.length ∧
      Slots.Vacant (step sha1 e.before e.input).1.pieces piece ∧
      (step sha1 e.before e.input).1.peers.get a = some k

def Misdirects (e : Event Metadata (Input × IterOrder) Output) : Prop :=
  ∃ addr piece, Rejects e.before addr piece e.input.1 ∧ ¬ Slots.Vacant e.before.pieces piece ∧
    ∃ other, other ≠ addr ∧ e.before.peers.contains other = true

theorem step_of_rejects {i : Input × IterOrder} {addr : SocketAddr} {piece : Nat}
    (h : Rejects s addr piece i.1) : step sha1 s i = (s, s.onReject i.2 addr piece) := by
  obtain ⟨input, order⟩ := i
  obtain ⟨extId, payload, rfl, hpeer, hdecode⟩ := h
  simp only [step, onMessage, hpeer, ne_eq, not_true_eq_false, if_false, onPayload, hdecode]

theorem Rejects.piece_lt {addr : SocketAddr} {piece : Nat} {input : Input}
    (h : Rejects s addr piece input) : piece < 2 ^ 64 := by
  obtain ⟨extId, payload, -, -, hdecode⟩ := h
  exact UtMetadataMessage.decoded_sized hdecode

theorem asked_requests {k : UInt8} {payload : Bytes} {p piece : Nat}
    (h : Asked s a (.extension k payload) p) (hlength : s.pieces.length < 2 ^ 64)
    (hdecode : UtMetadataMessage.decode payload = .ok (.request piece)) :
    piece < s.pieces.length ∧ Slots.Vacant s.pieces piece ∧ s.peers.get a = some k := by
  obtain ⟨⟨n, hpeer, hmessage⟩, hvacant⟩ := h
  obtain ⟨rfl, rfl⟩ := Message.extension.inj hmessage
  rw [UtMetadataMessage.decode_request (hvacant.lt.trans hlength)] at hdecode
  obtain rfl : p = piece := UtMetadataMessage.request.inj (Except.ok.inj hdecode)
  exact ⟨hvacant.lt, hvacant, hpeer⟩

theorem requestsMissing_iff (sha1 : Sha1) {i : Input × IterOrder} (hsized : SizedInput i.1)
    (hlength : s.pieces.length < 2 ^ 64) :
    RequestsMissing sha1 ⟨s, i, (step sha1 s i).2⟩ ↔
      ¬ Misdirects ⟨s, i, (step sha1 s i).2⟩ := by
  constructor
  · rintro hlaw ⟨addr, piece, hrejects, hfilled, other, hother, hknown⟩
    obtain ⟨b, hb⟩ : ∃ b, (i.2.arrange s.peers.keys).find? (fun b => b ≠ addr) = some b := by
      refine Option.isSome_iff_exists.mp (List.find?_isSome.mpr ⟨other, ?_, by simp [hother]⟩)
      exact (i.2.perm _).mem_iff.mpr (HashMap.mem_keys_iff.mpr hknown)
    have hmem : b ∈ s.peers.keys := (i.2.perm _).mem_iff.mp (List.mem_of_find?_eq_some hb)
    obtain ⟨k, hk⟩ := HashMap.contains_iff.mp (HashMap.mem_keys_iff.mp hmem)
    have hstep : step sha1 s i = (s, s.onReject i.2 addr piece) := step_of_rejects hrejects
    have hsent : .sendToPeer b (.extension k (UtMetadataMessage.request piece).encode) ∈
        (step sha1 s i).2 := by
      rw [hstep]
      exact mem_onReject.mpr ⟨hb, k, hk, rfl⟩
    have hnamed := hlaw b k _ piece hsent (UtMetadataMessage.decode_request hrejects.piece_lt)
    rw [hstep] at hnamed
    exact hfilled hnamed.2.1
  · intro hclean b k payload piece hsent hdecode
    rcases asked_step hsent with ⟨p, hasked⟩ | ⟨addr, p, hrejects, hsame, hreject⟩
    · exact asked_requests hasked (length_step hsized hlength) hdecode
    · obtain ⟨hfind, hmessage⟩ := mem_onReject.mp hreject
      have hother : b ≠ addr := by simpa using List.find?_some hfind
      have hmem : b ∈ s.peers.keys := (i.2.perm _).mem_iff.mp (List.mem_of_find?_eq_some hfind)
      have hvacant : Slots.Vacant s.pieces p := by
        by_contra hfilled
        exact hclean ⟨addr, p, hrejects, hfilled, b, hother, HashMap.mem_keys_iff.mp hmem⟩
      rw [hsame]
      exact asked_requests ⟨hmessage, hvacant⟩ hlength hdecode

theorem metadata_requests_iff {infoHash : InfoHash} {h : Trace}
    (hist : History (step sha1) (Started infoHash) h s) (hsized : ∀ e ∈ h, SizedInput e.input.1) :
    ∀ e ∈ h, RequestsMissing sha1 e ↔ ¬ Misdirects e := by
  intro e he
  obtain ⟨newer, older, rfl⟩ := List.mem_iff_append.mp he
  obtain ⟨hbefore, houtputs⟩ := hist.event_before rfl
  have hlength : e.before.pieces.length < 2 ^ 64 := by
    refine hbefore.guarded_invariant (P := fun s => s.pieces.length < 2 ^ 64)
      (G := fun _ i => SizedInput i.1) ?_ (fun s i => length_step) fun f hf => ?_
    · rintro s rfl
      exact Nat.two_pow_pos 64
    · exact hsized f (by simp [hf])
  have hiff := requestsMissing_iff sha1 (hsized e he) hlength
  rw [← houtputs] at hiff
  exact hiff

end Metadata

namespace Sample

def fetchMessage (a : UInt16) (m : Message) : Metadata.Input × IterOrder :=
  (.messageReceived (addr a) m, .insertion)

def metadataOffered : List (Metadata.Input × IterOrder) :=
  [80, 81].map fun a => fetchMessage a (.extensionHandshake
    ⟨HashMap.empty.insert "ut_metadata" 1, some 16385⟩)

def pieceRejected : List (Metadata.Input × IterOrder) :=
  metadataOffered ++ [1, 5].map fun piece =>
    fetchMessage 80 (.extension 1 (UtMetadataMessage.reject piece).encode)

def fetch : Metadata := .new (octets 0)

theorem fetch_history (inputs : List (Metadata.Input × IterOrder)) :
    History (Metadata.step sha1) (Metadata.Started (octets 0))
      (History.events (Metadata.step sha1) fetch inputs)
      (History.run (Metadata.step sha1) fetch inputs).1 := by
  have hstart : History (Metadata.step sha1) (Metadata.Started (octets 0)) [] fetch := .start rfl
  have hrun := hstart.run_events inputs
  rwa [List.append_nil] at hrun

theorem rejected_sized : ∀ e ∈ History.events (Metadata.step sha1) fetch pieceRejected,
    Metadata.SizedInput e.input.1 := by
  simp [pieceRejected, metadataOffered, fetchMessage, History.events, Metadata.SizedInput]

end Sample

namespace Metadata

theorem rejected_piece_passed_on :
    ∃ e ∈ History.events (step Sample.sha1) Sample.fetch Sample.pieceRejected,
      .sendToPeer (Sample.addr 81) (.extension 1 (UtMetadataMessage.request 1).encode) ∈
        e.outputs ∧ Rejects e.before (Sample.addr 80) 1 e.input.1 ∧
      RequestsMissing Sample.sha1 e := by
  refine ⟨_, List.mem_cons_of_mem _ (List.mem_cons_self ..), by decide +kernel,
    ⟨1, _, rfl, by decide +kernel, UtMetadataMessage.decode_reject (by decide)⟩, ?_⟩
  refine (metadata_requests_iff (Sample.fetch_history Sample.pieceRejected) Sample.rejected_sized _
    (List.mem_cons_of_mem _ (List.mem_cons_self ..))).mpr ?_
  rintro ⟨addr, piece, ⟨extId, payload, heq, -, hdecode⟩, hfilled, -⟩
  obtain ⟨-, hmessage⟩ := Input.messageReceived.inj heq
  obtain ⟨-, rfl⟩ := Message.extension.inj hmessage
  rw [UtMetadataMessage.decode_reject (by decide)] at hdecode
  obtain rfl := UtMetadataMessage.reject.inj (Except.ok.inj hdecode)
  refine hfilled ?_
  rw [Slots.Vacant]
  decide +kernel

theorem rejected_piece_requested : ¬ ∀ (sha1 : Sha1) (infoHash : InfoHash) (h : Trace)
    (s : Metadata), History (step sha1) (Started infoHash) h s →
      (∀ e ∈ h, SizedInput e.input.1) → ∀ e ∈ h, RequestsMissing sha1 e := by
  intro hall
  have hlaw := hall _ _ _ _ (Sample.fetch_history Sample.pieceRejected) Sample.rejected_sized _
    (List.mem_cons_self ..) (Sample.addr 81) 1 (UtMetadataMessage.request 5).encode 5
    (by decide +kernel) (UtMetadataMessage.decode_request (by decide))
  exact absurd hlaw.1 (by decide +kernel)

end Metadata

end Tortue
