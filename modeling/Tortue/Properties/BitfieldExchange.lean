import Tortue.Domain.Swarm.Announcements
import Tortue.Domain.Wire
import Tortue.Properties.BitfieldViews

namespace Tortue

open Bitfield Collections

theorem Bitfield.setBits_spec {n : Nat} {bf : Bitfield} (h : Sized n bf) (bits : List Nat)
    (i : Nat) :
    bitSet (bits.foldl (fun bf bit => bf.orKeep (bf.setBit bit)) bf).data i = true ↔
      bitSet bf.data i = true ∨ (i < n ∧ i ∈ bits) := by
  induction bits generalizing bf with
  | nil => simp
  | cons bit bits ih =>
    have hstep : bitSet (bf.orKeep (bf.setBit bit)).data i = true ↔
        bitSet bf.data i = true ∨ (i < n ∧ i = bit) := by
      cases hset : bf.setBit bit with
      | error e =>
        have hout : ¬ bit < bf.pieces := fun hlt => by
          obtain ⟨bf', hok⟩ := (setBit_ok_iff bf bit).mpr hlt
          rw [hset] at hok
          contradiction
        rw [h.pieces] at hout
        simp only [orKeep]
        grind
      | ok bf' =>
        have hin := (setBit_ok_iff bf bit).mp ⟨bf', hset⟩
        rw [h.pieces] at hin
        rw [orKeep, bitSet_setBit hset (by rw [h.length, h.pieces])]
        grind
    rw [List.foldl_cons, ih ((trims_setBit h bit).sized h), hstep, List.mem_cons]
    grind

namespace PeerRegistry

variable {n : Nat} {bits : List Nat} {pm : PieceManager} {r : PeerRegistry} {x : SocketAddr}

theorem fold_record_totalPieces (pieces : List Nat) (a : PieceAvailability) (x : SocketAddr) :
    (pieces.foldl (fun a piece => a.record piece x) a).totalPieces = a.totalPieces := by
  induction pieces generalizing a with
  | nil => rfl
  | cons q pieces ih => exact ih (a.record q x)

theorem recordMessage_totalPieces (a : PieceAvailability) (x : SocketAddr) (m : Message) :
    (recordMessage a x m).totalPieces = a.totalPieces := by
  cases m with
  | bitfield bits =>
    simp only [recordMessage, Bitfield.tryFrom_eq]
    exact fold_record_totalPieces _ _ x
  | haveAll => exact fold_record_totalPieces _ a x
  | _ => rfl

theorem has_apply_bitfield {r' : PeerRegistry} {bytes : Bytes}
    (h : r.apply x (.bitfield bytes) = .ok r') (p : Nat) (y : SocketAddr) :
    r'.availability.has p y = true ↔
      (r.availability.has p y = true ∧ y ≠ x) ∨ (y = x ∧ bitSet bytes p = true) := by
  obtain ⟨peer, -, -, -, -, havail⟩ := apply_ok h
  simp only [havail, recordMessage, Bitfield.tryFrom_eq, has_fold_record,
    PieceAvailability.has_removePeer, Bitfield.mem_iter]

theorem bitfield_exchange
    (hpm : pm.bitfield = bits.foldl (fun bf bit => bf.orKeep (bf.setBit bit)) (Bitfield.new n))
    (htotal : r.availability.totalPieces = n) (hx : r.containsAddr x = true) (o : IterOrder) :
    ∃ m r', Message.decode ((Message.bitfield pm.bitfieldBytes).encode o) = .ok m ∧
      r.apply x m = .ok r' ∧
      (∀ p, r'.availability.has p x = true ↔ p < n ∧ p ∈ bits) ∧
      (∀ y, y ≠ x → ∀ p, r'.availability.has p y = r.availability.has p y) ∧
      (r'.seeders.contains x = true ↔ ∀ p < n, p ∈ bits) ∧
      (r'.leechers.contains x = true ↔ ∃ p < n, p ∉ bits) := by
  obtain ⟨r', happly⟩ : ∃ r', r.apply x (.bitfield pm.bitfieldBytes) = .ok r' := by
    rw [accepted_iff, Rejects, hx]
    simp [Message.needsFast]
  have hrecorded : ∀ p, r'.availability.has p x = true ↔ p < n ∧ p ∈ bits := by
    intro p
    rw [has_apply_bitfield happly, PieceManager.bitfieldBytes, hpm,
      Bitfield.setBits_spec (sized_new n)]
    simp [Bitfield.new, bitSet_zeros]
  have hseeder : r'.availability.isSeeder x = true ↔ ∀ p < n, p ∈ bits := by
    obtain ⟨peer, -, -, -, -, havail⟩ := apply_ok happly
    have htotal' : r'.availability.totalPieces = n := by
      rw [havail, recordMessage_totalPieces, htotal]
    simp only [PieceAvailability.isSeeder, htotal', List.all_eq_true, List.mem_range, hrecorded]
    exact ⟨fun h p hp => (h p hp).2, fun h p hp => ⟨hp, h p hp⟩⟩
  obtain ⟨hseeders, hleechers⟩ := apply_classifies happly
  refine ⟨_, r', rfl, happly, hrecorded, fun y hy p => ?_, ?_, ?_⟩
  · rw [Bool.eq_iff_iff, has_apply_bitfield happly]
    simp [hy]
  · rw [hseeders, hseeder]
  · rw [hleechers, Bool.not_eq_true', ← Bool.not_eq_true, hseeder]
    simp

theorem bitfield_exchange_ten : ∃ m r',
    Message.decode ((Message.bitfield [0x80, 0x40]).encode .insertion) = .ok m ∧
      ((PeerRegistry.new 10).connected (Sample.addr 80) (Sample.peerId 2) .outbound
        Sample.extensions).apply (Sample.addr 80) m = .ok r' ∧
      (∀ p, r'.availability.has p (Sample.addr 80) = true ↔ p < 10 ∧ p ∈ [9, 12, 0]) ∧
      r'.seeders.contains (Sample.addr 80) = false := by
  have hpm : (⟨[], ⟨[0x80, 0x40], 10⟩⟩ : PieceManager).bitfield =
      [9, 12, 0].foldl (fun bf bit => bf.orKeep (bf.setBit bit)) (Bitfield.new 10) := by decide
  have hx : ((PeerRegistry.new 10).connected (Sample.addr 80) (Sample.peerId 2) .outbound
      Sample.extensions).containsAddr (Sample.addr 80) = true := by decide
  obtain ⟨m, r', hdecode, happly, hrecorded, -, hseeder, -⟩ :=
    bitfield_exchange hpm rfl hx .insertion
  refine ⟨m, r', hdecode, happly, hrecorded, ?_⟩
  rw [← Bool.not_eq_true, hseeder]
  exact fun hall => absurd (hall 1 (by decide)) (by decide)

end PeerRegistry

end Tortue
