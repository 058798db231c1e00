import Mathlib.Tactic.IntervalCases
import Tortue.Domain.BitfieldIter

namespace Tortue

namespace Bitfield

variable {bf bf' : Bitfield} {n i : Nat}

inductive Call where
  | setBit (bit : Nat)
  | unsetBit (bit : Nat)
  | setAll
  | unsetAll
  | extendBytes (bytes : Bytes)

def perform (bf : Bitfield) : Call → Bitfield
  | .setBit bit => bf.orKeep (bf.setBit bit)
  | .unsetBit bit => bf.orKeep (bf.unsetBit bit)
  | .setAll => bf.setAll
  | .unsetAll => bf.unsetAll
  | .extendBytes bytes => bf.orKeep (bf.extendBytes bytes)

def Built (bf : Bitfield) : Prop := (∃ n, bf = new n) ∨ ∃ bytes, tryFrom bytes = .ok bf

def Agrees (bf : Bitfield) : Prop :=
  bf.intoIter.collect.Pairwise (· < ·) ∧
    ∀ i, i ∈ bf.intoIter.collect ↔ bf.hasBit i = .ok true

def Spare (bf : Bitfield) (i : Nat) : Prop := bf.pieces ≤ i ∧ bitSet bf.data i = true

theorem agrees_iff (bf : Bitfield) : bf.Agrees ↔ ∀ i, ¬ bf.Spare i := by
  have hview : ∀ i, (i ∈ bf.intoIter.collect ↔ bf.hasBit i = .ok true) ↔ ¬ bf.Spare i := by
    intro i
    rw [mem_collect, hasBit_iff, Spare]
    grind
  simp only [Agrees, bf.collect_pairwise, hview, true_and]

structure Sized (n : Nat) (bf : Bitfield) : Prop where
  pieces : bf.pieces = n
  length : bf.data.length = divCeil n bitsPerByte

theorem sized_new (n : Nat) : Sized n (new n) := ⟨rfl, List.length_replicate⟩

theorem built_sized (h : bf.Built) : Sized bf.pieces bf ∧ ∀ i, ¬ bf.Spare i := by
  rcases h with ⟨n, rfl⟩ | ⟨bytes, hbytes⟩
  · exact ⟨sized_new n, fun i hi => by simp [Spare, new, bitSet_zeros] at hi⟩
  · rw [tryFrom_eq, Except.ok.injEq] at hbytes
    subst hbytes
    refine ⟨⟨rfl, by simp only [divCeil, bitsPerByte]; omega⟩, ?_⟩
    rintro i ⟨hle, hset⟩
    have hout : bytes.length ≤ i / 8 := by
      simp only [bitsPerByte] at hle
      omega
    rw [bitSet_out hout] at hset
    contradiction

structure Trims (bf bf' : Bitfield) : Prop where
  pieces : bf'.pieces = bf.pieces
  length : bf'.data.length = bf.data.length
  spare : ∀ i, bf'.Spare i ↔ bf.Spare i

theorem Trims.refl (bf : Bitfield) : Trims bf bf := ⟨rfl, rfl, fun _ => Iff.rfl⟩

theorem Trims.trans {bf'' : Bitfield} (h : Trims bf bf') (h' : Trims bf' bf'') :
    Trims bf bf'' where
  pieces := h'.pieces.trans h.pieces
  length := h'.length.trans h.length
  spare i := (h'.spare i).trans (h.spare i)

theorem trims_setBit (h : Sized n bf) (bit : Nat) : Trims bf (bf.orKeep (bf.setBit bit)) := by
  cases hset : bf.setBit bit with
  | error e => exact .refl bf
  | ok bf' =>
    obtain ⟨hbit, heq⟩ := setBit_ok hset
    have hpieces : bf'.pieces = bf.pieces := by rw [heq]
    refine ⟨hpieces, by simp [orKeep, heq], fun i => ?_⟩
    rw [orKeep, Spare, hpieces, bitSet_setBit hset (by rw [h.length, h.pieces]), Spare]
    exact ⟨fun ⟨hle, hi⟩ => ⟨hle, hi.resolve_left (by omega)⟩, fun ⟨hle, hi⟩ => ⟨hle, .inr hi⟩⟩

theorem trims_unsetBit (bf : Bitfield) (bit : Nat) :
    Trims bf (bf.orKeep (bf.unsetBit bit)) := by
  cases hunset : bf.unsetBit bit with
  | error e => exact .refl bf
  | ok bf' =>
    obtain ⟨hbit, heq⟩ := unsetBit_ok hunset
    have hpieces : bf'.pieces = bf.pieces := by rw [heq]
    refine ⟨hpieces, by simp [orKeep, heq], fun i => ?_⟩
    rw [orKeep, Spare, hpieces, bitSet_unsetBit hunset, Spare]
    exact ⟨fun ⟨hle, hi⟩ => ⟨hle, hi.2⟩, fun ⟨hle, hi⟩ => ⟨hle, by omega, hi⟩⟩

theorem Trims.sized (h : Trims bf bf') (hs : Sized n bf) : Sized n bf' :=
  ⟨h.pieces.trans hs.pieces, h.length.trans hs.length⟩

theorem trims_fold {f : Bitfield → Nat → Bitfield}
    (hstep : ∀ bf bit, Sized n bf → Trims bf (f bf bit)) (bits : List Nat) (h : Sized n bf) :
    Trims bf (bits.foldl f bf) := by
  induction bits generalizing bf with
  | nil => exact .refl bf
  | cons bit bits ih =>
    exact (hstep bf bit h).trans (ih ((hstep bf bit h).sized h))

def Call.Oversteps (n : Nat) (i : Nat) : Call → Prop
  | .extendBytes bytes => bytes.length = divCeil n bitsPerByte ∧ n ≤ i ∧ bitSet bytes i = true
  | _ => False

theorem extendBytes_cases (bf : Bitfield) (bytes : Bytes) :
    bf.orKeep (bf.extendBytes bytes) =
      if bytes.length = bf.data.length then
        { bf with data := List.zipWith (· ||| ·) bf.data bytes } else bf := by
  unfold extendBytes
  split <;> simp_all [orKeep]

theorem perform_step (h : Sized n bf) (c : Call) :
    Sized n (bf.perform c) ∧ ∀ i, (bf.perform c).Spare i ↔ bf.Spare i ∨ c.Oversteps n i := by
  have hkept : ∀ {bf'}, Trims bf bf' → (∀ i, ¬ c.Oversteps n i) →
      Sized n bf' ∧ ∀ i, bf'.Spare i ↔ bf.Spare i ∨ c.Oversteps n i :=
    fun ht hno => ⟨ht.sized h, fun i => (ht.spare i).trans (by simp [hno i])⟩
  cases c with
  | setBit bit => exact hkept (trims_setBit h bit) fun _ => id
  | unsetBit bit => exact hkept (trims_unsetBit bf bit) fun _ => id
  | setAll => exact hkept (trims_fold (fun _ bit hs => trims_setBit hs bit) _ h) fun _ => id
  | unsetAll => exact hkept (trims_fold (fun bf bit _ => trims_unsetBit bf bit) _ h) fun _ => id
  | extendBytes bytes =>
    simp only [perform, extendBytes_cases, Call.Oversteps, h.length]
    split
    · next hlen =>
      refine ⟨⟨h.pieces, ?_⟩, fun i => ?_⟩
      · rw [List.length_zipWith, h.length, hlen, Nat.min_self]
      · simp only [Spare, bitSet_zipWith (hlen.trans h.length.symm), h.pieces, Bool.or_eq_true]
        grind
    · next hlen => exact ⟨h, fun i => by simp [hlen]⟩

theorem perform_run (h : Sized n bf) (calls : List Call) (i : Nat) :
    (calls.foldl perform bf).Spare i ↔ bf.Spare i ∨ ∃ c ∈ calls, c.Oversteps n i := by
  induction calls generalizing bf with
  | nil => simp
  | cons c calls ih =>
    obtain ⟨hsized, hspare⟩ := perform_step h c
    rw [List.foldl_cons, ih hsized, hspare i]
    simp only [List.mem_cons, exists_eq_or_imp, or_assoc]

theorem iterator_agrees_iff (h : bf.Built) (calls : List Call) :
    (calls.foldl perform bf).Agrees ↔
      ∀ bytes, .extendBytes bytes ∈ calls → bytes.length = bf.data.length →
        ∀ i, bf.pieces ≤ i → bitSet bytes i = false := by
  obtain ⟨hsized, hclear⟩ := built_sized h
  simp only [agrees_iff, perform_run hsized, hclear, false_or, not_exists, not_and]
  constructor
  · intro hnone bytes hmem hlen i hle
    by_contra hset
    exact hnone i _ hmem ⟨hlen.trans hsized.length, hle, by simpa using hset⟩
  · intro hwithin i c hmem hover
    cases c with
    | extendBytes bytes =>
      obtain ⟨hlen, hle, hset⟩ := hover
      rw [hwithin bytes hmem (hlen.trans hsized.length.symm) i hle] at hset
      contradiction
    | _ => exact hover

theorem iterator_agrees_ten :
    ([Call.setBit 3, .extendBytes [0xff, 0xc0], .unsetBit 0].foldl perform (new 10)).Agrees := by
  refine (iterator_agrees_iff (.inl ⟨10, rfl⟩) _).mpr fun bytes hmem hlen i hle => ?_
  have hbytes : bytes = [0xff, 0xc0] := by simpa using hmem
  have hten : 10 ≤ i := hle
  subst hbytes
  rcases Nat.lt_or_ge i 16 with hlt | hge
  · interval_cases i <;> decide
  · exact bitSet_out (show 2 ≤ i / 8 by omega)

theorem iterator_yields_spare :
    (new 10).Built ∧
      15 ∈ ([Call.extendBytes [0xff, 0xff]].foldl perform (new 10)).intoIter.collect ∧
      ([Call.extendBytes [0xff, 0xff]].foldl perform (new 10)).hasBit 15 =
        .error .pieceOutOfRange ∧
      ¬ ([Call.extendBytes [0xff, 0xff]].foldl perform (new 10)).Agrees := by
  have hmem : 15 ∈ ([Call.extendBytes [0xff, 0xff]].foldl perform (new 10)).intoIter.collect :=
    mem_collect.mpr (by decide)
  have herr : ([Call.extendBytes [0xff, 0xff]].foldl perform (new 10)).hasBit 15 =
      .error .pieceOutOfRange := rfl
  refine ⟨.inl ⟨10, rfl⟩, hmem, herr, fun hagrees => ?_⟩
  have hhas := (hagrees.2 15).mp hmem
  rw [herr] at hhas
  contradiction

end Bitfield

end Tortue
