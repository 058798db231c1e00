import Tortue.Domain.Bencode
import Tortue.Domain.Decimal

namespace Tortue

namespace Bencode

structure Numeral where
  digits : Bytes
  value : Int64
  accepted : ¬ Refused digits
  parses : parseI64 digits = some value

structure Text where
  len : Bytes
  bytes : Bytes
  parses : parseUsize len = some bytes.length

inductive Spelling where
  | int (n : Numeral)
  | bytes (t : Text)
  | list (items : List Spelling)
  | dict (entries : List (Text × Spelling))

namespace Numeral

def render (n : Numeral) : Bytes := ascii 'i' :: n.digits ++ [ascii 'e']

def of (value : Int64) : Numeral where
  digits := decimalInt value.toInt
  value := value
  accepted := not_refused_decimalInt _
  parses := parseI64_decimalInt value

def Canonical (n : Numeral) : Prop := n.digits.head? ≠ some (ascii '+')

theorem not_end (n : Numeral) {b : UInt8} (hb : b ∈ n.digits) : b ≠ ascii 'e' := by
  rcases parseI64_bytes n.parses hb with rfl | rfl | hdigit
  · decide
  · decide
  · rintro rfl
    contradiction

theorem canonical_iff (n : Numeral) :
    n.Canonical ↔ n.render = ascii 'i' :: decimalInt n.value.toInt ++ [ascii 'e'] := by
  constructor
  · intro h
    rw [render, decimalInt_parseI64 n.parses n.accepted h]
  · intro h
    simp only [render, List.cons_append, List.cons.injEq, List.append_cancel_right_eq,
      true_and] at h
    rw [Canonical, h]
    exact head_decimalInt _

end Numeral

namespace Text

def render (t : Text) : Bytes := t.len ++ ascii ':' :: t.bytes

def of (bytes : Bytes) (h : bytes.length < 2 ^ 64) : Text where
  len := decimal bytes.length
  bytes := bytes
  parses := parseUsize_decimal h

def Canonical (t : Text) : Prop := Unpadded t.len

theorem digits (t : Text) {b : UInt8} (hb : b ∈ t.len) : isDigit b = true :=
  List.all_eq_true.mp (parseUsize_eq_some.mp t.parses).2.1 b hb

theorem canonical_iff (t : Text) : t.Canonical ↔ t.render = encodeBytes t.bytes := by
  obtain ⟨hne, hdigits, hvalue, -⟩ := parseUsize_eq_some.mp t.parses
  rw [render, encodeBytes, List.append_cancel_right_eq]
  constructor
  · intro h
    rw [← hvalue]
    exact (decimal_digitsValue hne hdigits h).symm
  · intro h
    rw [Canonical, h]
    exact unpadded_decimal _

theorem render_cons (t : Text) : ∃ c r, t.render = c :: r ∧ isDigit c = true := by
  have hne := (parseUsize_eq_some.mp t.parses).1
  cases hlen : t.len with
  | nil => exact absurd hlen hne
  | cons c r =>
    refine ⟨c, r ++ ascii ':' :: t.bytes, by rw [render, hlen, List.cons_append], ?_⟩
    exact t.digits (by rw [hlen]; exact List.mem_cons_self ..)

end Text

namespace Spelling

mutual

def render : Spelling → Bytes
  | .int n => n.render
  | .bytes t => t.render
  | .list items => ascii 'l' :: renderItems items ++ [ascii 'e']
  | .dict entries => ascii 'd' :: renderEntries entries ++ [ascii 'e']

def renderItems : List Spelling → Bytes
  | [] => []
  | item :: items => render item ++ renderItems items

def renderEntries : List (Text × Spelling) → Bytes
  | [] => []
  | (key, item) :: entries => key.render ++ render item ++ renderEntries entries

end

mutual

def value : Spelling → Bencode
  | .int n => .int n.value
  | .bytes t => .bytes t.bytes
  | .list items => .list (values items)
  | .dict entries => .dict (collect entries [])

def values : List Spelling → List Bencode
  | [] => []
  | item :: items => value item :: values items

def collect : List (Text × Spelling) → List (Bytes × Bencode) → List (Bytes × Bencode)
  | [], found => found
  | (key, item) :: entries, found => collect entries (dictInsert key.bytes (value item) found)

end

mutual

def size : Spelling → Nat
  | .int _ => 1
  | .bytes _ => 1
  | .list items => 1 + sizeItems items
  | .dict entries => 1 + sizeEntries entries

def sizeItems : List Spelling → Nat
  | [] => 1
  | item :: items => 1 + size item + sizeItems items

def sizeEntries : List (Text × Spelling) → Nat
  | [] => 1
  | (_, item) :: entries => 1 + size item + sizeEntries entries

end

mutual

def Canonical : Spelling → Prop
  | .int n => n.Canonical
  | .bytes t => t.Canonical
  | .list items => CanonicalItems items
  | .dict entries => CanonicalEntries entries

def CanonicalItems : List Spelling → Prop
  | [] => True
  | item :: items => Canonical item ∧ CanonicalItems items

def CanonicalEntries : List (Text × Spelling) → Prop
  | [] => True
  | (key, item) :: entries => key.Canonical ∧ (∀ e ∈ entries, key.bytes < e.1.bytes) ∧
      Canonical item ∧ CanonicalEntries entries

end

end Spelling

end Bencode

end Tortue
