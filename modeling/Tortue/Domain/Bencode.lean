import Tortue.Domain.Primitive

namespace Tortue

inductive Bencode where
  | int (n : Int64)
  | bytes (b : Bytes)
  | list (items : List Bencode)
  | dict (entries : List (Bytes × Bencode))

namespace Bencode

inductive Error where
  | unexpectedEof
  | unexpectedByte (expected found : UInt8)
  | invalidToken (byte : UInt8)
  | invalidInteger
  | invalidStringLength
  | invalidString
  | invalidDictKey
  | keyNotFound
  | typeMismatch
  deriving DecidableEq, Repr

def encodeBytes (b : Bytes) : Bytes := decimal b.length ++ ascii ':' :: b

mutual

def encode : Bencode → Bytes
  | .int n => ascii 'i' :: decimalInt n.toInt ++ [ascii 'e']
  | .bytes b => encodeBytes b
  | .list items => ascii 'l' :: encodeItems items ++ [ascii 'e']
  | .dict entries => ascii 'd' :: encodeEntries entries ++ [ascii 'e']

def encodeItems : List Bencode → Bytes
  | [] => []
  | item :: items => encode item ++ encodeItems items

def encodeEntries : List (Bytes × Bencode) → Bytes
  | [] => []
  | (key, value) :: entries => encodeBytes key ++ encode value ++ encodeEntries entries

end

-- `BTreeMap::insert` on entries kept in increasing key order.
def dictInsert (key : Bytes) (value : Bencode) : List (Bytes × Bencode) → List (Bytes × Bencode)
  | [] => [(key, value)]
  | (k, v) :: entries =>
    if key < k then (key, value) :: (k, v) :: entries
    else if key = k then (key, value) :: entries
    else (k, v) :: dictInsert key value entries

def dictGet (key : Bytes) (entries : List (Bytes × Bencode)) : Option Bencode :=
  (entries.find? fun e => e.1 = key).map Prod.snd

inductive Fault where
  | error (e : Error)
  | outOfFuel
  deriving DecidableEq, Repr

-- The decoder's state is the input that is left from its position on.
abbrev Decoder := StateT Bytes (Except Fault)

namespace Decoder

def fail {α : Type} (e : Error) : Decoder α := throw (.error e)

def peekByte : Decoder UInt8 := do
  match ← get with
  | [] => fail .unexpectedEof
  | byte :: _ => return byte

def nextByte : Decoder UInt8 := do
  match ← get with
  | [] => fail .unexpectedEof
  | byte :: rest =>
    set rest
    return byte

def consumeByte (expected : UInt8) : Decoder Unit := do
  let found ← nextByte
  if found ≠ expected then fail (.unexpectedByte expected found)

def parseInt : Decoder Bencode := do
  consumeByte (ascii 'i')
  let rest ← get
  let s := rest.takeWhile (· ≠ ascii 'e')
  set (rest.dropWhile (· ≠ ascii 'e'))
  let _ ← peekByte
  if s = [] ∨ ByteStr "-0" <+: s ∨ ([ascii '0'] <+: s ∧ s.length > 1) then fail .invalidInteger
  match parseI64 s with
  | none => fail .invalidInteger
  | some value =>
    consumeByte (ascii 'e')
    return .int value

def parseLen : Decoder Nat := do
  let rest ← get
  let s := rest.takeWhile isDigit
  set (rest.dropWhile isDigit)
  if (← peekByte) ≠ ascii ':' then fail .invalidStringLength
  match parseUsize s with
  | none => fail .invalidStringLength
  | some len =>
    consumeByte (ascii ':')
    return len

def parseByteString : Decoder Bytes := do
  let len ← parseLen
  let rest ← get
  if len > rest.length then fail .unexpectedEof
  set (rest.drop len)
  return rest.take len

def parseBytes : Decoder Bencode := return .bytes (← parseByteString)

def parseDictKey : Decoder Bytes := fun rest =>
  match parseByteString rest with
  | .error _ => .error (.error .invalidDictKey)
  | .ok r => .ok r

mutual

def parse : Nat → Decoder Bencode
  | 0 => throw .outOfFuel
  | fuel + 1 => do
    let byte ← peekByte
    if byte = ascii 'i' then parseInt
    else if byte = ascii 'l' then
      consumeByte (ascii 'l')
      let elements ← parseItems fuel
      consumeByte (ascii 'e')
      return .list elements
    else if byte = ascii 'd' then
      consumeByte (ascii 'd')
      let entries ← parseEntries fuel []
      consumeByte (ascii 'e')
      return .dict entries
    else if isDigit byte then parseBytes
    else fail (.invalidToken byte)

def parseItems : Nat → Decoder (List Bencode)
  | 0 => throw .outOfFuel
  | fuel + 1 => do
    if (← peekByte) = ascii 'e' then return []
    let item ← parse fuel
    return item :: (← parseItems fuel)

def parseEntries : Nat → List (Bytes × Bencode) → Decoder (List (Bytes × Bencode))
  | 0, _ => throw .outOfFuel
  | fuel + 1, entries => do
    if (← peekByte) = ascii 'e' then return entries
    let key ← parseDictKey
    let value ← parse fuel
    parseEntries fuel (dictInsert key value entries)

end

end Decoder

-- Every nesting level and every element takes at least one byte and at most two units of fuel.
def fuelFor (data : Bytes) : Nat := 2 * data.length + 2

def decodeWithRest (data : Bytes) : Except Error (Bencode × Bytes) :=
  match Decoder.parse (fuelFor data) data with
  | .ok r => .ok r
  | .error (.error e) => .error e
  | .error .outOfFuel => .error .unexpectedEof

def decode (data : Bytes) : Except Error Bencode := Prod.fst <$> decodeWithRest data

def get (b : Bencode) (key : String) : Except Error Bencode :=
  match b with
  | .dict entries => match dictGet (ByteStr key) entries with
    | some v => .ok v
    | none => .error .keyNotFound
  | _ => .error .typeMismatch

def getBytes (b : Bencode) (key : String) : Except Error Bytes := do
  match ← b.get key with
  | .bytes b => return b
  | _ => throw .typeMismatch

def getUtf8 (b : Bencode) (key : String) : Except Error String := do
  match fromUtf8 (← b.getBytes key) with
  | some s => return s
  | none => throw .invalidString

def getInt (b : Bencode) (key : String) : Except Error Int64 := do
  match ← b.get key with
  | .int n => return n
  | _ => throw .typeMismatch

def getList (b : Bencode) (key : String) : Except Error (List Bencode) := do
  match ← b.get key with
  | .list items => return items
  | _ => throw .typeMismatch

end Bencode

end Tortue
