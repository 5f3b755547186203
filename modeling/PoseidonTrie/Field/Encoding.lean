import PoseidonTrie.Field.Basic

/-! Bits, bytes, words and text of field elements. A conversion that could lose information is
partial, so no key or payload is ever truncated. -/
namespace PoseidonTrie.Element

variable {f : PrimeField}

/-- The canonical representative, least significant bit first, at the width of the encoding. -/
def bits (x : Element f) : List Bool :=
  (List.range 256).map x.val.testBit

/-- The canonical encoding, least significant byte first. -/
def toBytes (x : Element f) : List UInt8 :=
  (List.range 32).map fun i => UInt8.ofNat (x.val >>> (8 * i))

/-- The number a byte string denotes, least significant byte first. -/
def natOfBytes (bytes : List UInt8) : Nat :=
  bytes.foldr (fun b rest => b.toNat + 256 * rest) 0

/-- Reads a canonical encoding: the right length, and a number below the modulus. -/
def fromBytes? (bytes : List UInt8) : Option (Element f) :=
  if bytes.length = f.numBytes then
    if h : natOfBytes bytes < f.modulus then some ⟨natOfBytes bytes, h⟩ else none
  else
    none

def hexByte (b : UInt8) : List Char :=
  [Nat.digitChar (b.toNat / 16), Nat.digitChar (b.toNat % 16)]

/-- The canonical encoding in hexadecimal, most significant byte first. -/
def hexDigits (x : Element f) : String :=
  String.ofList ('0' :: 'x' :: x.toBytes.reverse.flatMap hexByte)

/-- The element as a word, when it fits. -/
def toUInt64? (x : Element f) : Option UInt64 :=
  if (x.toBytes.drop 8).any (· != 0) then
    none
  else
    some (UInt64.ofNat (natOfBytes (x.toBytes.take 8)))

def ofUInt64 (f : PrimeField) (n : UInt64) : Element f :=
  ofNat f n.toNat

/-- The value of digits most significant first, or nothing if one is not below the base. -/
def digitsValue? (base : Nat) (digits : List Char) : Option Nat :=
  digits.foldlM (fun n c => do
    let d ← if '0' ≤ c ∧ c ≤ '9' then some (c.toNat - '0'.toNat)
      else if 'a' ≤ c ∧ c ≤ 'f' then some (c.toNat - 'a'.toNat + 10)
      else if 'A' ≤ c ∧ c ≤ 'F' then some (c.toNat - 'A'.toNat + 10)
      else none
    if d < base then some (n * base + d) else none) 0

/-- An unsigned numeral: decimal, or hexadecimal after `0x`. -/
def natOfNumeral? : List Char → Option Nat
  | [] => none
  | '0' :: 'x' :: digits => if digits.isEmpty then none else digitsValue? 16 digits
  | digits => digitsValue? 10 digits

/-- Reads a numeral of any size, with an optional minus sign, reduced into the field. -/
def ofNumeral? (f : PrimeField) (text : String) : Option (Element f) :=
  match text.toList with
  | '-' :: digits => (natOfNumeral? digits).map fun n => -ofNat f n
  | digits => (natOfNumeral? digits).map (ofNat f)

end PoseidonTrie.Element
