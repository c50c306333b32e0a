/-!
# Hexadecimal text
-/

namespace ShaderModule

namespace Hex

/-- The lower-case digits of a number, without leading zeros. -/
def ofNat (n : Nat) : String := String.ofList (Nat.toDigits 16 n)

/-- The lower-case digits of a number, filled up with zeros to a width. -/
def padded (width n : Nat) : String :=
  let digits := Nat.toDigits 16 n
  String.ofList (List.replicate (width - digits.length) '0' ++ digits)

/-- Two digits for each byte. -/
def ofBytes (bytes : List UInt8) : String := String.join (bytes.map fun b => padded 2 b.toNat)

/-- The value of one digit. -/
def digit? (c : Char) : Option Nat :=
  if '0' ≤ c ∧ c ≤ '9' then some (c.toNat - '0'.toNat)
  else if 'a' ≤ c ∧ c ≤ 'f' then some (c.toNat - 'a'.toNat + 10)
  else none

/-- The number that the digits write. -/
def toNat? (digits : List Char) : Option Nat :=
  digits.foldlM (fun n c => (digit? c).map (n * 16 + ·)) 0

/-- The bytes that pairs of digits write. -/
def toBytes? : List Char → Option (List UInt8)
  | [] => some []
  | a :: b :: rest => do
    let n ← toNat? [a, b]
    return UInt8.ofNat n :: (← toBytes? rest)
  | [_] => none

end Hex

end ShaderModule
