/-!
# Hex — bytes as lower-case hexadecimal text

* `Hex.encode` writes two digits per byte;
* `Hex.decode?` accepts exactly an even number of the digits `0-9a-f`.
-/

namespace WireLayout
namespace Hex

/-- The digit for a number below sixteen. -/
def digit (n : Nat) : Char :=
  if n < 10 then Char.ofNat (48 + n) else Char.ofNat (87 + n)

/-- The number that a lower-case digit stands for. -/
def digitValue? (c : Char) : Option Nat :=
  if '0' ≤ c ∧ c ≤ '9' then some (c.toNat - 48)
  else if 'a' ≤ c ∧ c ≤ 'f' then some (c.toNat - 87)
  else none

/-- The `width` last hexadecimal digits of a number. -/
def digits : (width : Nat) → (n : Nat) → List Char
  | 0, _ => []
  | width + 1, n => digits width (n / 16) ++ [digit (n % 16)]

/-- Two digits per byte, high digit first. -/
def encode (bytes : List UInt8) : String :=
  String.ofList (bytes.flatMap fun b => digits 2 b.toNat)

/-- Reads digits two at a time. -/
def decodeChars? : List Char → Option (List UInt8)
  | [] => some []
  | [_] => none
  | hi :: lo :: rest => do
    let h ← digitValue? hi
    let l ← digitValue? lo
    let bytes ← decodeChars? rest
    return UInt8.ofNat (16 * h + l) :: bytes

/-- The bytes that a text of digit pairs stands for. -/
def decode? (s : String) : Option (List UInt8) := decodeChars? s.toList

end Hex
end WireLayout
