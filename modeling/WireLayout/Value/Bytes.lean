import WireLayout.Error
import WireLayout.Slice

/-!
# Values as bytes

A value can stand for bytes in several ways.  Blocks of bytes stand for their content and sequences
of numbers below 256 for the bytes with those numbers.

* `blockSize` — a number as the size of a block;
* `Value.toBytes` — the bytes of a value given as a message; a number asks for that many zero bytes;
* `Value.appendable` — the bytes of a value given to a writer; an empty text is no bytes;
* `Value.length?` and `Value.sliceTo` — the length and the leading part of a sequence.
-/

namespace WireLayout

/-- The least number of bytes that no block has, `2 ^ 63 - 33`.  The memory for smaller blocks is
taken to be there. -/
def blockLimit : Int := 0x7fffffffffffffdf

/-- A number as the size of a block. -/
def blockSize (n : Int) : Except Error Nat :=
  if n < -0x8000000000000000 ∨ blockLimit ≤ n then .error (.misuse .tooLarge)
  else if n < 0 then .error (.misuse .wrongValue)
  else .ok n.toNat

theorem blockSize_of_lt {n : Int} (hlow : 0 ≤ n) (hhigh : n < blockLimit) :
    blockSize n = .ok n.toNat := by
  rw [blockSize, if_neg (by omega), if_neg (by omega)]

theorem blockSize_of_le {n : Int} (h : blockLimit ≤ n) : blockSize n = .error (.misuse .tooLarge) :=
  if_pos (.inr h)

namespace Value

/-- The byte with the number that a value spells. -/
def byte (v : Value) : Except Error UInt8 :=
  match v.numeral? with
  | some n =>
    if 0 ≤ n.value ∧ n.value < 256 then .ok (UInt8.ofNat n.value.toNat)
    else .error (.misuse .wrongValue)
  | Option.none => .error (.misuse .wrongType)

/-- The bytes with the numbers that the values spell. -/
def byteList : List Value → Except Error (List UInt8)
  | [] => .ok []
  | v :: vs => do
    let b ← v.byte
    let bs ← byteList vs
    return b :: bs

/-- As many zero bytes as a number says, if a block can be that large. -/
def zeroBytes (n : Int) : Except Error (List UInt8) := do
  let size ← blockSize n
  return List.replicate size 0

/-- The bytes of a value given as a message. -/
def toBytes (v : Value) : Except Error (List UInt8) :=
  match v, v.numeral? with
  | .bytes _ content, _ => .ok content
  | .list items, _ => byteList items
  | .tuple items, _ => byteList items
  | .dict [], _ => .ok []
  | _, some n => zeroBytes n.value
  | _, Option.none => .error (.misuse .wrongType)

/-- The bytes of a value given to a writer. -/
def appendable : Value → Except Error (List UInt8)
  | .bytes _ content => .ok content
  | .list items => byteList items
  | .tuple items => byteList items
  | .dict [] => .ok []
  | .text s => if s.isEmpty then .ok [] else .error (.misuse .wrongType)
  | _ => .error (.misuse .wrongType)

/-- The number of elements of a value that has elements. -/
def length? : Value → Option Nat
  | .bytes _ content => some content.length
  | .text s => some s.length
  | .list items => some items.length
  | .tuple items => some items.length
  | .dict entries => some entries.length
  | _ => Option.none

/-- The elements of a sequence up to a bound, as bytes. -/
def sliceTo (v : Value) (stop : Int) : Except Error (List UInt8) :=
  match v with
  | .bytes _ content => .ok (sliceBetween content 0 stop)
  | .list items => byteList (sliceBetween items 0 stop)
  | .tuple items => byteList (sliceBetween items 0 stop)
  | _ => .error (.misuse .wrongType)

@[simp] theorem toBytes_raw (content : List UInt8) : (raw content).toBytes = .ok content := rfl

end Value
end WireLayout
