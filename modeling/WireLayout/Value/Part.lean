import WireLayout.Error
import WireLayout.Slice

/-!
# Parts of values

`Value.part` takes one part out of a value: the entry of a dictionary under a label, or the element
of a sequence, a text or a block of bytes at a numeral, which counts from the end if it is negative.
A part that is not there is a misuse of the value; so is asking for a part of a value without parts.
-/

namespace WireLayout
namespace Value

/-- The element of a sequence at a place. -/
def element (items : List Value) (place : Numeral) : Except Error Value :=
  match elementAt? items place.value with
  | some v => .ok v
  | Option.none => .error (.misuse .noElement)

/-- The elements of a value that has elements at places. -/
def elements? : Value → Option (List Value)
  | .list items => some items
  | .tuple items => some items
  | .text s => some (s.toList.map fun c => .text (String.singleton c))
  | .bytes _ content => some (content.map fun b => .int b.toNat)
  | _ => Option.none

/-- The part of a value under a label. -/
def part (label : Label) : Value → Except Error Value
  | .dict entries =>
    match entry? label entries with
    | some v => .ok v
    | Option.none => .error (.misuse .noKey)
  | v =>
    match v.elements?, label with
    | some items, .numeral place => element items place
    | _, _ => .error (.misuse .wrongType)

end Value
end WireLayout
