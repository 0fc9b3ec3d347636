import WireLayout.Conversion
import WireLayout.Value.Equality

/-!
# Stock conversions

Small conversions under fixed names.  A value that a conversion does not mention passes unchanged.

* `identity` changes nothing; `addOne` shows integers one higher than they are written;
* `hex` shows bytes as hexadecimal text; `tuple` shows lists as tuples;
* `flag` shows a dictionary's `id` as a truth value; `point` shows `x` and `y` as a pair;
* `rejectDecode`, `rejectEncode` and `truncate` refuse every value.
-/

namespace WireLayout
namespace Conversion

/-- Changes nothing. -/
def identity : Conversion := ⟨.named "identity", .ok, .ok⟩

/-- Adds a number to an integer that is no truth value. -/
def shiftBy (d : Int) : Value → Value
  | .int n => .int (n + d)
  | .chain c => .int (c.id + d)
  | v => v

/-- Shows integers one higher than they are written. -/
def addOne : Conversion :=
  ⟨.named "add_one", fun v => .ok (shiftBy 1 v), fun v => .ok (shiftBy (-1) v)⟩

/-- Bytes as hexadecimal text. -/
def toHex : Value → Value
  | .bytes .frozen content => .text (Hex.encode content)
  | v => v

/-- Hexadecimal text as bytes. -/
def ofHex : Value → Value
  | .text s =>
    match Hex.decode? s with
    | some content => .raw content
    | none => .text s
  | v => v

/-- Shows bytes as hexadecimal text. -/
def hex : Conversion := ⟨.named "hex", fun v => .ok (toHex v), fun v => .ok (ofHex v)⟩

/-- Refuses every decoded value. -/
def rejectDecode : Conversion := ⟨.named "reject_decode", fun v => .error (.rejected v), .ok⟩

/-- Refuses every value to encode. -/
def rejectEncode : Conversion := ⟨.named "reject_encode", .ok, fun v => .error (.rejected v)⟩

/-- Takes every decoded value for one whose input ended early. -/
def truncate : Conversion :=
  ⟨.named "truncate", fun v => .error (.truncated (.conversion v)), .ok⟩

/-- A list as a tuple. -/
def toTuple : Value → Value
  | .list items => .tuple items
  | v => v

/-- A tuple as a list. -/
def ofTuple : Value → Value
  | .tuple items => .list items
  | v => v

/-- Shows lists as tuples. -/
def tuple : Conversion := ⟨.named "tuple", fun v => .ok (toTuple v), fun v => .ok (ofTuple v)⟩

/-- The truth value that a dictionary's `id` stands for. -/
def toFlag : Value → Value
  | .dict entries =>
    match Value.entry? "id" entries with
    | some v => .bool (v.same (.text "on"))
    | none => .dict entries
  | v => v

/-- The dictionary that stands for a truth value. -/
def ofFlag : Value → Value
  | .bool b => .dict [("id", .text (if b then "on" else "off"))]
  | v => v

/-- Shows a dictionary's `id` as a truth value. -/
def flag : Conversion := ⟨.named "flag", fun v => .ok (toFlag v), fun v => .ok (ofFlag v)⟩

/-- The pair of a dictionary's `x` and `y`, if it has no other entry. -/
def toPoint : Value → Value
  | .dict entries =>
    match Value.entry? "x" entries, Value.entry? "y" entries, entries.length with
    | some x, some y, 2 => .tuple [x, y]
    | _, _, _ => .dict entries
  | v => v

/-- The dictionary that stands for a pair. -/
def ofPoint : Value → Value
  | .tuple [x, y] => .dict [("x", x), ("y", y)]
  | v => v

/-- Shows `x` and `y` as a pair. -/
def point : Conversion := ⟨.named "point", fun v => .ok (toPoint v), fun v => .ok (ofPoint v)⟩

/-- Every stock conversion. -/
def stock : List Conversion :=
  [identity, addOne, hex, rejectDecode, rejectEncode, truncate, tuple, flag, point]

/-- The stock conversion with a given name. -/
def ofName? (name : String) : Option Conversion :=
  stock.find? fun c => c.id == .named name

end Conversion
end WireLayout
