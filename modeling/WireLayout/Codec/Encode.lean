import WireLayout.Layout.Text
import WireLayout.Primitive
import WireLayout.Value.Equality
import WireLayout.Value.Part
import WireLayout.Writer

/-!
# Encode — writing a value in a layout

`Layout.encode l v` appends the bytes of `v` to a writer.

* A constant is written whatever the value; a value that is given must equal it.
* A frame is filled on a writer of its own, so a failure inside writes nothing.
* An array writes its count first, then its elements one by one.
* A switch writes the number of the case that the value names, then that case's record.
* A record takes the fields it declares from a dictionary and leaves other entries alone.

What was written before a failure stays written.
-/

namespace WireLayout

namespace Custom

variable {α : Type}

/-- The value as the structure of an item takes it. -/
def beforeEncode : Custom α → Value → Except Error Value
  | .converted c, v => c.beforeEncode v
  | .unsuitable _, _ => .error (.misuse .noAttribute)
  | _, v => .ok v

end Custom

/-! ## Items -/

/-- Writes a constant, unless a different value is given. -/
def writeConstant (expected : Value) (content : List UInt8) (given : Value) : Encoding Unit :=
  match given with
  | .none => Writer.write content
  | v => if v.same expected then Writer.write content
         else Encoding.ofExcept (.error (.fixedValue expected v))

/-- Writes an unsigned integer. -/
def writeUint (size : Numeral) (custom : Custom Numeral) (v : Value) : Encoding Unit := do
  match custom with
  | .constant n =>
    let content ← Encoding.ofExcept (Uint.encode (.ofNumeral n) size)
    writeConstant (.ofNumeral n) content v
  | custom =>
    let raw ← Encoding.ofExcept (custom.beforeEncode v)
    let content ← Encoding.ofExcept (Uint.encode raw size)
    Writer.write content

/-- Writes a payload in its frame. -/
def writeFramed (framing : Framing) (payload : List UInt8) : Encoding Unit := do
  match framing with
  | .fixed size =>
    let content ← Encoding.ofExcept (Block.exactly size payload)
    Writer.write content
  | .counted width =>
    let count ← Encoding.ofExcept (Uint.bytesOf payload.length width)
    Writer.write count
    Writer.write payload
  | .unframed => Writer.write payload

/-- Writes a block of bytes. -/
def writeBlob (framing : Framing) (custom : Custom (List UInt8)) (v : Value) : Encoding Unit := do
  match custom with
  | .constant content => writeConstant (.raw content) content v
  | custom =>
    let raw ← Encoding.ofExcept (custom.beforeEncode v)
    let payload ← Encoding.ofExcept (Block.content raw)
    writeFramed framing payload

/-! ## Arrays -/

/-- The elements of a value that is a sequence. -/
def arrayItems : Value → Except Error (List Value)
  | .list items => .ok items
  | .tuple items => .ok items
  | v => .error (.unexpected .arrayItems v.typeName)

/-- Checks or writes the number of elements. -/
def writeCount (framing : Framing) (count : Nat) : Encoding Unit := do
  match framing with
  | .fixed n =>
    Encoding.ofExcept
      (if (count : Int) = n.value then .ok () else .error (.elementCount n count))
  | .counted width =>
    let content ← Encoding.ofExcept (Uint.bytesOf count width)
    Writer.write content
  | .unframed => Encoding.ofExcept (.ok ())

/-- Writes elements one by one. -/
def writeEach (element : Value → Encoding Unit) : List Value → Encoding Unit
  | [] => Encoding.ofExcept (.ok ())
  | v :: vs => do
    element v
    writeEach element vs

/-! ## Records and switches -/

/-- The entries of a value that is a dictionary. -/
def recordEntries : Value → Except Error (List (Label × Value))
  | .dict entries => .ok entries
  | v => .error (.unexpected .recordEntries v.typeName)

namespace Layout

/-- Whether an item is constant, and whether it is also left out of values. -/
def constancy : Layout → Option Bool
  | .uint _ (.constant _) omission => some omission.isOn
  | .blob _ (.constant _) omission => some omission.isOn
  | _ => none

/-- The value that a field takes from the entries of a record. -/
def input (item : Layout) (name : Label) (entries : List (Label × Value)) :
    Except Error Value :=
  match item.constancy, Value.entry? name entries with
  | some true, _ => .ok .none
  | some false, some v => .ok v
  | some false, none => .ok .none
  | none, some v => .ok v
  | none, none => .error (.missingField name)

end Layout

/-- The name of a case that a value carries under the tag of a switch. -/
def caseName (idTag : Label) (v : Value) : Except Error Value :=
  match v.part idTag with
  | .ok name => if name.isKey then .ok name else .error (.misuse .wrongType)
  | .error (.misuse .noKey) => .error (.missingTag idTag)
  | .error e => .error e

namespace Layout

mutual

/-- Appends the bytes of a value. -/
def encode : Layout → Value → Encoding Unit
  | .uint size custom _, v => writeUint size custom v
  | .blob framing custom _, v => writeBlob framing custom v
  | .nested framing inner custom _, v => do
    let raw ← Encoding.ofExcept (custom.beforeEncode v)
    match framing with
    | .unframed => encode inner raw
    | framing =>
      let payload ← Encoding.ofExcept (Writer.collect (encode inner raw))
      writeFramed framing payload
  | .array framing element custom, v => do
    let raw ← Encoding.ofExcept (custom.beforeEncode v)
    let items ← Encoding.ofExcept (arrayItems raw)
    writeCount framing items.length
    writeEach (encode element) items
  | .switch idSize idTag cases custom, v => do
    let raw ← Encoding.ofExcept (custom.beforeEncode v)
    let name ← Encoding.ofExcept (caseName idTag raw)
    encodeCase idSize cases name raw
  | .record fields, v => do
    let entries ← Encoding.ofExcept (recordEntries v)
    encodeFields fields entries
  | l, _ => Encoding.ofExcept (.error (.definition (.notALayout l.listing)))
termination_by structural l => l

/-- Appends the fields of a record one after the other. -/
def encodeFields : List Field → List (Label × Value) → Encoding Unit
  | [], _ => Encoding.ofExcept (.ok ())
  | .mk name item :: rest, entries => do
    let v ← Encoding.ofExcept (item.input name entries)
    encode item v
    encodeFields rest entries
termination_by structural fields => fields

/-- Appends the case with a given name: its number, then its record. -/
def encodeCase (idSize : Numeral) : List Case → (name v : Value) → Encoding Unit
  | [], name, _ => Encoding.ofExcept (.error (.unknownCaseName name))
  | .mk id caseName fields :: rest, name, v =>
    if name.same (.ofLabel caseName) then do
      let content ← Encoding.ofExcept (Uint.encode (.ofNumeral id) idSize)
      Writer.write content
      let entries ← Encoding.ofExcept (recordEntries v)
      encodeFields fields entries
    else encodeCase idSize rest name v
termination_by structural cases => cases

end

end Layout

end WireLayout
