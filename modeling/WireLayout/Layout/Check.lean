import WireLayout.Layout.Definition
import WireLayout.Layout.StaticSize
import WireLayout.Primitive

/-!
# Check — what a description must satisfy to be compiled

* The fields of every record have distinct names.
* The elements of an unframed array are not known to be empty.
* Extra attributes are conversions, or constants that can be written.
* Every part is a layout.

Parts are checked before the whole, in the order in which they are written.
-/

namespace WireLayout

namespace Custom

/-- An attribute that is neither constant nor conversion is refused. -/
def check {α : Type} : Custom α → Except Error Unit
  | .unsuitable _ => .error (.misuse .noAttribute)
  | _ => .ok ()

/-- A number in the place of bytes is refused before anything else. -/
def refuseNumeral {α : Type} : Custom α → Except Error Unit
  | .unsuitable v => if v.numeral?.isSome then .error (.misuse .wrongType) else .ok ()
  | _ => .ok ()

end Custom

namespace Layout

/-- The extra attribute of an unsigned integer. -/
def checkUintCustom (size : Numeral) : Custom Numeral → Except Error Unit
  | .constant n => (Uint.encode (.ofNumeral n) size).map fun _ => ()
  | .unsuitable (.bytes .frozen content) =>
    (Uint.encode (.raw content) size).map fun _ => ()
  | custom => custom.check

/-- Elements that are known to be empty would never use up their input. -/
def checkElementSize (framing : Framing) (element : Layout) : Except Error Unit :=
  match framing with
  | .unframed => do
    match ← element.staticSize with
    | some n => if n.value = 0 then faulty .emptyUnframedElement else return ()
    | none => return ()
  | _ => .ok ()

/-- Field names tell the fields of a record apart. -/
def checkNames (fields : List Field) : Except Error Unit :=
  if Label.distinct (fields.map Field.name) then .ok ()
  else faulty (.repeatedFieldNames (fields.map Field.name))

mutual

/-- Checks a description and all its parts. -/
def check : Layout → Except Error Unit
  | .uint size custom _ => checkUintCustom size custom
  | .blob _ custom _ => do
    custom.refuseNumeral
    custom.check
  | .nested _ inner custom _ => do
    custom.refuseNumeral
    check inner
    custom.check
  | .array framing element custom => do
    check element
    checkElementSize framing element
    custom.check
  | .switch idSize _ cases custom => do
    checkCases idSize cases
    custom.check
  | .record fields => do
    checkNames fields
    checkFields fields
  | l => .error (.definition (.notALayout l.listing))

/-- Checks the layouts of fields. -/
def checkFields : List Field → Except Error Unit
  | [] => .ok ()
  | .mk _ item :: rest => do
    check item
    checkFields rest

/-- Checks the records and numbers of cases. -/
def checkCases (idSize : Numeral) : List Case → Except Error Unit
  | [] => .ok ()
  | .mk id _ fields :: rest => do
    checkNames fields
    checkFields fields
    let _ ← Uint.encode (.ofNumeral id) idSize
    checkCases idSize rest

end

end Layout

end WireLayout
