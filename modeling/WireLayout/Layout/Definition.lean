import WireLayout.Layout
import WireLayout.Primitive

/-!
# Definition — checked construction of layouts

Each function builds one kind of item from attributes as written, or names the first fault.  What a
built layout cannot be by its type is checked here:

* an item has at most one framing, and only constants can be omitted;
* a constant fits its item;
* the cases of a switch are records whose numbers and names are distinct and fit.
-/

namespace WireLayout

/-- An item's extra attribute as written. -/
inductive CustomSpec where
  | none
  | conversion (c : Conversion)
  | value (v : Value)

/-- The case of a switch as written; its number may be missing. -/
structure CaseSpec where
  id : Option Numeral
  name : Label
  layout : Layout

namespace Layout

/-- Refuses with a fault of the description. -/
def faulty {α : Type} (fault : DefinitionFault) : Except Error α := .error (.definition fault)

/-- An attribute that cannot be a constant. -/
def customOf {α : Type} : CustomSpec → Custom α
  | .none => .plain
  | .conversion c => .converted c
  | .value v => .unsuitable v

/-! ## Items -/

/-- The numeral of a constant integer. -/
def constantNumeral? : CustomSpec → Option Numeral
  | .value v => v.numeral?
  | _ => Option.none

/-- An unsigned integer. -/
def uint? (size : Numeral) (spec : CustomSpec) (omission : Omission) : Except Error Layout :=
  if size.value ≤ 0 then faulty (.uintSize size)
  else
    match constantNumeral? spec with
    | some n => do
      if ← Uint.fits n.value size then return .uint size (.constant n) omission
      else faulty (.fixedTooLarge n size)
    | Option.none =>
      if omission.isOn then faulty .omitsVariable else .ok (.uint size (customOf spec) omission)

/-- One framing out of a size and the width of a count. -/
def framing? (size width : Option Numeral) (twice : DefinitionFault) : Except Error Framing :=
  match size, width with
  | some _, some _ => faulty twice
  | some n, Option.none => .ok (.fixed n)
  | Option.none, some n => .ok (.counted n)
  | Option.none, Option.none => .ok .unframed

/-- The layout inside a block; the empty value stands for no layout. -/
def innerOf? : Option Layout → Option Layout
  | some (.object .none) => Option.none
  | some l => some l.settle
  | Option.none => Option.none

/-- The bytes of a constant block. -/
def constantBytes? : CustomSpec → Option (List UInt8)
  | .value (.bytes .frozen content) => some content
  | .value (.bytes .growing content) => some content
  | _ => Option.none

/-- A block of bytes, with or without a layout inside. -/
def bytes? (size lengthSize : Option Numeral) (inner : Option Layout) (spec : CustomSpec)
    (omission : Omission) : Except Error Layout := do
  let framing ← framing? size lengthSize .bytesFramedTwice
  match constantBytes? spec, innerOf? inner with
  | some _, some _ => faulty .fixedBytesWrapLayout
  | some content, Option.none =>
    match framing with
    | .fixed n =>
      if n.value = content.length then return .blob framing (.constant content) omission
      else faulty (.fixedBytesSize content.length n)
    | _ => return .blob framing (.constant content) omission
  | Option.none, inner =>
    if omission.isOn then faulty .omitsVariable
    else
      match inner with
      | some l => return .nested framing l (customOf spec) omission
      | Option.none => return .blob framing (customOf spec) omission

/-- An array. -/
def array? (element : Layout) (length lengthSize : Option Numeral) (spec : CustomSpec) :
    Except Error Layout := do
  let framing ← framing? length lengthSize .arrayFramedTwice
  return .array framing element.settle (customOf spec)

/-! ## Switches -/

/-- Whether no number occurs twice; missing numbers count as one. -/
def distinctIds : List (Option Numeral) → Bool
  | [] => true
  | n :: ns => !ns.any (sameOption n) && distinctIds ns

/-- One case of a switch; its number has to fit in the width that the switch is given. -/
def case? (idSize : Option Numeral) (idTag : Label) (spec : CaseSpec) : Except Error Case := do
  match spec.id with
  | Option.none => .error (.misuse .wrongType)
  | some id =>
    if ← Uint.fitsOption id.value idSize then
      match spec.layout.settle with
      | .record fields =>
        if fields.any fun f => f.name.same idTag then faulty (.caseHidesTag spec.name idTag)
        else return .mk id spec.name fields
      | _ => faulty (.caseNotRecord spec.name)
    else faulty (.caseIdTooLarge id idSize)

/-- Checks the cases of a switch one after the other. -/
def cases? (idSize : Option Numeral) (idTag : Label) : List CaseSpec → Except Error (List Case)
  | [] => .ok []
  | spec :: rest => do
    let c ← case? idSize idTag spec
    let cases ← cases? idSize idTag rest
    return c :: cases

/-- A tagged union.  A missing width is found out by the first case. -/
def switch? (idSize : Option Numeral) (specs : List CaseSpec) (idTag : Label)
    (spec : CustomSpec) : Except Error Layout := do
  if specs.isEmpty then faulty .noCases
  else if !distinctIds (specs.map CaseSpec.id) then
    faulty (.repeatedCaseIds (specs.map CaseSpec.id))
  else if !Label.distinct (specs.map CaseSpec.name) then
    faulty (.repeatedCaseNames (specs.map CaseSpec.name))
  else
    let cases ← cases? idSize idTag specs
    match idSize with
    | some n => return .switch n idTag cases (customOf spec)
    | Option.none => .error (.misuse .wrongType)

/-- A field; a list in the place of its layout is made unchangeable. -/
def fieldOf (name : Label) (item : Layout) : Layout := .field name item.settle

end Layout

end WireLayout
