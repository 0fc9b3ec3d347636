import WireLayout.Layout
import WireLayout.Value.Equality

/-!
# Equality of layouts

`Layout.same` compares descriptions by structure: the same items in the same order, attributes equal
as numbers, texts or bytes, conversions by identity.

`Layout.isKey` says whether a description can be looked up: nothing in it may still change.
-/

namespace WireLayout

namespace Framing

/-- Equality of framings. -/
def same : Framing → Framing → Bool
  | .fixed a, .fixed b => a.same b
  | .counted a, .counted b => a.same b
  | .unframed, .unframed => true
  | _, _ => false

end Framing

namespace Custom

variable {α : Type}

/-- Equality of extra attributes, given how constants are spelt as values. -/
def same (spell : α → Value) : Custom α → Custom α → Bool
  | .plain, .plain => true
  | .converted a, .converted b => a.same b
  | .constant a, .constant b => (spell a).same (spell b)
  | .constant a, .unsuitable v => (spell a).same v
  | .unsuitable v, .constant a => v.same (spell a)
  | .unsuitable v, .unsuitable w => v.same w
  | _, _ => false

/-- Whether an extra attribute can be looked up. -/
def isKey : Custom α → Bool
  | .unsuitable v => v.isKey
  | _ => true

end Custom

namespace Layout

mutual

/-- Equality of descriptions. -/
def same : Layout → Layout → Bool
  | .uint size custom omission, .uint size' custom' omission' =>
    size.same size' && custom.same Value.ofNumeral custom' && sameOption omission omission'
  | .blob framing custom omission, .blob framing' custom' omission' =>
    framing.same framing' && custom.same Value.raw custom' && sameOption omission omission'
  | .nested framing inner custom omission, .nested framing' inner' custom' omission' =>
    framing.same framing' && same inner inner' && custom.same Empty.elim custom'
      && sameOption omission omission'
  | .array framing element custom, .array framing' element' custom' =>
    framing.same framing' && same element element' && custom.same Empty.elim custom'
  | .switch idSize idTag cases custom, .switch idSize' idTag' cases' custom' =>
    idSize.same idSize' && sameCases cases cases' && idTag.same idTag'
      && custom.same Empty.elim custom'
  | .record fields, .record fields' => sameFields fields fields'
  | .unknownItem, .unknownItem => true
  | .field name item, .field name' item' => name.same name' && same item item'
  | .tuple items, .tuple items' => sameItems items items'
  | .list items, .list items' => sameItems items items'
  | .object v, .object w => v.same w
  | _, _ => false
termination_by structural l => l

/-- Equality of records, field by field. -/
def sameFields : List Field → List Field → Bool
  | [], [] => true
  | .mk name item :: rest, .mk name' item' :: rest' =>
    name.same name' && same item item' && sameFields rest rest'
  | _, _ => false
termination_by structural fields => fields

/-- Equality of cases, in order. -/
def sameCases : List Case → List Case → Bool
  | [], [] => true
  | .mk id name fields :: rest, .mk id' name' fields' :: rest' =>
    id.same id' && name.same name' && sameFields fields fields' && sameCases rest rest'
  | _, _ => false
termination_by structural cases => cases

/-- Equality of sequences, element by element. -/
def sameItems : List Layout → List Layout → Bool
  | [], [] => true
  | l :: ls, l' :: ls' => same l l' && sameItems ls ls'
  | _, _ => false
termination_by structural items => items

end

mutual

/-- Whether a description can be looked up. -/
def isKey : Layout → Bool
  | .uint _ custom _ => custom.isKey
  | .blob _ custom _ => custom.isKey
  | .nested _ inner custom _ => inner.isKey && custom.isKey
  | .array _ element custom => element.isKey && custom.isKey
  | .switch _ _ cases custom => casesAreKeys cases && custom.isKey
  | .record fields => fieldsAreKeys fields
  | .unknownItem => true
  | .field _ item => item.isKey
  | .tuple items => itemsAreKeys items
  | .list _ => false
  | .object v => v.isKey

/-- Whether all fields can be looked up. -/
def fieldsAreKeys : List Field → Bool
  | [] => true
  | .mk _ item :: rest => item.isKey && fieldsAreKeys rest

/-- Whether all cases can be looked up. -/
def casesAreKeys : List Case → Bool
  | [] => true
  | .mk _ _ fields :: rest => fieldsAreKeys fields && casesAreKeys rest

/-- Whether all elements can be looked up. -/
def itemsAreKeys : List Layout → Bool
  | [] => true
  | l :: ls => l.isKey && itemsAreKeys ls

end

end Layout

end WireLayout
