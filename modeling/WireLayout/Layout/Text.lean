import WireLayout.Layout

/-!
# Written form of layouts

* `Layout.listed` — a description with all its attributes, in the order of their definition; the
  attributes that a layout's type leaves out are shown as absent;
* `Layout.spellable` — whether a description has a written form: no integer in it has too many
  digits;
* `Layout.listing` — both together.
-/

namespace WireLayout

namespace Framing

/-- The fixed extent, if there is one. -/
def size? : Framing → Option Numeral
  | .fixed n => some n
  | _ => none

/-- The width of the count, if there is one. -/
def width? : Framing → Option Numeral
  | .counted n => some n
  | _ => none

/-- Whether the extent can be spelt. -/
protected def spellable : Framing → Bool
  | .fixed n | .counted n => n.spellable
  | .unframed => true

end Framing

namespace Custom

variable {α : Type}

/-- An extra attribute, with the written form of its constants. -/
def listed (constantListed : α → String) : Custom α → String
  | .plain => "None"
  | .converted _ => "CustomConversion"
  | .constant value => constantListed value
  | .unsuitable v => v.listed

/-- Whether an extra attribute can be spelt, if its constants can. -/
protected def spellable (constantSpellable : α → Bool) : Custom α → Bool
  | .plain | .converted _ => true
  | .constant value => constantSpellable value
  | .unsuitable v => v.spellable

end Custom

namespace Layout

/-- An attribute list of a block of bytes. -/
def bytesItemListed (framing : Framing) (inner custom : String) (omission : Omission) : String :=
  recordListed "BytesItem"
    [("size", optionListed framing.size?), ("length_size", optionListed framing.width?),
      ("layout", inner), ("custom", custom), ("omit", optionListed omission)]

/-- A named part in a listing. -/
def fieldListed (name : Label) (item : String) : String :=
  recordListed "Field" [("name", name.listed), ("item", item)]

mutual

/-- A description as it stands in a listing. -/
def listed : Layout → String
  | .uint size custom omission =>
    recordListed "UintItem"
      [("size", size.listed), ("custom", custom.listed Numeral.listed),
        ("omit", optionListed omission)]
  | .blob framing custom omission =>
    bytesItemListed framing "None" (custom.listed Quoted.bytes) omission
  | .nested framing inner custom omission =>
    bytesItemListed framing inner.listed (custom.listed Empty.elim) omission
  | .array framing element custom =>
    recordListed "ArrayItem"
      [("layout", element.listed), ("length", optionListed framing.size?),
        ("length_size", optionListed framing.width?), ("custom", custom.listed Empty.elim)]
  | .switch idSize idTag cases custom =>
    recordListed "SwitchItem"
      [("id_size", idSize.listed), ("cases", parenthesised (casesListed cases)),
        ("id_tag", idTag.listed), ("custom", custom.listed Empty.elim)]
  | .record fields => parenthesised (fieldsListed fields)
  | .unknownItem => "LayoutItem()"
  | .field name item => fieldListed name item.listed
  | .tuple items => parenthesised (itemsListed items)
  | .list items => bracketed (itemsListed items)
  | .object v => v.listed

/-- The parts of a record. -/
def fieldsListed : List Field → List String
  | [] => []
  | .mk name item :: rest => fieldListed name item.listed :: fieldsListed rest

/-- The cases of a switch. -/
def casesListed : List Case → List String
  | [] => []
  | .mk id name fields :: rest =>
    recordListed "SwitchCase"
      [("id", id.listed), ("name", name.listed),
        ("layout", parenthesised (fieldsListed fields))] :: casesListed rest

/-- The elements of a sequence. -/
def itemsListed : List Layout → List String
  | [] => []
  | l :: ls => l.listed :: itemsListed ls

end

mutual

/-- Whether all integers in a description can be spelt. -/
protected def spellable : Layout → Bool
  | .uint size custom omission =>
    size.spellable && custom.spellable Numeral.spellable && optionSpellable omission
  | .blob framing custom omission =>
    framing.spellable && custom.spellable (fun _ => true) && optionSpellable omission
  | .nested framing inner custom omission =>
    framing.spellable && inner.spellable && custom.spellable Empty.elim && optionSpellable omission
  | .array framing element custom =>
    framing.spellable && element.spellable && custom.spellable Empty.elim
  | .switch idSize idTag cases custom =>
    idSize.spellable && idTag.spellable && casesSpellable cases && custom.spellable Empty.elim
  | .record fields => fieldsSpellable fields
  | .unknownItem => true
  | .field name item => name.spellable && item.spellable
  | .tuple items => itemsSpellable items
  | .list items => itemsSpellable items
  | .object v => v.spellable

/-- Whether all integers in the parts of a record can be spelt. -/
def fieldsSpellable : List Field → Bool
  | [] => true
  | .mk name item :: rest => name.spellable && item.spellable && fieldsSpellable rest

/-- Whether all integers in the cases of a switch can be spelt. -/
def casesSpellable : List Case → Bool
  | [] => true
  | .mk id name fields :: rest =>
    id.spellable && name.spellable && fieldsSpellable fields && casesSpellable rest

/-- Whether all integers in the elements of a sequence can be spelt. -/
def itemsSpellable : List Layout → Bool
  | [] => true
  | l :: ls => l.spellable && itemsSpellable ls

end

/-- A description as it stands in a sentence, as far as it can be spelt. -/
def listing (l : Layout) : Listing := ⟨l.listed, l.spellable⟩

end Layout

end WireLayout
