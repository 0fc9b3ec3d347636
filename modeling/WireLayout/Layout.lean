import WireLayout.Conversion

/-!
# Layout — descriptions of binary layouts

A layout is an item or a record.

* `uint` — an unsigned integer of a number of bytes, most significant first;
* `blob` — bytes as they are;
* `nested` — a layout inside a frame of bytes;
* `array` — elements that share one layout;
* `switch` — one of several records, told apart by a number;
* `record` — named fields one after the other.

A frame is fixed, counted by a number written before it, or open.  An item may carry a constant
that is written whatever the value, or a conversion around its values.  Integers and blocks may ask
to be left out of decoded records; only those that carry a constant can.

Other objects may stand where a layout is expected, and are found out only when the layout is
measured or compiled: an item of unknown kind, a field on its own, sequences that are no records,
and values.
-/

namespace WireLayout

/-- How the extent of a block or an array is known. -/
inductive Framing where
  /-- Known in advance. -/
  | fixed (size : Numeral)
  /-- Written before the content, in a number of bytes. -/
  | counted (width : Numeral)
  /-- Whatever the surrounding frame leaves. -/
  | unframed
  deriving DecidableEq, Repr, Inhabited

/-- The extent known in advance, or none if no size is given. -/
def Framing.ofSize : Option Numeral → Framing
  | some size => .fixed size
  | none => .unframed

/-- What an item carries besides its structure; `α` is the type of the constants it may carry. -/
inductive Custom (α : Type) where
  /-- Nothing. -/
  | plain
  /-- A conversion around the item's values. -/
  | converted (conversion : Conversion)
  /-- A constant that is always written. -/
  | constant (value : α)
  /-- An attribute that is neither, and is refused when the layout is compiled. -/
  | unsuitable (value : Value)

/-- Whether an item asks to be left out of decoded records, as written; a missing answer and zero
mean that it stays. -/
abbrev Omission := Option Numeral

namespace Omission

/-- The item stays. -/
def off : Omission := some (.truth false)

/-- The item is left out. -/
def on : Omission := some (.truth true)

/-- Whether an item asks to be left out. -/
def isOn (o : Omission) : Bool := o.any Numeral.isOn

@[simp] theorem isOn_off : isOn off = false := rfl

@[simp] theorem isOn_on : isOn on = true := rfl

end Omission

mutual

/-- A description, or an object that stands in the place of one. -/
inductive Layout where
  | uint (size : Numeral) (custom : Custom Numeral) (omission : Omission)
  | blob (framing : Framing) (custom : Custom (List UInt8)) (omission : Omission)
  | nested (framing : Framing) (inner : Layout) (custom : Custom Empty) (omission : Omission)
  | array (framing : Framing) (element : Layout) (custom : Custom Empty)
  | switch (idSize : Numeral) (idTag : Label) (cases : List Case) (custom : Custom Empty)
  | record (fields : List Field)
  /-- An item of none of these kinds. -/
  | unknownItem
  /-- A field that stands outside a record. -/
  | field (name : Label) (item : Layout)
  /-- A sequence with other parts than fields. -/
  | tuple (items : List Layout)
  /-- A sequence that can still change; it becomes a record or a tuple where it is used. -/
  | list (items : List Layout)
  /-- A value, which is never a layout. -/
  | object (value : Value)

/-- A named part of a record. -/
inductive Field where
  | mk (name : Label) (item : Layout)

/-- One of the records of a switch, with the number and the name that select it. -/
inductive Case where
  | mk (id : Numeral) (name : Label) (fields : List Field)

end

instance : Inhabited Layout := ⟨.unknownItem⟩

namespace Field

/-- The name of a field. -/
def name : Field → Label
  | mk name _ => name

/-- The layout of a field. -/
def item : Field → Layout
  | mk _ item => item

end Field

namespace Case

/-- The number of a case. -/
def id : Case → Numeral
  | mk id _ _ => id

/-- The name of a case. -/
def name : Case → Label
  | mk _ name _ => name

/-- The record of a case. -/
def fields : Case → List Field
  | mk _ _ fields => fields

end Case

namespace Layout

/-- The fields that a sequence consists of, if it has only fields. -/
def fieldsOf? : List Layout → Option (List Field)
  | [] => some []
  | .field name item :: rest => (fieldsOf? rest).map (Field.mk name item :: ·)
  | _ :: _ => none

/-- A sequence that can no longer change: a record if it has only fields. -/
def ofItems (items : List Layout) : Layout :=
  match fieldsOf? items with
  | some fields => .record fields
  | none => .tuple items

/-- Makes a list unchangeable; what the list holds stays as it is. -/
def settle : Layout → Layout
  | .list items => ofItems items
  | l => l

mutual

/-- The object that a value is when it stands in the place of a layout. -/
def ofValue : Value → Layout
  | .list items => .list (ofValues items)
  | .tuple items => ofItems (ofValues items)
  | v => .object v

/-- The objects that several values are. -/
def ofValues : List Value → List Layout
  | [] => []
  | v :: vs => ofValue v :: ofValues vs

end

/-- Whether a description is an item of some kind. -/
def isItem : Layout → Bool
  | .uint .. | .blob .. | .nested .. | .array .. | .switch .. | .unknownItem => true
  | _ => false

/-- Whether a description is a record. -/
def isRecord : Layout → Bool
  | .record _ => true
  | _ => false

end Layout

end WireLayout
