import WireLayout.Codec.Decode
import WireLayout.Codec.Encode
import WireLayout.Layout.Check
import WireLayout.Layout.Equality

/-!
# Codec — compiled layouts

A codec is a layout that has passed its checks, together with its static size.  It can be made only
by `Codec.compile`, and carries the evidence.

* `Codec.encode`, `Codec.write` — a value as bytes, on a new or a given writer;
* `Codec.decode` — the value that a block of bytes holds, all of it unless told otherwise;
* `Codec.read` — one value from a cursor, leaving what follows.
-/

namespace WireLayout

namespace Layout

/-- Checks a description, then measures it. -/
def accept (l : Layout) : Except Error (Option Numeral) := do
  l.check
  l.staticSize

end Layout

/-- A checked layout and its size. -/
structure Codec where
  layout : Layout
  staticSize : Option Numeral
  accepted : layout.accept = .ok staticSize

namespace Codec

/-- The codec of a layout, if the layout passes its checks. -/
def ofLayout (l : Layout) : Except Error Codec :=
  match h : l.accept with
  | .ok size => .ok ⟨l, size, h⟩
  | .error e => .error e

/-- Descriptions that can be compiled at all: items and records without parts that may change. -/
def lookUpForm (l : Layout) : Except Error Layout :=
  let frozen := l.settle
  if frozen.isItem || frozen.isRecord then
    if frozen.isKey then .ok frozen else .error (.misuse .wrongType)
  else .error (.definition (.notALayout frozen.listing))

/-- A new codec is reported with its static size, which has to be spelt for that. -/
def report (c : Codec) : Except Error Unit :=
  if optionSpellable c.staticSize then .ok () else .error (.misuse .wrongValue)

/-- Compiles a description on its own. -/
def compile (l : Layout) : Except Error Codec := do
  let frozen ← lookUpForm l
  let c ← ofLayout frozen
  c.report
  return c

/-! ## Encoding -/

/-- Appends the bytes of a value to a writer. -/
def write (c : Codec) (v : Value) : Encoding Unit := c.layout.encode v

/-- The bytes of a value. -/
def encode (c : Codec) (v : Value) : Except Error (List UInt8) :=
  Writer.collect (c.write v)

/-! ## Decoding -/

/-- Reads one value from a cursor. -/
def read (c : Codec) : Decoding Value := c.layout.decode

/-- The value that a block of bytes holds; `whole` asks that nothing be left over. -/
def decode (c : Codec) (data : List UInt8) (whole : Bool) : Except Error Value :=
  match c.read (Reader.ofBytes data) with
  | .ok v r =>
    if whole && r.remaining != 0 then .error (.inputLeft r.remaining) else .ok v
  | .error e _ => .error e

end Codec

end WireLayout
