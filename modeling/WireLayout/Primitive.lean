import WireLayout.BigEndian
import WireLayout.MachineWord
import WireLayout.Value.Bytes

/-!
# Primitive — unsigned integers and byte blocks on their own

* `Uint.encode` — an integer in exactly `width` bytes, most significant first; truth values are no
  integers here, chains are;
* `Uint.fits` — whether an integer has room in `width` bytes;
* `Uint.decode` — the integer in the first `width` bytes;
* `Block.encode`, `Block.decode` — a block of bytes, of a given number of bytes if one is asked for.

An integer takes one of two ways: as a machine word where there is one of its width, and digit by
digit otherwise.  Each way makes its own checks.

The functions on byte lists are what layouts use; those on values accept any value as input.
-/

namespace WireLayout

/-! ## Unsigned integers -/

/-- The least width, in bytes, for which the least integer without room in it cannot be formed: it
has more digits than any integer.  Below this the memory that is needed is taken to be there. -/
def widthLimit : Int := 8646911284551352291

namespace Uint

/-- The integer a value spells, unless it is a truth value. -/
def integer? : Value → Option Int
  | .int n => some n
  | .chain c => some c.id
  | _ => none

/-- Whether an integer has room in `width` bytes.  A negative one has none whatever the width; for
others the width has to be a size, and below the limit. -/
def fits (n : Int) (width : Numeral) : Except Error Bool :=
  if n < 0 then .ok false
  else if width.value < 0 then .error (.misuse .wrongValue)
  else if widthLimit ≤ width.value then .error (.misuse .tooLarge)
  else .ok (BigEndian.fits width.value.toNat n.toNat)

/-- Whether an integer has room in a width that may be missing. -/
def fitsOption (n : Int) : Option Numeral → Except Error Bool
  | some width => fits n width
  | none => if n < 0 then .ok false else .error (.misuse .wrongType)

/-- The digits of an integer in a block of their own. -/
def digitsOf (n width : Int) : Except Error (List UInt8) := do
  let size ← blockSize width
  if n < 0 ∨ ¬ BigEndian.fits size n.toNat then .error (.misuse .tooLarge)
  else return BigEndian.encode size n.toNat

/-- An integer in exactly `width` bytes. -/
def bytesOf (n : Int) (width : Numeral) : Except Error (List UInt8) := do
  if ← fits n width then
    match MachineWord.ofWidth? width.value with
    | some word => word.pack n
    | none => digitsOf n width.value
  else .error (.outOfRange n (some width))

/-- A value as an unsigned integer of `width` bytes. -/
def encode (v : Value) (width : Numeral) : Except Error (List UInt8) :=
  match integer? v with
  | some n => bytesOf n width
  | none => .error (.unexpected .integer v.typeName)

/-- A value as an unsigned integer where the width may be missing; nothing is written then. -/
def encodeOption (v : Value) : Option Numeral → Except Error (List UInt8)
  | some width => encode v width
  | none =>
    match integer? v with
    | some n => .error (if n < 0 then .outOfRange n none else .misuse .wrongType)
    | none => .error (.unexpected .integer v.typeName)

/-- The integer that the first digits of a block denote. -/
def ofDigits (data : List UInt8) (width : Int) : Nat :=
  BigEndian.decode (sliceBetween data 0 width)

/-- The unsigned integer in the first `width` of some bytes. -/
def ofBytes (data : List UInt8) (width : Numeral) : Except Error Nat :=
  if (data.length : Int) < width.value then .error (.truncated (.integer width data.length))
  else
    match MachineWord.ofWidth? width.value with
    | some word => word.unpack data
    | none => .ok (ofDigits data width.value)

/-- The unsigned integer at the start of any value that holds bytes; machine words are read from
blocks of bytes only. -/
def decode (data : Value) (width : Numeral) : Except Error Nat :=
  match data, data.length? with
  | .bytes _ content, _ => ofBytes content width
  | _, none => .error (.misuse .wrongType)
  | v, some n =>
    if (n : Int) < width.value then .error (.truncated (.integer width n))
    else if (MachineWord.ofWidth? width.value).isSome then .error (.misuse .wrongType)
    else (v.sliceTo width.value).map BigEndian.decode

end Uint

/-! ## Blocks of bytes -/

namespace Block

/-- The content of a block of bytes. -/
def content : Value → Except Error (List UInt8)
  | .bytes _ content => .ok content
  | v => .error (.unexpected .bytes v.typeName)

/-- Accepts bytes of one count only. -/
def exactly (width : Numeral) (content : List UInt8) : Except Error (List UInt8) :=
  if (content.length : Int) = width.value then .ok content
  else .error (.byteCount width content.length)

/-- A block of bytes as it is, of `width` bytes if a width is given. -/
def encode (v : Value) (width : Option Numeral) : Except Error (List UInt8) := do
  let content ← content v
  match width with
  | none => return content
  | some w => exactly w content

/-- The first `width` bytes of a value, or all of them. -/
def decode (data : Value) (width : Option Numeral) : Except Error (List UInt8) :=
  match width, data.length? with
  | none, _ => data.toBytes
  | some _, none => .error (.misuse .wrongType)
  | some w, some n =>
    if (n : Int) < w.value then .error (.truncated (.bytes w n))
    else data.sliceTo w.value

end Block

end WireLayout
