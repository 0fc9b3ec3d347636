import WireLayout.Decimal
import WireLayout.Label

/-!
# Value — the values that layouts encode and decode

Values are dynamic: whether a value suits a layout is found out by encoding it.  A decoded value is
made of numbers, bytes, texts, lists and dictionaries; conversions add chains, fee parameters and
commands.

There are no values but these.  Objects of other kinds have no place here, not even those that have
a name and a value as a command has, and nor have objects of a kind that is derived from one of
these and behaves in a way of its own.

* `Value.typeName` — the name of a value's kind in messages;
* `Value.numeral?` — the value as an integer;
* `Value.ofLabel` — a label as a value;
* `Value.entry?` — the entry of a dictionary under a label;
* `Value.isKey` — whether a value may serve as a key: it holds nothing that can change.
-/

namespace WireLayout

/-- How a block of bytes is held.  Windows are for reading only: a block that can be written through
one is none of these forms. -/
inductive BytesForm where
  /-- A block of its own that never changes. -/
  | frozen
  /-- A block of its own that may change. -/
  | growing
  /-- A window on a block held elsewhere, for reading. -/
  | view
  deriving DecidableEq, Repr, Inhabited

/-- A dynamic value of exactly one of the kinds listed.  The keys of dictionaries are labels, and
the parts of fee parameters and commands may be any values. -/
inductive Value where
  | none
  | bool (b : Bool)
  | int (n : Int)
  | chain (c : Chain)
  | float (x : Decimal)
  | text (s : String)
  | bytes (form : BytesForm) (content : List UInt8)
  | list (items : List Value)
  | tuple (items : List Value)
  | dict (entries : List (Label × Value))
  | evmFees (gasPrice blobBaseFee gasTokenPrice : Value)
  | solanaFees (accountOverhead sizeCost gasTokenPrice : Value)
  | command (name value : Value)
  | chainCommand (chain command : Value)
  deriving Repr, Inhabited

namespace Value

/-- Immutable bytes, the form that decoding yields. -/
abbrev raw (content : List UInt8) : Value := .bytes .frozen content

/-- The name of a value's kind. -/
def typeName : Value → String
  | .none => "NoneType"
  | .bool _ => "bool"
  | .int _ => "int"
  | .chain _ => "Chain"
  | .float _ => "float"
  | .text _ => "str"
  | .bytes .frozen _ => "bytes"
  | .bytes .growing _ => "bytearray"
  | .bytes .view _ => "memoryview"
  | .list _ => "list"
  | .tuple _ => "tuple"
  | .dict _ => "dict"
  | .evmFees .. => "EvmFeeParams"
  | .solanaFees .. => "SolanaFeeParams"
  | .command .. => "Command"
  | .chainCommand .. => "ChainCommand"

/-- The value as an integer, with its spelling. -/
def numeral? : Value → Option Numeral
  | .int n => some (.plain n)
  | .bool b => some (.truth b)
  | .chain c => some (.chain c)
  | _ => Option.none

/-- The value that spells a numeral. -/
def ofNumeral : Numeral → Value
  | .plain n => .int n
  | .truth b => .bool b
  | .chain c => .chain c

@[simp] theorem numeral?_ofNumeral (n : Numeral) : (ofNumeral n).numeral? = some n := by
  cases n <;> rfl

/-- The value that spells a label. -/
def ofLabel : Label → Value
  | .text s => .text s
  | .numeral n => ofNumeral n
  | .absent => .none

/-- The value under a key in a list of entries. -/
def entry? (key : Label) : List (Label × Value) → Option Value
  | [] => Option.none
  | (k, v) :: rest => if k.same key then some v else entry? key rest

/-! ## Keys -/

mutual

/-- Whether a value may serve as a key. -/
def isKey : Value → Bool
  | .none | .bool _ | .int _ | .chain _ | .float _ | .text _ => true
  | .bytes form _ => form != .growing
  | .list _ | .dict _ => false
  | .tuple items => areKeys items
  | .evmFees a b c => a.isKey && b.isKey && c.isKey
  | .solanaFees a b c => a.isKey && b.isKey && c.isKey
  | .command a b => a.isKey && b.isKey
  | .chainCommand a b => a.isKey && b.isKey

/-- Whether all values may serve as keys. -/
def areKeys : List Value → Bool
  | [] => true
  | v :: vs => v.isKey && areKeys vs

end

end Value

end WireLayout
