import WireLayout.PriceUpdate.Slot
import WireLayout.Registry

/-!
# Schema — how one platform lays out its fee parameters

A schema ties a platform to a kind of fee parameters and to the codec of its slot.

* `FeeSchema.pack` — parameters as the bytes of a slot;
* `FeeSchema.unpack` — the parameters that a slot holds.
-/

namespace WireLayout

/-- The fee parameters of a platform and the codec of its slot. -/
structure FeeSchema where
  platform : Platform
  kind : FeeKind
  codec : Codec
  names : List Label

namespace Value

mutual

/-- A value with its records turned into dictionaries; a view of bytes cannot be copied. -/
def plainCopy : Value → Except Error Value
  | .bytes .view _ => .error (.misuse .wrongType)
  | .list items => do
    let copies ← plainCopies items
    return .list copies
  | .tuple items => do
    let copies ← plainCopies items
    return .tuple copies
  | .dict entries => do
    let copies ← plainEntries entries
    return .dict copies
  | .evmFees a b c => do
    let a ← plainCopy a
    let b ← plainCopy b
    let c ← plainCopy c
    return .dict [("gas_price", a), ("blob_base_fee", b), ("gas_token_price", c)]
  | .solanaFees a b c => do
    let a ← plainCopy a
    let b ← plainCopy b
    let c ← plainCopy c
    return .dict [("solana_account_overhead", a), ("solana_size_cost", b), ("gas_token_price", c)]
  | .command a b => do
    let a ← plainCopy a
    let b ← plainCopy b
    return .dict [("name", a), ("value", b)]
  | .chainCommand a b => do
    let a ← plainCopy a
    let b ← plainCopy b
    return .dict [("chain", a), ("command", b)]
  | v => .ok v
termination_by structural v => v

/-- Copies of several values. -/
def plainCopies : List Value → Except Error (List Value)
  | [] => .ok []
  | v :: vs => do
    let copy ← plainCopy v
    let copies ← plainCopies vs
    return copy :: copies
termination_by structural vs => vs

/-- Copies of the entries of a dictionary. -/
def plainEntries : List (Label × Value) → Except Error (List (Label × Value))
  | [] => .ok []
  | (k, v) :: rest => do
    let copy ← plainCopy v
    let copies ← plainEntries rest
    return (k, copy) :: copies
termination_by structural entries => entries

end

/-- Whether a value is a record of named parts. -/
def isRecord : Value → Bool
  | .evmFees .. | .solanaFees .. | .command .. | .chainCommand .. => true
  | _ => false

/-- The dictionary of a record's parts. -/
def toDict (v : Value) : Except Error Value :=
  if v.isRecord then v.plainCopy else .error (.misuse .wrongType)

end Value

namespace FeeSchema

/-- The names of the fields of a record, written as a record or as a list. -/
def fieldNames (l : Layout) : List Label :=
  match l.settle with
  | .record fields => fields.map Field.name
  | _ => []

/-- Compiles the slot of a platform. -/
def build (platform : Platform) (kind : FeeKind) (l : Layout) (slotSize : Option Numeral) :
    Building FeeSchema := do
  let slot ← Building.ofExcept (PriceUpdate.padToSlot l slotSize)
  let codec ← Registry.compile slot
  return ⟨platform, kind, codec, fieldNames l⟩

/-- The order of labels of one kind, if they are of one kind. -/
def labelLE? : Label → Label → Option Bool
  | .text s, .text t => some (decide (s ≤ t))
  | .numeral m, .numeral n => some (decide (m.value ≤ n.value))
  | _, _ => none

/-- The names of the commands that suit the platform, in increasing order, if each two of them can
be ordered. -/
def sortedNames (s : FeeSchema) : Except Error (List Label) :=
  if s.names.Pairwise fun a b => (labelLE? a b).isSome then
    .ok (s.names.mergeSort fun a b => (labelLE? a b).getD false)
  else .error (.misuse .wrongType)

/-- Parameters as the bytes of a slot. -/
def pack (s : FeeSchema) (params : Value) : Except Error (List UInt8) := do
  let entries ← params.toDict
  s.codec.encode entries

/-- The parameters in the bytes of a slot. -/
def unpack (s : FeeSchema) (data : Value) : Except Error Value := do
  let content ← data.toBytes
  match ← s.codec.decode content true with
  | .dict entries => s.kind.ofEntries entries
  | _ => .error (.misuse .wrongType)

end FeeSchema

end WireLayout
