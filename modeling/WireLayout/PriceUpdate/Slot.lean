import WireLayout.Layout.Definition
import WireLayout.Layout.StaticSize

/-!
# Slot — fee parameters and the slot that holds them

The fee parameters of a platform are a record of unsigned integers.  They travel in a slot of fixed
size: `padToSlot` pads a record with zero bytes that are skipped when reading.
-/

namespace WireLayout

/-- The number of bytes of a slot unless another is asked for. -/
def defaultSlotSize : Option Numeral := some 32

/-- Which fee parameters a platform uses. -/
inductive FeeKind where
  | evm
  | solana
  deriving DecidableEq, Repr, Inhabited

namespace FeeKind

/-- The names of the parameters, in their order. -/
def parameterNames : FeeKind → List Label
  | .evm => ["gas_price", "blob_base_fee", "gas_token_price"]
  | .solana => ["solana_account_overhead", "solana_size_cost", "gas_token_price"]

/-- The parameters of a kind with given values. -/
def build : FeeKind → Value → Value → Value → Value
  | .evm, a, b, c => .evmFees a b c
  | .solana, a, b, c => .solanaFees a b c

/-- The parameters of a kind, taken by name from a dictionary that has nothing else. -/
def ofEntries (kind : FeeKind) (entries : List (Label × Value)) : Except Error Value :=
  match kind.parameterNames.map fun name => Value.entry? name entries with
  | [some a, some b, some c] =>
    if entries.length = 3 then .ok (kind.build a b c) else .error (.misuse .wrongType)
  | _ => .error (.misuse .wrongType)

/-- Whether a value holds parameters of a kind. -/
def holds : FeeKind → Value → Bool
  | .evm, .evmFees .. => true
  | .solana, .solanaFees .. => true
  | _, _ => false

end FeeKind

namespace PriceUpdate

/-! ## Layouts of the parameters -/

/-- An unsigned integer of a number of bytes without further attributes. -/
def plainUint (size : Numeral) : Layout := .uint size .plain .off

/-- The price of gas. -/
def gasPrice : Layout := plainUint 4

/-- The base fee of a blob. -/
def blobBaseFee : Layout := plainUint 4

/-- The price of the token that pays for gas. -/
def gasTokenPrice : Layout := plainUint 6

/-- The overhead of an account. -/
def accountOverhead : Layout := plainUint 4

/-- The cost of a byte of storage. -/
def sizeCost : Layout := plainUint 4

/-- The fee parameters of chains with gas and blobs. -/
def evmFees : Layout :=
  .record [.mk "gas_price" gasPrice, .mk "blob_base_fee" blobBaseFee,
    .mk "gas_token_price" gasTokenPrice]

/-- The fee parameters of chains with accounts and storage. -/
def solanaFees : Layout :=
  .record [.mk "solana_account_overhead" accountOverhead, .mk "solana_size_cost" sizeCost,
    .mk "gas_token_price" gasTokenPrice]

/-! ## Padding -/

/-- The elements of a layout that is a sequence. -/
def elements? : Layout → Option (List Layout)
  | .record fields => some (fields.map fun f => .field f.name f.item)
  | .tuple items => some items
  | .list items => some items
  | _ => none

/-- Bytes that are written and skipped. -/
def reserved (content : List UInt8) : Layout :=
  .field "reserved" (.blob .unframed (.constant content) .on)

/-- Pads a record of static size with zero bytes up to the size of a slot; the record is measured
first, then the slot has to have a size. -/
def padToSlot (l : Layout) (slotSize : Option Numeral) : Except Error Layout := do
  match ← l.measure, slotSize with
  | none, _ => Layout.faulty .slotNotStatic
  | some _, none => .error (.misuse .wrongType)
  | some size, some slotSize =>
    if slotSize.value < size.value then Layout.faulty (.slotTooSmall size slotSize)
    else
      match elements? l with
      | none => .error (.misuse .wrongType)
      | some items => do
        let padding ← Value.zeroBytes (slotSize.value - size.value)
        return Layout.ofItems (items ++ [reserved padding])

end PriceUpdate

end WireLayout
