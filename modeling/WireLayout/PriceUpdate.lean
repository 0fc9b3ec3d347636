import WireLayout.PriceUpdate.Command

/-!
# PriceUpdate — messages that update the fee parameters of chains

A message is a count in one byte and that many entries.  An entry is its length in one byte, the
number of a chain in two, the number of a command in one, and the command's value.

* `PriceUpdate.messageLayout` — the layout of messages to given chains with slots of a given size;
* `PriceUpdate.standard` — the layout for the chains and the slot size used by default;
* `PriceUpdate.serialize`, `PriceUpdate.deserialize` — messages as bytes and back.

A message that fails in any part is refused as a whole.
-/

namespace WireLayout
namespace PriceUpdate

/-- The chains that messages may address by default. -/
def defaultChains : List Numeral := [.chain .ethereum, .chain .solana]

/-- Refuses a chain whose platform has no schema. -/
def checkChain (schemas : Schemas) (n : Numeral) : Except Error Unit := do
  let p ← Chain.platformOfValue (.ofNumeral n)
  if (schemaOf? schemas p).isSome then return ()
  else
    match n with
    | .chain c => .error (.definition (.chainWithoutFees c))
    | _ => .error (.misuse .noAttribute)

/-- Refuses the first chain whose platform has no schema. -/
def checkChains (schemas : Schemas) : List Numeral → Except Error Unit
  | [] => .ok ()
  | n :: ns => do
    checkChain schemas n
    checkChains schemas ns

/-- Chains are named members; bare numbers are not enough to address one. -/
def allNamed (allowed : List Numeral) : Except Error Unit :=
  if allowed.all fun n => n matches .chain _ then .ok () else .error (.misuse .noAttribute)

/-- The layout of messages to the allowed chains. -/
def messageLayout (allowed : List Numeral) (slotSize : Option Numeral) : Building Layout := do
  let evm ← FeeSchema.build .evm .evm evmFees slotSize
  let solana ← FeeSchema.build .solana .solana solanaFees slotSize
  let schemas := [evm, solana]
  Building.ofExcept (checkChains schemas allowed)
  let body ← entryBody (some allowed) slotSize
  let conversion ← newCommandConversion schemas
  Building.ofExcept (allNamed allowed)
  return .array (.counted 1) (.nested (.counted 1) body (.converted conversion) .off) .plain

/-! ## The layout used by default -/

/-- Building the default layout on an empty registry. -/
def standardBuild : EStateM.Result Error Registry Layout :=
  messageLayout defaultChains defaultSlotSize Registry.empty

/-- The layout used by default. -/
def standard : Layout :=
  match standardBuild with
  | .ok l _ => l
  | .error _ _ => .record []

/-- A registry without codecs whose serial numbers follow those of the default layout. -/
def freshRegistry : Registry :=
  match standardBuild with
  | .ok _ s => ⟨[], s.nextSerial⟩
  | .error _ s => ⟨[], s.nextSerial⟩

/-- A message as bytes, in the default layout. -/
def serialize (update : Value) : Except Error (List UInt8) := do
  let c ← Codec.compile standard
  c.encode update

/-- The message that some bytes hold, in the default layout. -/
def deserialize (data : List UInt8) : Except Error Value := do
  let c ← Codec.compile standard
  c.decode data true

end PriceUpdate
end WireLayout
