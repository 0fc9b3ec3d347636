import WireLayout.PriceUpdate.Schema

/-!
# Command — what a price update tells one chain

A command names a fee parameter, or all of them at once, and travels with the chain it is meant for.

* `Chain.ofValue?` — the chain that a value equals;
* `PriceUpdate.chainNumber` — the number of a chain, restricted to the allowed chains;
* `PriceUpdate.commandSwitch` — a switch with one case per command;
* `PriceUpdate.commandConversion` — commands as records of their own, whose fee slot is read by the
  schema of the chain's platform.
-/

namespace WireLayout

namespace Chain

/-- The chain whose number a value equals. -/
def ofValue? (v : Value) : Option Chain :=
  all.find? fun c => v.same (.int c.id)

/-- The platform of the chain that a value equals. -/
def platformOfValue (v : Value) : Except Error Platform :=
  match ofValue? v with
  | some c => .ok c.platform
  | none => .error (.notAChain v)

end Chain

namespace PriceUpdate

/-! ## Chains -/

/-- Chains that may be addressed: their numbers, or all chains. -/
abbrev AllowedChains := Option (List Numeral)

/-- A chain, if it is allowed. -/
def allowedChain (allowed : AllowedChains) (c : Chain) : Except Error Chain :=
  match allowed with
  | none => .ok c
  | some ns => if ns.any fun n => n.value == c.id then .ok c else .error (.chainNotAllowed c)

/-- The allowed chain with a number. -/
def chainOfNumber (allowed : AllowedChains) (v : Value) : Except Error Value :=
  match Chain.ofValue? v with
  | none => .error (.unknownChainId v)
  | some c => (allowedChain allowed c).map .chain

/-- The number of an allowed chain. -/
def numberOfChain (allowed : AllowedChains) : Value → Except Error Value
  | .chain c => (allowedChain allowed c).map fun c => .int c.id
  | v => .error (.unexpected .chain v.typeName)

/-- The conversion between numbers and allowed chains. -/
def chainConversion (serial : Nat) (allowed : AllowedChains) : Conversion :=
  ⟨.issued serial, chainOfNumber allowed, numberOfChain allowed⟩

/-- A chain by its number in two bytes. -/
def chainNumber (allowed : AllowedChains) : Building Layout := do
  let serial ← Registry.issue
  return .uint 2 (.converted (chainConversion serial allowed)) .off

/-! ## Commands -/

/-- The case of a command whose value has a given layout. -/
def commandCase (id : Numeral) (name : Label) (value : Layout) : Case :=
  .mk id name [.mk "value" value]

/-- The command that sets all fee parameters. -/
def feeParams : String := "fee_params"

/-- The command with its value: all parameters in a slot, or one of them. -/
def commandCases (slotSize : Option Numeral) : List Case :=
  [commandCase 0 feeParams (.blob (Framing.ofSize slotSize) .plain .off),
    commandCase 1 "gas_price" gasPrice,
    commandCase 2 "blob_base_fee" blobBaseFee,
    commandCase 3 "gas_token_price" gasTokenPrice,
    commandCase 4 "solana_account_overhead" accountOverhead,
    commandCase 5 "solana_size_cost" sizeCost]

/-- A command by its number in one byte. -/
def commandSwitch (slotSize : Option Numeral) : Layout :=
  .switch 1 "name" (commandCases slotSize) .plain

/-- The name of every command. -/
def commandNames : List Label := (commandCases defaultSlotSize).map Case.name

/-- A chain and a command for it. -/
def entryBody (allowed : AllowedChains) (slotSize : Option Numeral) : Building Layout := do
  let chain ← chainNumber allowed
  return .record [.mk "chain" chain, .mk "command" (commandSwitch slotSize)]

/-! ## Commands as records -/

/-- Schemas by platform; of two for one platform the later counts. -/
abbrev Schemas := List FeeSchema

/-- The schema of a platform. -/
def schemaOf? (schemas : Schemas) (p : Platform) : Option FeeSchema :=
  schemas.reverse.find? fun s => s.platform == p

/-- The schema for the chain that a value equals. -/
def schemaOf (schemas : Schemas) (chain : Value) : Except Error FeeSchema := do
  let p ← Chain.platformOfValue chain
  match schemaOf? schemas p with
  | some s => return s
  | none => .error (.platformWithoutFees p)

/-- Refuses a command that exists but not on the platform; unknown names are left to the switch. -/
def checkCommand (schema : FeeSchema) (chain name : Value) : Except Error Unit :=
  if !name.isKey then .error (.misuse .wrongType)
  else
    match name with
    | .text s =>
      if commandNames.contains (.text s) && !schema.names.contains (.text s) then
        match chain with
        | .chain c => .error (.commandNotOnPlatform s c schema.platform)
        | _ => .error (.misuse .noAttribute)
      else .ok ()
    | _ => .ok ()

/-- The command for a chain that a decoded dictionary describes. -/
def toCommand (schemas : Schemas) (raw : Value) : Except Error Value := do
  let chain ← raw.part "chain"
  let name ← raw.part "command" >>= Value.part "name"
  let value ← raw.part "command" >>= Value.part "value"
  let schema ← schemaOf schemas chain
  if name.same (.text feeParams) then
    let fees ← schema.unpack value
    return .chainCommand chain (.command name fees)
  else
    checkCommand schema chain name
    return .chainCommand chain (.command name value)

/-- The name and the value of a command; a chain has both as well. -/
def commandParts : Value → Except Error (Value × Value)
  | .command name value => .ok (name, value)
  | .chain c => .ok (.text c.name, .int c.id)
  | _ => .error (.misuse .noAttribute)

/-- Fee parameters of the kind that a schema asks for. -/
def feesFor (schema : FeeSchema) (c : Chain) (value : Value) : Except Error Value :=
  if FeeKind.evm.holds value || FeeKind.solana.holds value then
    if schema.kind.holds value then .ok value
    else .error (.feesOfOtherPlatform value.typeName c schema.platform)
  else .error (.unexpected .fees value.typeName)

/-- The dictionary that describes a command for a chain. -/
def ofCommand (schemas : Schemas) : Value → Except Error Value
  | .chainCommand chain command => do
    let (name, value) ← commandParts command
    match chain with
    | .chain c =>
      let schema ← schemaOf schemas chain
      let value ←
        if name.same (.text feeParams) then do
          let fees ← feesFor schema c value
          let slot ← schema.pack fees
          pure (Value.raw slot)
        else do
          checkCommand schema chain name
          pure value
      return .dict [("chain", chain), ("command", .dict [("name", name), ("value", value)])]
    | v => .error (.unexpected .chain v.typeName)
  | v => .error (.unexpected .chainCommand v.typeName)

/-- The conversion between dictionaries and commands. -/
def commandConversion (serial : Nat) (schemas : Schemas) : Conversion :=
  ⟨.issued serial, toCommand schemas, ofCommand schemas⟩

/-- A new conversion between dictionaries and commands. -/
def newCommandConversion (schemas : Schemas) : Building Conversion := do
  let serial ← Registry.issue
  return commandConversion serial schemas

end PriceUpdate

end WireLayout
