import Mathlib.Data.List.Permutation
import WireLayout.Proofs.PriceUpdate.Encoding
import WireLayout.Proofs.PriceUpdate.Schema

/-!
# Inverse — dictionaries and commands describe each other

Commands are turned into dictionaries before they are written, and dictionaries into commands after
they were read.  Each direction looks up the schema of the chain, checks the name, and converts all
fee parameters at once.  For any schemas that are built from plain integers the directions are
inverses: what one accepts the other takes back.

* `PriceUpdate.Describes` — the dictionaries of a command for a chain, in any order;
* `PriceUpdate.commandValue` — the value of a command, from that in a dictionary;
* `PriceUpdate.commandConversion_inverse` — the directions are inverses, but for the bytes of a slot
  behind its parameters, which become zero.
-/

namespace WireLayout

namespace PriceUpdate

/-! ## Dictionaries -/

/-- A dictionary of a chain and of the name and the value of a command, in any order. -/
inductive Describes (c : Chain) (name value : Value) : Value → Prop where
  | intro {entries parts : List (Label × Value)}
      (outer : entries.Perm [(.text "chain", .chain c), (.text "command", .dict parts)])
      (inner : parts.Perm [(.text "name", name), (.text "value", value)]) :
    Describes c name value (.dict entries)

variable {schemas : Schemas} {schema : FeeSchema} {c : Chain} {name : String} {value raw v : Value}

/-- The order of the entries does not matter. -/
theorem toCommand_of_describes {name : Value} (h : Describes c name value raw) :
    toCommand schemas raw = toCommand schemas (description c name value) := by
  rcases h with ⟨outer, inner⟩
  rcases List.perm_pair.1 outer with rfl | rfl <;> rcases List.perm_pair.1 inner with rfl | rfl <;>
    rfl

/-! ## Values of commands -/

/-- The value that a command gets for the value in a dictionary. -/
def commandValue (schema : FeeSchema) (c : Chain) (name value : Value) : Except Error Value :=
  if name.same (.text feeParams) then schema.unpack value
  else do
    checkCommand schema (.chain c) name
    return value

theorem toCommand_description_ok_iff :
    toCommand schemas (description c (.text name) value) = .ok v ↔
      ∃ schema found, schemaOf schemas (.chain c) = .ok schema ∧
        commandValue schema c (.text name) value = .ok found ∧
        v = .chainCommand (.chain c) (.command (.text name) found) := by
  rw [toCommand_description, Except.bind_ok_iff]
  refine exists_congr fun schema => ?_
  unfold commandValue
  by_cases hname : (Value.text name).same (.text feeParams) = true
  · simp only [if_pos hname, Except.bind_ok_iff, Except.pure_ok_iff]
    constructor
    · rintro ⟨hschema, fees, hfees, rfl⟩
      exact ⟨fees, hschema, hfees, rfl⟩
    · rintro ⟨fees, hschema, hfees, rfl⟩
      exact ⟨hschema, fees, hfees, rfl⟩
  · simp only [if_neg hname, Except.seq_ok_iff, Except.pure_ok_iff]
    constructor
    · rintro ⟨hschema, hcheck, rfl⟩
      exact ⟨value, hschema, ⟨hcheck, rfl⟩, rfl⟩
    · rintro ⟨_, hschema, ⟨hcheck, rfl⟩, rfl⟩
      exact ⟨hschema, hcheck, rfl⟩

section

variable (other : name ≠ feeParams)

include other

theorem switchValue_of_ne :
    switchValue schema c (.text name) value = commandValue schema c (.text name) value := by
  have hname : ¬ (Value.text name).same (.text feeParams) = true := mt same_feeParams_iff.1 other
  rw [switchValue, commandValue, if_neg hname, if_neg hname]

/-- Values of other commands are passed on as they are. -/
theorem commandValue_of_ne {found : Value}
    (h : commandValue schema c (.text name) value = .ok found) : found = value := by
  rw [commandValue, if_neg (mt same_feeParams_iff.1 other), Except.seq_ok_iff,
    Except.pure_ok_iff] at h
  exact h.2.symm

end

theorem commandValue_feeParams :
    commandValue schema c (.text feeParams) value = schema.unpack value :=
  if_pos (same_feeParams_iff.2 rfl)

/-! ## Schemas of chains -/

theorem mem_of_schemaOf (h : schemaOf schemas (.chain c) = .ok schema) : schema ∈ schemas := by
  rw [schemaOf_chain_ok_iff, schemaOf?] at h
  exact List.mem_reverse.1 (List.mem_of_find?_eq_some h)

/-! ## Both directions -/

section

variable (built : ∀ schema ∈ schemas, ∃ params, schema.BuiltFrom params)

include built

/-- A command that was described is found again: all parameters at once as equal ones, any other
value as it is. -/
theorem toCommand_of_ofCommand {chain command : Value}
    (hparts : commandParts command = .ok (.text name, value))
    (h : ofCommand schemas (.chainCommand chain command) = .ok raw) :
    ∃ found, toCommand schemas raw = .ok (.chainCommand chain (.command (.text name) found)) ∧
      (name ≠ feeParams → found = value) ∧ (name = feeParams → found.same value = true) := by
  rcases ofCommand_ok_iff.1 h with ⟨c, _, _, _, schema, packed, ⟨⟩, hparts', hschema, hpacked, rfl⟩
  cases hparts.symm.trans hparts'
  by_cases hname : name = feeParams
  · subst hname
    rcases switchValue_feeParams_ok_iff.1 hpacked with ⟨u, v, w, slot, rfl, hslot, rfl⟩
    rcases built schema (mem_of_schemaOf hschema) with ⟨params, hparams⟩
    rcases hparams.holds with ⟨padding, hholds⟩
    rcases hholds.unpack_pack hslot with ⟨fees, hfees, hsame⟩
    rw [← @commandValue_feeParams schema c] at hfees
    exact ⟨fees, toCommand_description_ok_iff.2 ⟨schema, fees, hschema, hfees, rfl⟩,
      fun other => absurd rfl other, fun _ => hsame⟩
  · rw [switchValue_of_ne hname] at hpacked
    cases commandValue_of_ne hname hpacked
    exact ⟨value, toCommand_description_ok_iff.2 ⟨schema, value, hschema, hpacked, rfl⟩,
      fun _ => rfl, fun same => absurd same hname⟩

/-- A dictionary that was read as a command is found again, with zeros behind the parameters of a
slot. -/
theorem ofCommand_of_toCommand (hraw : Describes c (.text name) value raw)
    (hbytes : name = feeParams → ∃ form content, value = .bytes form content ∧
      (content.length : Int) < widthLimit)
    (h : toCommand schemas raw = .ok v) :
    ∃ value', ofCommand schemas v = .ok (description c (.text name) value') ∧
      (name ≠ feeParams → value' = value) ∧
      ∀ {form content schema params}, name = feeParams → value = .bytes form content →
        schemaOf schemas (.chain c) = .ok schema → schema.BuiltFrom params →
        value' = .raw (zeroedBehind (totalSize params).toNat content) := by
  rw [toCommand_of_describes hraw, toCommand_description_ok_iff] at h
  rcases h with ⟨schema, found, hschema, hfound, rfl⟩
  have hdescribed : ∀ {packed}, switchValue schema c (.text name) found = .ok packed →
      ofCommand schemas (.chainCommand (.chain c) (.command (.text name) found)) =
        .ok (description c (.text name) packed) := fun hpacked =>
    ofCommand_ok_iff.2 ⟨c, _, _, _, schema, _, rfl, rfl, hschema, hpacked, rfl⟩
  by_cases hname : name = feeParams
  · subst hname
    rcases hbytes rfl with ⟨form, content, rfl, hlimit⟩
    rw [commandValue_feeParams] at hfound
    have hpack : ∀ {params}, schema.BuiltFrom params →
        (∃ u v w, found = schema.kind.build u v w) ∧
          schema.pack found = .ok (zeroedBehind (totalSize params).toNat content) := by
      intro params hparams
      rcases hparams.holds with ⟨padding, hholds⟩
      exact hholds.pack_unpack hlimit hfound
    rcases built schema (mem_of_schemaOf hschema) with ⟨params, hparams⟩
    rcases hpack hparams with ⟨⟨x, y, z, hbuild⟩, hslot⟩
    refine ⟨_, hdescribed (switchValue_feeParams_ok_iff.2 ⟨x, y, z, _, hbuild, hslot, rfl⟩),
      fun other => absurd rfl other, ?_⟩
    rintro _ _ schema' params' - ⟨⟩ hschema' hparams'
    -- one schema serves a chain, and it packs in one way
    cases hschema.symm.trans hschema'
    exact congrArg Value.raw (Except.ok.inj (hslot.symm.trans (hpack hparams').2))
  · cases commandValue_of_ne hname hfound
    rw [← switchValue_of_ne hname] at hfound
    exact ⟨value, hdescribed hfound, fun _ => rfl, fun same => absurd same hname⟩

/-- Commands and dictionaries are converted into each other, whatever schemas of plain integers
serve the chains.  A command comes back as it was, or with equal parameters.  A chain in the place
of a command has a name and a number too, and comes back as the command of these.  A dictionary
comes back as it was, with zeros behind the parameters of a slot; a slot is a block of fewer than
`widthLimit` bytes, which no memory holds. -/
theorem commandConversion_inverse :
    (∀ {chain : Value} {name : String} {value raw : Value},
      ofCommand schemas (.chainCommand chain (.command (.text name) value)) = .ok raw →
      ∃ v, toCommand schemas raw = .ok v ∧
        (name ≠ feeParams → v = .chainCommand chain (.command (.text name) value)) ∧
        (name = feeParams → v.same (.chainCommand chain (.command (.text name) value)) = true)) ∧
    (∀ {chain : Value} {d : Chain} {raw : Value},
      ofCommand schemas (.chainCommand chain (.chain d)) = .ok raw →
      toCommand schemas raw = .ok (.chainCommand chain (.command (.text d.name) (.int d.id)))) ∧
    ∀ {c : Chain} {name : String} {value raw v : Value}, Describes c (.text name) value raw →
      (name = feeParams → ∃ form content, value = .bytes form content ∧
        (content.length : Int) < widthLimit) →
      toCommand schemas raw = .ok v →
      ∃ value', ofCommand schemas v = .ok (description c (.text name) value') ∧
        (name ≠ feeParams → value' = value) ∧
        ∀ {form content schema params}, name = feeParams → value = .bytes form content →
          schemaOf schemas (.chain c) = .ok schema → schema.BuiltFrom params →
          value' = .raw (zeroedBehind (totalSize params).toNat content) := by
  refine ⟨fun {chain name value raw} h => ?_, fun {chain d raw} h => ?_,
    ofCommand_of_toCommand built⟩
  · rcases toCommand_of_ofCommand built rfl h with ⟨found, hfound, hother, hfees⟩
    refine ⟨_, hfound, fun other => by rw [hother other], fun fees => ?_⟩
    rcases ofCommand_ok_iff.1 h with ⟨c, _, _, _, _, _, ⟨⟩, _⟩
    rw [same_chainCommand, same_chain, same_command, same_text_iff.2 rfl, hfees fees]
    rfl
  · rcases toCommand_of_ofCommand built rfl h with ⟨found, hfound, hother, _⟩
    rw [hfound, hother (chainName_ne_feeParams d)]

end

/-! ## Parameters in another order and of other sizes -/

/-- The price of the token in front, then those of gas. -/
def shuffledFields : List Field :=
  [.mk "gas_token_price" (plainUint 2), .mk "gas_price" (plainUint 1),
    .mk "blob_base_fee" (plainUint 3)]

/-- The names and the sizes of these fields. -/
def shuffledSizes : List (Label × Int) :=
  [("gas_token_price", 2), ("gas_price", 1), ("blob_base_fee", 3)]

theorem plain_shuffledFields : List.Forall₂ IsPlainField shuffledSizes shuffledFields :=
  .cons ⟨_, _, rfl, rfl⟩ (.cons ⟨_, _, rfl, rfl⟩ (.cons ⟨_, _, rfl, rfl⟩ .nil))

theorem names_shuffledSizes : (shuffledSizes.map Prod.fst).Perm FeeKind.evm.parameterNames := by
  decide

/-- Two bytes are left in slots of eight bytes. -/
theorem exists_shuffledSchema : ∃ schema s',
    FeeSchema.build .evm .evm (.record shuffledFields) (some 8) .empty = .ok schema s' ∧
      schema.platform = .evm ∧ schema.kind = .evm ∧ schema.BuiltFrom shuffledSizes ∧
      schema.Holds 2 shuffledSizes := by
  have haccept : (Layout.padded shuffledFields 2).accept = .ok (some 8) := rfl
  rcases Codec.exists_compile rfl haccept (optionSpellable_of_lt (by decide)) with
    ⟨codec, hcodec, hlayout⟩
  have hbuilt : FeeSchema.build .evm .evm (.record shuffledFields) (some 8) .empty = _ :=
    FeeSchema.build_ok_iff.2 ⟨_, codec, rfl, Registry.compile_new hcodec rfl, rfl⟩
  exact ⟨_, _, hbuilt, rfl, rfl,
    .intro rfl plain_shuffledFields (by decide) names_shuffledSizes hbuilt,
    names_shuffledSizes, by decide, _, hlayout, holdsParameters_padded plain_shuffledFields 2⟩

/-- Fee parameters go through a slot of eight bytes, and a slot of eight bytes through fee
parameters; the entries of its dictionary stand in another order. -/
theorem commandConversion_inverse_shuffled : ∃ schema s',
    FeeSchema.build .evm .evm (.record shuffledFields) (some 8) .empty = .ok schema s' ∧
      (∃ raw v, ofCommand [schema] (.chainCommand (.chain .ethereum)
          (.command (.text "fee_params") (.evmFees (.int 1) (.chain .bsc) (.int 3)))) = .ok raw ∧
        toCommand [schema] raw = .ok v ∧ v.same (.chainCommand (.chain .ethereum)
          (.command (.text "fee_params") (.evmFees (.int 1) (.chain .bsc) (.int 3)))) = true) ∧
      (∃ raw, ofCommand [schema] (.chainCommand (.chain .ethereum) (.chain .bsc)) = .ok raw ∧
        toCommand [schema] raw = .ok (.chainCommand (.chain .ethereum)
          (.command (.text "BSC") (.int 4)))) ∧
      ∃ v, toCommand [schema] (.dict
          [("command", .dict
              [("value", .raw [0, 3, 1, 0, 0, 4, 255, 7]), ("name", .text "fee_params")]),
            ("chain", .chain .ethereum)]) = .ok v ∧
        ofCommand [schema] v =
          .ok (description .ethereum (.text "fee_params") (.raw [0, 3, 1, 0, 0, 4, 0, 0])) := by
  rcases exists_shuffledSchema with
    ⟨⟨platform, kind, codec, names⟩, s', hbuilt, rfl, rfl, hfrom, hholds⟩
  have hserves : ∀ schema ∈ [FeeSchema.mk .evm .evm codec names],
      ∃ params, schema.BuiltFrom params := List.forall_mem_singleton.2 ⟨_, hfrom⟩
  rcases commandConversion_inverse hserves with ⟨hcommands, hchains, hdictionaries⟩
  have hpack : (FeeSchema.mk .evm .evm codec names).pack
      (FeeKind.evm.build (.int 1) (.chain .bsc) (.int 3)) = .ok [0, 3, 1, 0, 0, 4, 0, 0] :=
    hholds.pack_ok_iff.2 ⟨[[0, 3], [1], [0, 0, 4]], .cons ⟨.int 3, rfl, rfl⟩
      (.cons ⟨.int 1, rfl, rfl⟩ (.cons ⟨.chain .bsc, rfl, rfl⟩ .nil)), rfl⟩
  have hunpack : (FeeSchema.mk .evm .evm codec names).unpack (.raw [0, 3, 1, 0, 0, 4, 255, 7]) =
      .ok (FeeKind.evm.build (.int 1) (.int 4) (.int 3)) :=
    hholds.unpack_ok_iff.2 ⟨.int 1, .int 4, .int 3, [[0, 3], [1], [0, 0, 4]], [255, 7], rfl, rfl,
      rfl, .cons ⟨rfl, rfl⟩ (.cons ⟨rfl, rfl⟩ (.cons ⟨rfl, rfl⟩ .nil))⟩
  have hschema : schemaOf [FeeSchema.mk .evm .evm codec names] (.chain .ethereum) =
      .ok ⟨.evm, .evm, codec, names⟩ := rfl
  refine ⟨_, s', hbuilt, ?_, ?_, ?_⟩
  · have hraw : ofCommand [FeeSchema.mk .evm .evm codec names] (.chainCommand (.chain .ethereum)
        (.command (.text feeParams) (.evmFees (.int 1) (.chain .bsc) (.int 3)))) =
          .ok (description .ethereum (.text feeParams) (.raw [0, 3, 1, 0, 0, 4, 0, 0])) :=
      ofCommand_ok_iff.2 ⟨.ethereum, _, _, _, _, _, rfl, rfl, hschema,
        switchValue_feeParams_ok_iff.2 ⟨_, _, _, _, rfl, hpack, rfl⟩, rfl⟩
    rcases hcommands hraw with ⟨v, hv, _, hsame⟩
    exact ⟨_, v, hraw, hv, hsame rfl⟩
  · have hraw : ofCommand [FeeSchema.mk .evm .evm codec names]
        (.chainCommand (.chain .ethereum) (.chain .bsc)) =
          .ok (description .ethereum (.text "BSC") (.int 4)) := rfl
    exact ⟨_, hraw, hchains hraw⟩
  · have hdescribes : Describes .ethereum (.text feeParams) (.raw [0, 3, 1, 0, 0, 4, 255, 7])
        (.dict [("command", .dict
            [("value", .raw [0, 3, 1, 0, 0, 4, 255, 7]), ("name", .text "fee_params")]),
          ("chain", .chain .ethereum)]) := .intro (.swap _ _ _) (.swap _ _ _)
    have hfound := toCommand_description_ok_iff.2 ⟨_, _, hschema,
      commandValue_feeParams.trans hunpack, rfl⟩
    rw [← toCommand_of_describes hdescribes] at hfound
    rcases hdictionaries hdescribes (fun _ => ⟨_, _, rfl, by decide⟩) hfound with
      ⟨value', hraw, _, hslot⟩
    rw [hslot rfl rfl hschema hfrom] at hraw
    exact ⟨_, hfound, hraw⟩

/-- With a chain in its place, a command for a chain is accepted but does not come back: the command
that comes back equals no chain. -/
theorem ofCommand_chain_lost : ∃ schema s',
    FeeSchema.build .evm .evm (.record shuffledFields) (some 8) .empty = .ok schema s' ∧
      schema.BuiltFrom shuffledSizes ∧ commandParts (.chain .bsc) = .ok (.text "BSC", .int 4) ∧
      ∃ raw v, ofCommand [schema] (.chainCommand (.chain .ethereum) (.chain .bsc)) = .ok raw ∧
        toCommand [schema] raw = .ok v ∧
        v ≠ .chainCommand (.chain .ethereum) (.chain .bsc) ∧
        v.same (.chainCommand (.chain .ethereum) (.chain .bsc)) = false := by
  rcases exists_shuffledSchema with ⟨⟨platform, kind, codec, names⟩, s', hbuilt, rfl, rfl, hfrom, _⟩
  exact ⟨_, s', hbuilt, hfrom, rfl, description .ethereum (.text "BSC") (.int 4),
    .chainCommand (.chain .ethereum) (.command (.text "BSC") (.int 4)), rfl, rfl, nofun, rfl⟩

end PriceUpdate
end WireLayout
