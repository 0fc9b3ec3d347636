import WireLayout.PriceUpdate
import WireLayout.Proofs.Construction
import WireLayout.Proofs.PriceUpdate.Schema
import WireLayout.Proofs.Registration

/-!
# Build — the layout of messages to given chains

Building a layout of messages compiles the slots of both platforms in a registry, which may know
equal layouts already, and makes two conversions.

* `PriceUpdate.message` — the layout of messages, given the schemas and the serial numbers;
* `PriceUpdate.Suits` — the schemas find a slot for every chain with fee parameters;
* `PriceUpdate.slot_of_messageLayout` — layouts are built only for slots with room for the
  parameters;
* `PriceUpdate.form_of_messageLayout` — layouts that were built are of that form, to chains with
  fees;
* `PriceUpdate.exists_messageLayout` — for such chains a layout is built in any registry.
-/

namespace WireLayout

namespace PriceUpdate

variable {kind : FeeKind} {padding : Nat}

/-! ## Slots -/

/-- The description of a slot as it is built. -/
def slotOf (x y z : String) (padding : Nat) : Layout :=
  .record [.mk (.text x) (plainUint 4), .mk (.text y) (plainUint 4), .mk (.text z) (plainUint 6),
    .mk "reserved" (.blob .unframed (.constant (List.replicate padding 0)) .on)]

/-- The description of three parameters. -/
def parametersOf (x y z : String) : Layout :=
  .record [.mk (.text x) (plainUint 4), .mk (.text y) (plainUint 4), .mk (.text z) (plainUint 6)]

theorem isSlot_slotOf {x y z : String} (names : kind.parameterNames = [.text x, .text y, .text z]) :
    IsSlot kind padding (slotOf x y z padding) :=
  .intro names rfl rfl rfl rfl

theorem isSlot_of_same {l : Layout} {x y z : String}
    (names : kind.parameterNames = [.text x, .text y, .text z])
    (h : l.same (slotOf x y z padding) = true) (hchecked : l.Everywhere Layout.Checked) :
    IsSlot kind padding l := by
  rcases isSlot_iff.1 (isSlot_slotOf names) with ⟨x, y, z, _, names, ⟨⟩, hholds⟩
  rcases hholds.of_same (by simp) h hchecked with ⟨fields, rfl, hfound⟩
  exact isSlot_iff.2 ⟨x, y, z, fields, names, rfl, hfound⟩

/-! ## Schemas -/

variable {slot : Numeral}

/-- Three parameters take fourteen bytes, and the padding the others. -/
theorem padToSlot_parametersOf_some (x y z : String) :
    padToSlot (parametersOf x y z) (some slot) =
      padFields [.mk (.text x) (plainUint 4), .mk (.text y) (plainUint 4),
        .mk (.text z) (plainUint 6)] slot (some (.plain 14)) :=
  padToSlot_record rfl rfl

theorem padToSlot_parametersOf {x y z : String} (hlow : 14 ≤ slot.value)
    (hhigh : slot.value - 14 < blockLimit) :
    padToSlot (parametersOf x y z) (some slot) =
      .ok (slotOf x y z (slot.value - 14).toNat) := by
  rw [padToSlot_parametersOf_some, padFields, Numeral.value_plain, if_neg (by omega),
    if_neg (by omega)]
  rfl

/-- Only a slot with room for three parameters, and with a padding that is a block of bytes, can be
filled up. -/
theorem slot_of_padToSlot {x y z : String} {slotSize : Option Numeral} {l : Layout}
    (h : padToSlot (parametersOf x y z) slotSize = .ok l) :
    ∃ slot : Numeral, slotSize = some slot ∧ 14 ≤ slot.value ∧ slot.value - 14 < blockLimit := by
  cases slotSize with
  | none => cases h
  | some slot =>
    rw [padToSlot_parametersOf_some, padFields, Numeral.value_plain] at h
    split at h
    · cases h
    · split at h
      · cases h
      · exact ⟨slot, rfl, by omega, by omega⟩

theorem accept_slotOf {x y z : String} (names : kind.parameterNames = [.text x, .text y, .text z]) :
    (slotOf x y z padding).accept = .ok (some (.plain (14 + padding))) := by
  have hcheck : (slotOf x y z padding).check = .ok () := by
    cases kind <;> cases names <;> rfl
  have hsize : (slotOf x y z padding).staticSize =
      .ok (some (.plain (14 + (List.replicate padding (0 : UInt8)).length))) := rfl
  rw [Layout.accept, hcheck, hsize, List.length_replicate]
  rfl

/-- The schema serves a platform with fee parameters of a kind. -/
structure Serves (kind : FeeKind) (padding : Nat) (schema : FeeSchema) : Prop where
  kind_eq : schema.kind = kind
  names_eq : schema.names = kind.parameterNames
  isSlot : IsSlot kind padding schema.codec.layout

theorem build_ok {platform : Platform} {x y z : String} {s s' : Registry} {schema : FeeSchema}
    (names : kind.parameterNames = [.text x, .text y, .text z]) (hlow : 14 ≤ slot.value)
    (hhigh : slot.value - 14 < blockLimit)
    (h : FeeSchema.build platform kind (parametersOf x y z) (some slot) s = .ok schema s') :
    schema.platform = platform ∧ Serves kind (slot.value - 14).toNat schema := by
  rcases FeeSchema.build_ok_iff.1 h with ⟨_, c, hslot, hcompile, rfl⟩
  cases (padToSlot_parametersOf hlow hhigh).symm.trans hslot
  refine ⟨rfl, rfl, names.symm, ?_⟩
  -- the codec is new, or one of an equal description that the registry had
  rcases Registry.compile_ok hcompile with ⟨_, ⟨⟩, hlayout | hlayout⟩
  · rw [hlayout]
    exact isSlot_slotOf names
  · exact isSlot_of_same names hlayout c.everywhere_checked

theorem exists_build (platform : Platform) {x y z : String}
    (names : kind.parameterNames = [.text x, .text y, .text z]) (hlow : 14 ≤ slot.value)
    (hhigh : slot.value - 14 < blockLimit) (s : Registry) :
    ∃ schema s', FeeSchema.build platform kind (parametersOf x y z) (some slot) s =
      .ok schema s' := by
  have hspelt : optionSpellable (some (.plain (14 + (slot.value - 14).toNat))) = true := by
    rw [optionSpellable, Numeral.spellable, Numeral.value_plain]
    unfold blockLimit at hhigh
    exact spellable_of_lt (by omega)
  rcases Registry.exists_compile rfl (accept_slotOf names) hspelt s with ⟨c, s', hcompile⟩
  exact ⟨_, s', FeeSchema.build_ok_iff.2
    ⟨_, c, padToSlot_parametersOf hlow hhigh, hcompile, rfl⟩⟩

/-! ## Messages -/

/-- The fee parameters that a platform has. -/
def feesOf? : Platform → Option FeeKind
  | .evm => some .evm
  | .solana => some .solana
  | _ => none

/-- The schemas serve the chains with fee parameters, and no others. -/
structure Suits (padding : Nat) (schemas : Schemas) : Prop where
  serves : ∀ {c : Chain} {kind}, feesOf? c.platform = some kind →
    ∃ schema, schemaOf schemas (.chain c) = .ok schema ∧ Serves kind padding schema
  only : ∀ {c : Chain} {schema}, schemaOf schemas (.chain c) = .ok schema →
    ∃ kind, feesOf? c.platform = some kind

theorem platformOfValue_chain (c : Chain) : Chain.platformOfValue (.chain c) = .ok c.platform := by
  cases c <;> rfl

theorem schemaOf_chain_ok_iff {schemas : Schemas} {c : Chain} {schema : FeeSchema} :
    schemaOf schemas (.chain c) = .ok schema ↔ schemaOf? schemas c.platform = some schema := by
  rw [schemaOf, platformOfValue_chain, Except.ok_bind]
  cases schemaOf? schemas c.platform <;> simp [pure, Except.pure]

theorem suits_of_build {evm solana : FeeSchema} (hevm : evm.platform = .evm)
    (hsolana : solana.platform = .solana) (hevmServes : Serves .evm padding evm)
    (hsolanaServes : Serves .solana padding solana) : Suits padding [evm, solana] := by
  have hfirst : schemaOf? [evm, solana] .evm = some evm := by
    simp [schemaOf?, hevm, hsolana]
  have hsecond : schemaOf? [evm, solana] .solana = some solana := by
    simp [schemaOf?, hsolana]
  constructor
  · intro c kind hkind
    simp only [schemaOf_chain_ok_iff]
    cases hplatform : c.platform with
    | evm =>
      rw [hplatform] at hkind
      cases hkind
      exact ⟨evm, hfirst, hevmServes⟩
    | solana =>
      rw [hplatform] at hkind
      cases hkind
      exact ⟨solana, hsecond, hsolanaServes⟩
    | _ =>
      rw [hplatform] at hkind
      cases hkind
  · intro c schema hschema
    rw [schemaOf_chain_ok_iff] at hschema
    cases hplatform : c.platform with
    | evm => exact ⟨.evm, rfl⟩
    | solana => exact ⟨.solana, rfl⟩
    | _ =>
      rw [hplatform] at hschema
      simp [schemaOf?, hevm, hsolana] at hschema

/-- A chain and a command for it. -/
def entry (chains : List Chain) (slot : Numeral) (serial : Nat) : Layout :=
  .record [
    .mk "chain" (.uint 2 (.converted (chainConversion serial (some (chains.map .chain)))) .off),
    .mk "command" (commandSwitch (some slot))]

/-- A count and as many entries, each behind its length. -/
def message (chains : List Chain) (slot : Numeral) (chainSerial commandSerial : Nat)
    (schemas : Schemas) : Layout :=
  .array (.counted 1) (.nested (.counted 1) (entry chains slot chainSerial)
    (.converted (commandConversion commandSerial schemas)) .off) .plain

theorem checkChains_ok_iff {schemas : Schemas} (suits : Suits padding schemas)
    {chains : List Chain} :
    checkChains schemas (chains.map .chain) = .ok () ↔
      ∀ c ∈ chains, ∃ kind, feesOf? c.platform = some kind := by
  have hcheck : ∀ c : Chain, checkChain schemas (.chain c) = .ok () ↔
      ∃ kind, feesOf? c.platform = some kind := by
    intro c
    have hfound : (schemaOf? schemas c.platform).isSome = true ↔
        ∃ kind, feesOf? c.platform = some kind := by
      rw [Option.isSome_iff_exists]
      constructor
      · intro h
        rcases h with ⟨schema, hschema⟩
        exact suits.only (schemaOf_chain_ok_iff.2 hschema)
      · intro h
        rcases h with ⟨kind, hkind⟩
        rcases suits.serves hkind with ⟨schema, hschema, _⟩
        exact ⟨schema, schemaOf_chain_ok_iff.1 hschema⟩
    unfold checkChain
    rw [Value.ofNumeral, platformOfValue_chain, Except.ok_bind, ← hfound]
    by_cases h : (schemaOf? schemas c.platform).isSome = true <;> simp [h, pure, Except.pure]
  induction chains with
  | nil => simp [checkChains]
  | cons c chains ih =>
    simp only [List.map_cons, checkChains, Except.seq_ok_iff, hcheck, ih, List.forall_mem_cons]

variable {chains : List Chain}

/-- Only for slots with room for the parameters is a layout of messages built. -/
theorem slot_of_messageLayout {slotSize : Option Numeral} {s s' : Registry} {l : Layout}
    (h : messageLayout (chains.map .chain) slotSize s = .ok l s') :
    ∃ slot : Numeral, slotSize = some slot ∧ 14 ≤ slot.value ∧ slot.value - 14 < blockLimit := by
  rcases EStateM.bind_ok_iff.1 h with ⟨_, _, hevm, _⟩
  rcases FeeSchema.build_ok_iff.1 hevm with ⟨padded, _, hpadded, _⟩
  have hslot : padToSlot (parametersOf "gas_price" "blob_base_fee" "gas_token_price") slotSize =
      .ok padded := hpadded
  exact slot_of_padToSlot hslot

/-- A layout of messages that was built is one of the known form, to chains with fee parameters. -/
theorem form_of_messageLayout {s s' : Registry} {l : Layout} (hlow : 14 ≤ slot.value)
    (hhigh : slot.value - 14 < blockLimit)
    (h : messageLayout (chains.map .chain) (some slot) s = .ok l s') :
    (∀ c ∈ chains, ∃ kind, feesOf? c.platform = some kind) ∧
      ∃ schemas m n, Suits (slot.value - 14).toNat schemas ∧
        l = message chains slot m n schemas := by
  -- the registry passes through six steps, of which only the last returns the layout
  rcases EStateM.bind_ok_iff.1 h with ⟨evm, t, hevm, h⟩
  rcases EStateM.bind_ok_iff.1 h with ⟨solana, t', hsolana, h⟩
  rcases EStateM.bind_ok_iff.1 h with ⟨_, u, hcheck, h⟩
  rcases Building.ofExcept_ok_iff.1 hcheck with ⟨hchains, rfl⟩
  rcases EStateM.bind_ok_iff.1 h with ⟨body, u', hbody, h⟩
  cases hbody
  rcases EStateM.bind_ok_iff.1 h with ⟨conversion, u', hconversion, h⟩
  cases hconversion
  rcases EStateM.bind_ok_iff.1 h with ⟨_, u', hnamed, h⟩
  cases h
  have hfirst : evm.platform = .evm ∧ Serves .evm (slot.value - 14).toNat evm :=
    @build_ok .evm slot .evm "gas_price" "blob_base_fee" "gas_token_price" _ _ _ rfl hlow hhigh hevm
  have hsecond : solana.platform = .solana ∧ Serves .solana (slot.value - 14).toNat solana :=
    @build_ok .solana slot .solana "solana_account_overhead" "solana_size_cost" "gas_token_price"
      _ _ _
      rfl hlow hhigh hsolana
  have suits := suits_of_build hfirst.1 hsecond.1 hfirst.2 hsecond.2
  exact ⟨(checkChains_ok_iff suits).1 hchains, [evm, solana], _, _, suits, rfl⟩

theorem padding_lt_blockLimit (hhigh : slot.value ≤ 252) : slot.value - 14 < blockLimit := by
  unfold blockLimit
  omega

/-- The same for slots that fit into an entry. -/
theorem messageLayout_ok {s s' : Registry} {l : Layout} (hlow : 14 ≤ slot.value)
    (hhigh : slot.value ≤ 252)
    (h : messageLayout (chains.map .chain) (some slot) s = .ok l s') :
    (∀ c ∈ chains, ∃ kind, feesOf? c.platform = some kind) ∧
      ∃ schemas m n, Suits (slot.value - 14).toNat schemas ∧ l = message chains slot m n schemas :=
  form_of_messageLayout hlow (padding_lt_blockLimit hhigh) h

/-- For chains with fee parameters, and slots with room for these, a layout of messages is built in
any registry. -/
theorem exists_messageLayout_of_lt (hlow : 14 ≤ slot.value) (hhigh : slot.value - 14 < blockLimit)
    (hchains : ∀ c ∈ chains, ∃ kind, feesOf? c.platform = some kind) (s : Registry) :
    ∃ l s', messageLayout (chains.map .chain) (some slot) s = .ok l s' := by
  rcases @exists_build .evm slot .evm "gas_price" "blob_base_fee" "gas_token_price" rfl hlow hhigh s
    with ⟨evm, t, hevm⟩
  rcases @exists_build .solana slot .solana "solana_account_overhead" "solana_size_cost"
    "gas_token_price" rfl hlow hhigh t with ⟨solana, t', hsolana⟩
  have hfirst := build_ok rfl hlow hhigh hevm
  have hsecond := build_ok rfl hlow hhigh hsolana
  have suits := suits_of_build hfirst.1 hsecond.1 hfirst.2 hsecond.2
  have hcheck := (checkChains_ok_iff suits).2 hchains
  have hnamed : allNamed (chains.map .chain) = .ok () := by
    rw [allNamed, if_pos]
    simp
  have hcheckRun : (Building.ofExcept (checkChains [evm, solana] (chains.map .chain))) t' =
      .ok () t' := by
    rw [hcheck]
    rfl
  refine ⟨message chains slot t'.nextSerial (t'.nextSerial + 1) [evm, solana],
    { t' with nextSerial := t'.nextSerial + 2 }, ?_⟩
  refine EStateM.bind_ok_iff.2 ⟨evm, t, hevm, EStateM.bind_ok_iff.2 ⟨solana, t', hsolana,
    EStateM.bind_ok_iff.2 ⟨(), t', hcheckRun, EStateM.bind_ok_iff.2 ⟨_, _, rfl,
      EStateM.bind_ok_iff.2 ⟨_, _, rfl, EStateM.bind_ok_iff.2 ⟨(), _, ?_, rfl⟩⟩⟩⟩⟩⟩
  rw [hnamed]
  rfl

/-- The same for slots that fit into an entry. -/
theorem exists_messageLayout (hlow : 14 ≤ slot.value) (hhigh : slot.value ≤ 252)
    (hchains : ∀ c ∈ chains, ∃ kind, feesOf? c.platform = some kind) (s : Registry) :
    ∃ l s', messageLayout (chains.map .chain) (some slot) s = .ok l s' :=
  exists_messageLayout_of_lt hlow (padding_lt_blockLimit hhigh) hchains s

end PriceUpdate
end WireLayout
