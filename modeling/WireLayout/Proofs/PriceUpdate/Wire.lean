import WireLayout.Proofs.Canonical
import WireLayout.Proofs.Locality
import WireLayout.Proofs.PriceUpdate.Build

/-!
# Wire — the messages that are accepted

The format of messages, as it is documented, without any layout:

* a message is a count byte and as many entries (`PriceUpdate.IsMessage`);
* an entry is a length byte and a body of that length: the number of a chain in two bytes, the
  number of a command in one, and the payload of the command (`PriceUpdate.IsEntry`);
* a payload is a slot with all fee parameters, or one of the parameters that the platform of the
  chain has (`PriceUpdate.Payload`).

`PriceUpdate.reads_message_iff` says that the layouts that are built for messages accept this format
and nothing else.
-/

namespace WireLayout

open Piece

namespace PriceUpdate

/-! ## The format -/

/-- The commands for one parameter: their numbers, their names and their sizes. -/
def scalars : FeeKind → List (Nat × String × Nat)
  | .evm => [(1, "gas_price", 4), (2, "blob_base_fee", 4), (3, "gas_token_price", 6)]
  | .solana =>
    [(3, "gas_token_price", 6), (4, "solana_account_overhead", 4), (5, "solana_size_cost", 4)]

/-- What stands behind the number of a command, and the command that it makes. -/
inductive Payload (kind : FeeKind) (slot : Int) : (tag : Nat) → List UInt8 → Value → Prop where
  -- the last part of the slot does not matter
  | fees {p q r s : List UInt8} (first : p.length = 4) (second : q.length = 4)
      (third : r.length = 6) (size : ((p ++ (q ++ (r ++ s))).length : Int) = slot) :
    Payload kind slot 0 (p ++ (q ++ (r ++ s)))
      (.command (.text feeParams) (kind.build (.int (BigEndian.decode p))
        (.int (BigEndian.decode q)) (.int (BigEndian.decode r))))
  | scalar {tag : Nat} {name : String} {bs : List UInt8}
      (known : (tag, name, bs.length) ∈ scalars kind) :
    Payload kind slot tag bs (.command (.text name) (.int (BigEndian.decode bs)))

/-- A length byte and a body of that length, and the command for a chain that they make. -/
inductive IsEntry (chains : List Chain) (slot : Int) : List UInt8 → Value → Prop where
  | intro {c : Chain} {kind : FeeKind} {length tag : UInt8} {id payload : List UInt8}
      {command : Value} (allowed : c ∈ chains) (platform : feesOf? c.platform = some kind)
      (width : id.length = 2) (number : BigEndian.decode id = c.id)
      (content : Payload kind slot tag.toNat payload command)
      (size : length.toNat = 3 + payload.length) :
    IsEntry chains slot (length :: (id ++ tag :: payload)) (.chainCommand (.chain c) command)

/-- A count byte and as many entries, and the list of what they make. -/
inductive IsMessage (chains : List Chain) (slot : Int) : List UInt8 → Value → Prop where
  | intro {count : UInt8} {entries : List (List UInt8)} {commands : List Value}
      (number : count.toNat = entries.length)
      (each : List.Forall₂ (IsEntry chains slot) entries commands) :
    IsMessage chains slot (count :: entries.flatten) (.list commands)

/-! ## Chains -/

theorem id_injective {c d : Chain} (h : c.id = d.id) : c = d := by
  have hfound := Chain.ofId?_id c
  rw [h, Chain.ofId?_id, Option.some.injEq] at hfound
  exact hfound.symm

theorem ofValue?_int_iff {n : Int} {c : Chain} : Chain.ofValue? (.int n) = some c ↔ n = c.id := by
  constructor
  · intro h
    have hsame : (Value.int n).same (.int c.id) = true :=
      List.find?_some (p := fun d : Chain => (Value.int n).same (.int d.id)) h
    rw [Value.same_int, beq_iff_eq] at hsame
    exact hsame
  · intro h
    subst h
    cases c <;> rfl

variable {chains : List Chain} {slot : Numeral}

theorem allowedChain_ok_iff {c d : Chain} :
    allowedChain (some (chains.map .chain)) c = .ok d ↔ c ∈ chains ∧ c = d := by
  have hany : ((chains.map Numeral.chain).any fun n => n.value == c.id) = true ↔ c ∈ chains := by
    rw [List.any_map, List.any_eq_true]
    constructor
    · intro h
      rcases h with ⟨d, hd, hid⟩
      have hsame : (d.id : Int) = c.id := beq_iff_eq.1 hid
      rwa [← id_injective (Int.ofNat_inj.1 hsame)]
    · intro h
      exact ⟨c, h, beq_self_eq_true _⟩
  unfold allowedChain
  by_cases hc : c ∈ chains
  · simp [hany.2 hc, hc]
  · have hnot : ((chains.map Numeral.chain).any fun n => n.value == c.id) = false := by
      rw [← Bool.not_eq_true, hany]
      exact hc
    simp [hnot, hc]

theorem chainOfNumber_ok_iff {n : Int} {v : Value} :
    chainOfNumber (some (chains.map .chain)) (.int n) = .ok v ↔
      ∃ c ∈ chains, n = c.id ∧ v = .chain c := by
  unfold chainOfNumber
  cases hfound : Chain.ofValue? (.int n) with
  | none =>
    constructor
    · intro h
      cases h
    · intro h
      rcases h with ⟨c, _, hn, _⟩
      rw [ofValue?_int_iff.2 hn] at hfound
      cases hfound
  | some c =>
    have hn : n = c.id := ofValue?_int_iff.1 hfound
    simp only [Except.map_ok_iff, allowedChain_ok_iff]
    constructor
    · intro h
      rcases h with ⟨d, ⟨hc, rfl⟩, rfl⟩
      exact ⟨c, hc, hn, rfl⟩
    · intro h
      rcases h with ⟨d, hd, hid, rfl⟩
      have hsame : c = d := id_injective (Int.ofNat_inj.1 (hn.symm.trans hid))
      subst hsame
      exact ⟨c, ⟨hd, rfl⟩, rfl⟩

/-! ## Commands as they stand in a message -/

/-- The commands for one parameter, of any platform. -/
def commands : List (Nat × String × Nat) :=
  [(1, "gas_price", 4), (2, "blob_base_fee", 4), (3, "gas_token_price", 6),
    (4, "solana_account_overhead", 4), (5, "solana_size_cost", 4)]

/-- The name and the value that the switch reads for the number of a command. -/
inductive Raw (slot : Int) : (tag : Nat) → List UInt8 → (name : String) → Value → Prop where
  | fees {bs : List UInt8} (size : (bs.length : Int) = slot) : Raw slot 0 bs feeParams (.raw bs)
  | scalar {tag : Nat} {name : String} {bs : List UInt8}
      (known : (tag, name, bs.length) ∈ commands) :
    Raw slot tag bs name (.int (BigEndian.decode bs))

theorem reads_plainUint_iff {size : Numeral} {ps : List Piece} {rest : List UInt8} {v : Value} :
    (plainUint size).Reads ps rest v ↔
      ∃ bs, ps = [plain bs] ∧ (bs.length : Int) = size.value ∧
        v = .int (BigEndian.decode bs) := by
  have hplain : ∀ n, (Custom.plain : Custom Numeral) ≠ .constant n := fun n => nofun
  rw [plainUint, Layout.reads_uint_iff hplain]
  simp [Custom.afterDecode, eq_comm]

theorem reads_slot_iff {ps : List Piece} {rest : List UInt8} {v : Value} :
    (Layout.blob (Framing.ofSize (some slot)) .plain .off).Reads ps rest v ↔
      ∃ bs, ps = [plain bs] ∧ (bs.length : Int) = slot.value ∧ v = .raw bs := by
  have hplain : ∀ content, (Custom.plain : Custom (List UInt8)) ≠ .constant content :=
    fun content => nofun
  rw [Layout.reads_blob_iff hplain]
  constructor
  · intro h
    rcases h with ⟨_, bs, rfl, ⟨rfl, hsize⟩, ⟨⟩⟩
    exact ⟨bs, rfl, hsize, rfl⟩
  · intro h
    rcases h with ⟨bs, rfl, hsize, rfl⟩
    exact ⟨[], bs, rfl, ⟨rfl, hsize⟩, rfl⟩

/-- A record of one field that stays is its item under the name. -/
theorem readsFields_single_iff {name : Label} {item : Layout} (h : item.isOmitted = false)
    {ps : List Piece} {rest : List UInt8} {entries : List (Label × Value)} :
    Layout.ReadsFields [.mk name item] ps rest entries ↔
      ∃ v, item.Reads ps rest v ∧ entries = [(name, v)] := by
  constructor
  · intro hread
    rcases hread with ⟨p, _, v, _, rfl, hp, ⟨rfl, rfl⟩, rfl⟩
    rw [List.append_nil]
    exact ⟨v, hp, by simp [h]⟩
  · intro hread
    rcases hread with ⟨v, hv, rfl⟩
    exact ⟨ps, [], v, [], (List.append_nil ps).symm, hv, ⟨rfl, rfl⟩, by simp [h]⟩

/-- The case of a command for one parameter. -/
def scalarCase (command : Nat × String × Nat) : Case :=
  commandCase (.plain command.1) (.text command.2.1) (plainUint (.plain command.2.2))

theorem commandCases_eq : commandCases (some slot) =
    commandCase 0 feeParams (.blob (Framing.ofSize (some slot)) .plain .off) ::
      commands.map scalarCase := rfl

theorem distinct_commandCases : (commandCases (some slot)).Pairwise fun c d =>
    c.id.value ≠ d.id.value := by
  have hids : ((commandCases (some slot)).map fun c => c.id.value).Pairwise (· ≠ ·) := by
    have hvalues : (commandCases (some slot)).map (fun c => c.id.value) = [0, 1, 2, 3, 4, 5] := rfl
    rw [hvalues]
    decide
  exact List.pairwise_map.1 hids

/-- The case with a number reads the commands with that number. -/
theorem readsCase_iff {tag : Nat} {ps : List Piece} {rest : List UInt8}
    {entries : List (Label × Value)} :
    Layout.ReadsCase "name" (commandCases (some slot)) tag ps rest entries ↔
      ∃ bs name value, ps = [plain bs] ∧ Raw slot.value tag bs name value ∧
        entries = [(.text "name", .text name), (.text "value", value)] := by
  constructor
  · intro h
    rcases Layout.case_of_readsCase h with ⟨c, hc, more, htag, hmore, rfl⟩
    rw [commandCases_eq] at hc
    rcases List.mem_cons.1 hc with rfl | hc
    · rcases (readsFields_single_iff rfl).1 hmore with ⟨v, hv, rfl⟩
      rcases reads_slot_iff.1 hv with ⟨bs, rfl, hsize, rfl⟩
      have hzero : tag = 0 := (Int.ofNat_inj.1 htag).symm
      subst hzero
      exact ⟨bs, feeParams, _, rfl, .fees hsize, rfl⟩
    · rcases List.mem_map.1 hc with ⟨⟨number, name, size⟩, hmem, rfl⟩
      rcases (readsFields_single_iff rfl).1 hmore with ⟨v, hv, rfl⟩
      rcases reads_plainUint_iff.1 hv with ⟨bs, rfl, hsize, rfl⟩
      have hlength : bs.length = size := Int.ofNat_inj.1 hsize
      have hnumber : number = tag := Int.ofNat_inj.1 htag
      rw [← hlength, hnumber] at hmem
      exact ⟨bs, name, _, rfl, .scalar hmem, rfl⟩
  · intro h
    rcases h with ⟨bs, name, value, rfl, hraw, rfl⟩
    cases hraw with
    | fees hsize =>
      have hslot : (Layout.blob (Framing.ofSize (some slot)) .plain .off).Reads [plain bs] rest
          (.raw bs) := reads_slot_iff.2 ⟨bs, rfl, hsize, rfl⟩
      have hfields := (@readsFields_single_iff "value" _ rfl _ _ _).2 ⟨_, hslot, rfl⟩
      exact Layout.readsCase_of_mem (c := commandCase 0 feeParams _) List.mem_cons_self
        distinct_commandCases rfl hfields
    | scalar hmem =>
      have hcase : scalarCase (tag, name, bs.length) ∈ commandCases (some slot) :=
        List.mem_cons_of_mem _ (List.mem_map_of_mem hmem)
      have hvalue : (plainUint (.plain bs.length)).Reads [plain bs] rest
          (.int (BigEndian.decode bs)) := reads_plainUint_iff.2 ⟨bs, rfl, rfl, rfl⟩
      have hfields := (@readsFields_single_iff "value" _ rfl _ _ _).2 ⟨_, hvalue, rfl⟩
      exact Layout.readsCase_of_mem hcase distinct_commandCases rfl hfields

/-! ## Entries -/

/-- The dictionary that describes a command for a chain. -/
def description (c : Chain) (name value : Value) : Value :=
  .dict [(.text "chain", .chain c),
    (.text "command", .dict [(.text "name", name), (.text "value", value)])]

theorem decode_singleton (b : UInt8) : BigEndian.decode [b] = b.toNat := by
  simp [BigEndian.decode]

theorem exists_singleton {bs : List UInt8} (h : (bs.length : Int) = (1 : Numeral).value) :
    ∃ b, bs = [b] := List.length_eq_one_iff.1 (Int.ofNat_inj.1 h)

theorem reads_entry_iff {serial : Nat} {ps : List Piece} {rest : List UInt8} {raw : Value} :
    (entry chains slot serial).Reads ps rest raw ↔
      ∃ id tag payload, ∃ c ∈ chains, ∃ name value, ps = [plain id, plain [tag], plain payload] ∧
        id.length = 2 ∧ BigEndian.decode id = c.id ∧
        Raw slot.value tag.toNat payload name value ∧ raw = description c (.text name) value := by
  constructor
  · intro h
    rcases h with ⟨_, ⟨_, _, _, _, rfl, ⟨id, rfl, hid, hchain⟩, ⟨_, _, _, _, rfl,
      ⟨tagBytes, body, _, rfl, htag, hcase, ⟨⟩⟩, ⟨rfl, rfl⟩, rfl⟩, rfl⟩, rfl⟩
    rcases chainOfNumber_ok_iff.1 hchain with ⟨c, hc, hnumber, rfl⟩
    rcases exists_singleton htag with ⟨tag, rfl⟩
    rw [decode_singleton] at hcase
    -- a chain, the number of a command, and its payload: three pieces
    rcases readsCase_iff.1 hcase with ⟨payload, name, value, rfl, hraw, rfl⟩
    exact ⟨id, tag, payload, c, hc, name, value, rfl, Int.ofNat_inj.1 hid,
      Int.ofNat_inj.1 hnumber, hraw, rfl⟩
  · intro h
    rcases h with ⟨id, tag, payload, c, hc, name, value, rfl, hid, hnumber, hraw, rfl⟩
    -- from the inside outwards: the case, the switch, the fields of the entry
    have hcase : Layout.ReadsCase "name" (commandCases (some slot)) (BigEndian.decode [tag])
        [plain payload] rest [(.text "name", .text name), (.text "value", value)] := by
      rw [decode_singleton]
      exact readsCase_iff.2 ⟨payload, name, value, rfl, hraw, rfl⟩
    have hchain : chainOfNumber (some (chains.map .chain)) (.int (BigEndian.decode id)) =
        .ok (.chain c) := chainOfNumber_ok_iff.2 ⟨c, hc, by rw [hnumber], rfl⟩
    have hcommand : (commandSwitch (some slot)).Reads [plain [tag], plain payload] rest
        (.dict [(.text "name", .text name), (.text "value", value)]) :=
      ⟨[tag], [plain payload], _, rfl, rfl, hcase, rfl⟩
    have hid' : (id.length : Int) = (2 : Numeral).value := by
      rw [hid]
      rfl
    refine ⟨_, ⟨[plain id], [plain [tag], plain payload], .chain c, _, rfl,
      ⟨id, rfl, hid', hchain⟩, ⟨[plain [tag], plain payload], [], _, [], rfl, ?_, ⟨rfl, rfl⟩, rfl⟩,
      rfl⟩, rfl⟩
    exact hcommand

theorem mem_scalars_iff {kind : FeeKind} {command : Nat × String × Nat} :
    command ∈ scalars kind ↔
      command ∈ commands ∧ kind.parameterNames.contains (.text command.2.1) = true := by
  -- both tables are short enough to be compared line by line
  have hforth : ∀ d ∈ scalars kind,
      d ∈ commands ∧ kind.parameterNames.contains (.text d.2.1) = true := by
    cases kind <;> decide
  have hback : ∀ d ∈ commands,
      kind.parameterNames.contains (.text d.2.1) = true → d ∈ scalars kind := by
    cases kind <;> decide
  exact ⟨hforth command, fun h => hback command h.1 h.2⟩

/-- Commands for one parameter are numbered from one on, under names of their own. -/
theorem of_mem_commands {tag size : Nat} {name : String} (h : (tag, name, size) ∈ commands) :
    tag ≠ 0 ∧ (Value.text name).same (.text feeParams) = false ∧
      commandNames.contains (.text name) = true := by
  have hall : ∀ d ∈ commands, d.1 ≠ 0 ∧ (Value.text d.2.1).same (.text feeParams) = false ∧
      commandNames.contains (.text d.2.1) = true := by
    decide
  exact hall _ h

theorem eq_of_mem_commands {d e : Nat × String × Nat} (hd : d ∈ commands) (he : e ∈ commands)
    (h : d.1 = e.1) : d = e := by
  have hall : ∀ d ∈ commands, ∀ e ∈ commands, d.1 = e.1 → d = e := by
    decide
  exact hall d hd e he h

theorem checkCommand_ok_iff {schema : FeeSchema} {c : Chain} {tag size : Nat} {name : String}
    (h : (tag, name, size) ∈ commands) :
    checkCommand schema (.chain c) (.text name) = .ok () ↔
      schema.names.contains (.text name) = true := by
  have hkey : (Value.text name).isKey = true := rfl
  unfold checkCommand
  simp only [hkey, (of_mem_commands h).2.2]
  cases schema.names.contains (.text name) <;> simp

/-- The conversion finds the schema of the chain, then unpacks the slot or checks the name. -/
theorem toCommand_description {schemas : Schemas} {c : Chain} {name : String} {value : Value} :
    toCommand schemas (description c (.text name) value) = (do
      let schema ← schemaOf schemas (.chain c)
      if (Value.text name).same (.text feeParams) then
        let fees ← schema.unpack value
        return .chainCommand (.chain c) (.command (.text name) fees)
      else
        checkCommand schema (.chain c) (.text name)
        return .chainCommand (.chain c) (.command (.text name) value)) := rfl

/-- Of the commands that the switch reads, the conversion takes those of the chain's platform. -/
theorem toCommand_ok_iff {schemas : Schemas} (suits : Suits (slot.value - 14).toNat schemas)
    (hlow : 14 ≤ slot.value) {c : Chain} {kind : FeeKind} (hkind : feesOf? c.platform = some kind)
    {tag : Nat} {payload : List UInt8} {name : String} {value v : Value}
    (hraw : Raw slot.value tag payload name value) :
    toCommand schemas (description c (.text name) value) = .ok v ↔
      ∃ command, v = .chainCommand (.chain c) command ∧
        Payload kind slot.value tag payload command := by
  rcases suits.serves hkind with ⟨schema, hschema, hserves⟩
  rw [toCommand_description, hschema, Except.ok_bind]
  -- the switch knows the commands of all platforms, the schema those of one
  cases hraw with
  | fees hsize =>
    have hslot : IsSlot schema.kind (slot.value - 14).toNat schema.codec.layout := by
      rw [hserves.kind_eq]
      exact hserves.isSlot
    have hname : (Value.text feeParams).same (.text feeParams) = true := rfl
    rw [if_pos hname, Except.bind_ok_iff]
    simp only [FeeSchema.unpack_ok_iff hslot, Except.pure_ok_iff, hserves.kind_eq]
    constructor
    · intro h
      rcases h with ⟨_, ⟨p, q, r, ⟨⟨s, rfl, hs⟩, hp, hq, hr⟩, rfl⟩, rfl⟩
      exact ⟨_, rfl, .fees hp hq hr hsize⟩
    · intro h
      rcases h with ⟨_, rfl, hpayload⟩
      cases hpayload with
      | @fees p q r s hp hq hr hsize =>
        have hs : s.length = (slot.value - 14).toNat := by
          simp only [List.length_append] at hsize
          omega
        exact ⟨_, ⟨p, q, r, ⟨⟨s, rfl, hs⟩, hp, hq, hr⟩, rfl⟩, rfl⟩
      | scalar hmem => exact absurd rfl (of_mem_commands (mem_scalars_iff.1 hmem).1).1
  | scalar hmem =>
    rw [(of_mem_commands hmem).2.1, if_neg Bool.false_ne_true, Except.seq_ok_iff,
      checkCommand_ok_iff hmem, hserves.names_eq, Except.pure_ok_iff]
    constructor
    · intro h
      rcases h with ⟨hnames, rfl⟩
      exact ⟨_, rfl, .scalar (mem_scalars_iff.2 ⟨hmem, hnames⟩)⟩
    · intro h
      rcases h with ⟨_, rfl, hpayload⟩
      cases hpayload with
      | fees => exact absurd rfl (of_mem_commands hmem).1
      | scalar hmem' =>
        -- the number of a command determines its name and its size
        rcases mem_scalars_iff.1 hmem' with ⟨hmem', hnames⟩
        cases eq_of_mem_commands hmem hmem' rfl
        exact ⟨hnames, rfl⟩

theorem raw_of_payload {kind : FeeKind} {tag : Nat} {payload : List UInt8} {command : Value}
    (h : Payload kind slot.value tag payload command) :
    ∃ name value, Raw slot.value tag payload name value := by
  cases h with
  | fees hp hq hr hsize => exact ⟨feeParams, _, .fees hsize⟩
  | scalar hmem => exact ⟨_, _, .scalar (mem_scalars_iff.1 hmem).1⟩

/-! ## Messages -/

theorem entries_of_readsEach {G : List Piece → List UInt8 → Value → Prop}
    {E : List UInt8 → Value → Prop} (h : ∀ p tail v, G p tail v → E (source p) v)
    {ps : List Piece} {rest : List UInt8} {vs : List Value} (heach : ReadsEach G ps rest vs) :
    ∃ entries, source ps = entries.flatten ∧ List.Forall₂ E entries vs := by
  induction vs generalizing ps with
  | nil =>
    cases heach
    exact ⟨[], rfl, .nil⟩
  | cons v vs ih =>
    rcases heach with ⟨p, q, rfl, hv, heach⟩
    rcases ih heach with ⟨entries, hsource, hentries⟩
    exact ⟨source p :: entries, by simp [hsource], .cons (h p _ v hv) hentries⟩

/-- An entry in its frame, read as a command. -/
def framedEntry (chains : List Chain) (slot : Numeral) (chainSerial commandSerial : Nat)
    (schemas : Schemas) : Layout :=
  .nested (.counted 1) (entry chains slot chainSerial)
    (.converted (commandConversion commandSerial schemas)) .off

section

variable {schemas : Schemas} {m n : Nat} (suits : Suits (slot.value - 14).toNat schemas)
  (hlow : 14 ≤ slot.value) (hchains : ∀ c ∈ chains, ∃ kind, feesOf? c.platform = some kind)

include suits hlow

theorem reads_of_isEntry {e : List UInt8} {v : Value} (h : IsEntry chains slot.value e v) :
    ∃ ps, source ps = e ∧ ∀ rest, (framedEntry chains slot m n schemas).Reads ps rest v := by
  cases h with
  | @intro c kind length tag id payload command hc hkind hid hnumber hpayload hlength =>
    rcases raw_of_payload hpayload with ⟨name, value, hraw⟩
    -- nothing follows the body inside the frame
    have hbody : (entry chains slot m).Reads [plain id, plain [tag], plain payload] []
        (description c (.text name) value) :=
      reads_entry_iff.2 ⟨id, tag, payload, c, hc, name, value, rfl, hid, hnumber, hraw, rfl⟩
    have hcommand := (toCommand_ok_iff suits hlow hkind hraw).2 ⟨command, rfl, hpayload⟩
    refine ⟨[plain [length], plain id, plain [tag], plain payload], by simp, fun rest => ?_⟩
    refine ⟨_, ⟨[plain [length]], _, rfl, ⟨[length], rfl, rfl, ?_⟩, hbody⟩, hcommand⟩
    rw [decode_singleton, hlength]
    simp only [source_cons, source_nil, found_plain, List.length_append, List.length_cons,
      List.length_nil, hid]
    omega

include hchains

theorem isEntry_of_reads {ps : List Piece} {rest : List UInt8} {v : Value}
    (h : (framedEntry chains slot m n schemas).Reads ps rest v) :
    IsEntry chains slot.value (source ps) v := by
  rcases h with ⟨raw, ⟨head, body, rfl, ⟨lengthBytes, rfl, hwidth, hlength⟩, hbody⟩, hv⟩
  rcases exists_singleton hwidth with ⟨length, rfl⟩
  rcases reads_entry_iff.1 hbody with
    ⟨id, tag, payload, c, hc, name, value, rfl, hid, hnumber, hraw, rfl⟩
  rcases hchains c hc with ⟨kind, hkind⟩
  rcases (toCommand_ok_iff suits hlow hkind hraw).1 hv with ⟨command, rfl, hpayload⟩
  rw [decode_singleton] at hlength
  simp only [source_cons, source_nil, found_plain, List.length_append, List.length_cons,
    List.length_nil, hid] at hlength
  have hsource : source ([plain [length]] ++ [plain id, plain [tag], plain payload]) =
      length :: (id ++ tag :: payload) := by simp
  rw [hsource]
  exact .intro hc hkind hid hnumber hpayload (by omega)

/-- The layout of messages accepts the documented format and nothing else. -/
theorem reads_message_iff {d : List UInt8} {u : Value} :
    (∃ ps, source ps = d ∧ (message chains slot m n schemas).Reads ps [] u) ↔
      IsMessage chains slot.value d u := by
  constructor
  · intro h
    rcases h with ⟨_, rfl, head, body, items, rfl, ⟨countBytes, rfl, hwidth, hcount⟩, heach, ⟨⟩⟩
    rcases exists_singleton hwidth with ⟨count, rfl⟩
    rw [decode_singleton] at hcount
    rcases entries_of_readsEach (fun p tail v hv => isEntry_of_reads suits hlow hchains hv.2) heach
      with ⟨entries, hsource, hentries⟩
    have hbytes : source ([plain [count]] ++ body) = count :: entries.flatten := by
      rw [source_append, hsource]
      simp
    rw [hbytes]
    exact .intro (hcount.trans hentries.length_eq.symm) hentries
  · intro h
    cases h with
    | @intro count entries commands hcount hentries =>
      have hframed : ∀ e v, IsEntry chains slot.value e v → ∃ p, source p = e ∧ ∀ tail,
          ((Framing.counted 1 = .unframed → source p ≠ []) ∧
            (framedEntry chains slot m n schemas).Reads p tail v) := by
        intro e v hv
        rcases @reads_of_isEntry _ _ _ m n suits hlow e v hv with ⟨p, hp, hreads⟩
        exact ⟨p, hp, fun tail => ⟨nofun, hreads tail⟩⟩
      rcases readsEach_of_forall₂ hframed hentries [] with ⟨body, hbody, heach⟩
      refine ⟨[plain [count]] ++ body, by simp [hbody], [plain [count]], body, commands, rfl,
        ⟨[count], rfl, rfl, ?_⟩, heach, rfl⟩
      rw [decode_singleton, hcount]
      exact hentries.length_eq

end

/-! ## Conditions on all parts of a message -/

section

variable {P : Layout → Prop} {schemas : Schemas} {m n : Nat}

theorem everywhere_commandSwitch (hswitch : P (commandSwitch (some slot)))
    (hslot : P (.blob (Framing.ofSize (some slot)) .plain .off))
    (hparameters : ∀ command ∈ commands, P (plainUint (.plain command.2.2))) :
    (commandSwitch (some slot)).Everywhere P := by
  refine Layout.everywhere_switch.2 ⟨hswitch, fun c hc f hf => ?_⟩
  rw [commandCases_eq] at hc
  rcases List.mem_cons.1 hc with rfl | hc
  · cases List.mem_singleton.1 hf
    exact Layout.everywhere_blob.2 hslot
  · rcases List.mem_map.1 hc with ⟨command, hcommand, rfl⟩
    cases List.mem_singleton.1 hf
    exact Layout.everywhere_uint.2 (hparameters command hcommand)

/-- A message has parts of seven kinds. -/
theorem everywhere_message (hmessage : P (message chains slot m n schemas))
    (hframe : P (framedEntry chains slot m n schemas)) (hentry : P (entry chains slot m))
    (hchain : P (.uint 2 (.converted (chainConversion m (some (chains.map .chain)))) .off))
    (hswitch : P (commandSwitch (some slot)))
    (hslot : P (.blob (Framing.ofSize (some slot)) .plain .off))
    (hparameters : ∀ command ∈ commands, P (plainUint (.plain command.2.2))) :
    (message chains slot m n schemas).Everywhere P := by
  refine Layout.everywhere_array.2 ⟨hmessage, Layout.everywhere_nested.2 ⟨hframe, ?_⟩⟩
  refine Layout.everywhere_record.2 ⟨hentry, fun f hf => ?_⟩
  simp only [List.mem_cons, List.not_mem_nil, or_false] at hf
  rcases hf with rfl | rfl
  · exact Layout.everywhere_uint.2 hchain
  · exact everywhere_commandSwitch hswitch hslot hparameters

end

/-! ## Decoding -/

theorem nonNegative_message (hlow : 14 ≤ slot.value) (schemas : Schemas) (m n : Nat) :
    (message chains slot m n schemas).Everywhere Layout.NonNegative := by
  have hslot : 0 ≤ slot.value := by omega
  have hbyte : 0 ≤ (1 : Numeral).value := Int.zero_le_ofNat 1
  have hparameters : ∀ command ∈ commands, (plainUint (.plain command.2.2)).NonNegative :=
    fun command _ => Int.natCast_nonneg command.2.2
  exact everywhere_message hbyte hbyte trivial (Int.zero_le_ofNat 2) hbyte hslot hparameters

theorem exists_codec (schemas : Schemas) (m n : Nat) :
    ∃ c, Codec.compile (message chains slot m n schemas) = .ok c ∧
      c.layout = message chains slot m n schemas :=
  ⟨_, rfl, rfl⟩

theorem decode_message_iff {schemas : Schemas} {m n : Nat}
    (suits : Suits (slot.value - 14).toNat schemas) (hlow : 14 ≤ slot.value)
    (hchains : ∀ c ∈ chains, ∃ kind, feesOf? c.platform = some kind) {c : Codec}
    (hlayout : c.layout = message chains slot m n schemas) {d : List UInt8} {u : Value} :
    c.decode d true = .ok u ↔ IsMessage chains slot.value d u := by
  have hsizes : c.layout.Everywhere Layout.NonNegative := by
    rw [hlayout]
    exact nonNegative_message hlow schemas m n
  rw [Codec.decode_whole_iff hsizes, hlayout]
  exact reads_message_iff suits hlow hchains

theorem fees_of_default :
    ∀ c ∈ [Chain.ethereum, .solana], ∃ kind, feesOf? c.platform = some kind := by
  simp [Chain.platform, feesOf?]

/-- The layout of messages in use is built for the default chains and slots. -/
theorem standard_eq : ∃ schemas m n, Suits ((32 : Numeral).value - 14).toNat schemas ∧
    standard = message [.ethereum, .solana] 32 m n schemas := by
  have hlow : 14 ≤ (32 : Numeral).value := Int.le_of_lt (by decide)
  have hhigh : (32 : Numeral).value ≤ 252 := Int.le_of_lt (by decide)
  rcases @exists_messageLayout 32 _ hlow hhigh fees_of_default .empty with ⟨l, s', hbuilt⟩
  have hstandard : standard = l := by
    have hallowed : defaultChains = [Chain.ethereum, .solana].map .chain := rfl
    have hsize : defaultSlotSize = some 32 := rfl
    have hrun : standardBuild = .ok l s' := by
      rw [standardBuild, hallowed, hsize, hbuilt]
    -- rewriting below the match would evaluate the build
    unfold standard
    split
    · rename_i hl
      rw [hrun] at hl
      cases hl
      rfl
    · rename_i hl
      rw [hrun] at hl
      cases hl
  rcases (messageLayout_ok hlow hhigh hbuilt).2 with ⟨schemas, m, n, suits, hl⟩
  exact ⟨schemas, m, n, suits, hstandard.trans hl⟩

/-- The layouts that are built for messages, and the one in use, accept the documented format and
nothing else. -/
theorem decode_ok_iff_isMessage :
    (∀ {chains : List Chain} {slot : Numeral} {s s' : Registry} {l : Layout}, 14 ≤ slot.value →
      slot.value ≤ 252 → messageLayout (chains.map .chain) (some slot) s = .ok l s' →
      ∃ c, Codec.compile l = .ok c ∧
        ∀ d u, c.decode d true = .ok u ↔ IsMessage chains slot.value d u) ∧
    ∀ d u, deserialize d = .ok u ↔ IsMessage [.ethereum, .solana] 32 d u := by
  constructor
  · intro chains slot s s' l hlow hhigh hbuilt
    rcases messageLayout_ok hlow hhigh hbuilt with ⟨hchains, schemas, m, n, suits, rfl⟩
    rcases exists_codec schemas m n with ⟨c, hcompile, hlayout⟩
    exact ⟨c, hcompile, fun d u => decode_message_iff suits hlow hchains hlayout⟩
  · intro d u
    rcases standard_eq with ⟨schemas, m, n, suits, hstandard⟩
    rcases @exists_codec [.ethereum, .solana] 32 schemas m n with ⟨c, hcompile, hlayout⟩
    have hrun : deserialize d = c.decode d true := by
      rw [deserialize, hstandard, hcompile, Except.ok_bind]
    rw [hrun]
    have hlow : 14 ≤ (32 : Numeral).value := Int.le_of_lt (by decide)
    exact decode_message_iff suits hlow fees_of_default hlayout

/-- The command that sets the price of gas on one chain. -/
def gasPriceCommands : Value :=
  .list [.chainCommand (.chain .ethereum) (.command (.text "gas_price") (.int 5))]

/-- Nine bytes that hold it, whatever the other chains and the size of the slots. -/
theorem isMessage_gasPrice {slot : Int} (allowed : Chain.ethereum ∈ chains) :
    IsMessage chains slot [1, 7, 0, 2, 1, 0, 0, 0, 5] gasPriceCommands := by
  have hpayload : Payload .evm slot 1 [0, 0, 0, 5] (.command (.text "gas_price") (.int 5)) :=
    .scalar (by decide)
  have hentry : IsEntry chains slot (7 :: ([0, 2] ++ 1 :: [0, 0, 0, 5]))
      (.chainCommand (.chain .ethereum) (.command (.text "gas_price") (.int 5))) :=
    .intro allowed rfl rfl rfl hpayload rfl
  exact @IsMessage.intro chains slot 1 [7 :: ([0, 2] ++ 1 :: [0, 0, 0, 5])] _ rfl
    (.cons hentry .nil)

/-- A message with the price of gas on one chain, and an empty one. -/
theorem decode_ok_iff_isMessage_one : ∃ l s' c,
    messageLayout ([Chain.ethereum].map .chain) (some 14) .empty = .ok l s' ∧
      Codec.compile l = .ok c ∧
      c.decode [1, 7, 0, 2, 1, 0, 0, 0, 5] true =
        .ok (.list [.chainCommand (.chain .ethereum) (.command (.text "gas_price") (.int 5))]) ∧
      deserialize [0] = .ok (.list []) := by
  have hchains : ∀ c ∈ [Chain.ethereum], ∃ kind, feesOf? c.platform = some kind := by
    simp [Chain.platform, feesOf?]
  rcases @exists_messageLayout 14 _ (by decide) (by decide) hchains .empty with ⟨l, s', hbuilt⟩
  rcases decode_ok_iff_isMessage.1 (by decide) (by decide) hbuilt with ⟨c, hcompile, hdecode⟩
  have hempty : IsMessage [.ethereum, .solana] 32 (0 :: [].flatten) (.list []) := .intro rfl .nil
  exact ⟨l, s', c, hbuilt, hcompile, (hdecode _ _).2 (isMessage_gasPrice List.mem_cons_self),
    (decode_ok_iff_isMessage.2 _ _).2 hempty⟩

end PriceUpdate
end WireLayout
