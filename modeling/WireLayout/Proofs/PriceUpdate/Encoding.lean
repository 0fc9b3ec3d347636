import WireLayout.Proofs.PriceUpdate.Wire

/-!
# Encoding — the updates that are written

The updates that can be sent, and their bytes, without any layout:

* an update is a list or a tuple of at most 255 commands for chains (`PriceUpdate.WritesUpdate`);
* a command names one of the allowed chains, and either all fee parameters of its platform or one of
  them (`PriceUpdate.WritesEntry`, `PriceUpdate.WritesPayload`);
* every parameter is an integer, and no truth value, that has room in its bytes
  (`PriceUpdate.WritesUint`).

`PriceUpdate.encode_ok_iff_writesUpdate` says that the layouts that are built for messages write
these updates in these bytes and no others, and that they read what they wrote as an equal list.
-/

namespace WireLayout

namespace PriceUpdate

/-! ## The updates and their bytes -/

/-- An integer with room in a number of bytes, and its digits. -/
def WritesUint (size : Nat) (v : Value) (bs : List UInt8) : Prop :=
  ∃ n : Nat, Uint.integer? v = some n ∧ n < 256 ^ size ∧ bs = BigEndian.encode size n

/-- A command by its name and its value, and the number and the payload that stand for it. -/
inductive WritesPayload (kind : FeeKind) (slot : Int) :
    (name : String) → Value → (tag : Nat) → List UInt8 → Prop where
  -- zero bytes fill the slot behind the three parameters
  | fees {x y z : Value} {p q r : List UInt8} (first : WritesUint 4 x p) (second : WritesUint 4 y q)
      (third : WritesUint 6 z r) :
    WritesPayload kind slot feeParams (kind.build x y z) 0
      (p ++ (q ++ (r ++ List.replicate (slot - 14).toNat 0)))
  | scalar {tag size : Nat} {name : String} {value : Value} {bs : List UInt8}
      (known : (tag, name, size) ∈ scalars kind) (number : WritesUint size value bs) :
    WritesPayload kind slot name value tag bs

/-- A command for an allowed chain, and its bytes behind their length. -/
inductive WritesEntry (chains : List Chain) (slot : Int) : Value → List UInt8 → Prop where
  | intro {c : Chain} {kind : FeeKind} {name : String} {value : Value} {tag : Nat}
      {payload : List UInt8} (allowed : c ∈ chains) (platform : feesOf? c.platform = some kind)
      (content : WritesPayload kind slot name value tag payload) :
    WritesEntry chains slot (.chainCommand (.chain c) (.command (.text name) value))
      (UInt8.ofNat (3 + payload.length) ::
        (BigEndian.encode 2 c.id ++ UInt8.ofNat tag :: payload))

/-- An update, and its bytes behind the number of commands. -/
inductive WritesUpdate (chains : List Chain) (slot : Int) : Value → List UInt8 → Prop where
  | intro {x : Value} {items : List Value} {entries : List (List UInt8)}
      (sequence : x = .list items ∨ x = .tuple items) (few : items.length ≤ 255)
      (each : List.Forall₂ (WritesEntry chains slot) items entries) :
    WritesUpdate chains slot x (UInt8.ofNat items.length :: entries.flatten)

/-! ## Integers -/

theorem encode_uint_iff {size : Nat} (h : size ≤ 6) {v : Value} {bs : List UInt8} :
    Uint.encode v (.plain size) = .ok bs ↔ WritesUint size v bs := by
  have hlimit : (size : Int) < widthLimit := by
    simp only [widthLimit]
    omega
  rw [Uint.encode_ok_iff]
  simp only [Uint.bytesOf_ok_iff, Uint.Fits, Numeral.value_plain, Int.toNat_natCast]
  constructor
  · intro hbs
    rcases hbs with ⟨_, hn, n, rfl, hfits, rfl⟩
    exact ⟨n, hn, hfits.2.2, rfl⟩
  · intro hbs
    rcases hbs with ⟨n, hn, hroom, rfl⟩
    exact ⟨n, hn, n, rfl, ⟨by omega, hlimit, hroom⟩, rfl⟩

theorem length_of_writesUint {size : Nat} {v : Value} {bs : List UInt8}
    (h : WritesUint size v bs) : bs.length = size := by
  rcases h with ⟨n, _, _, rfl⟩
  exact BigEndian.length_encode size n

/-- The digits of an integer are read as a number that equals it. -/
theorem same_of_writesUint {size : Nat} {v : Value} {bs : List UInt8}
    (h : WritesUint size v bs) : (Value.int (BigEndian.decode bs)).same v = true := by
  rcases h with ⟨n, hn, hroom, rfl⟩
  rw [BigEndian.decode_encode hroom]
  exact Uint.same_of_integer? hn

/-- A number in one byte. -/
theorem bytesOf_byte_iff {n : Nat} {bs : List UInt8} :
    Uint.bytesOf n 1 = .ok bs ↔ n ≤ 255 ∧ bs = [UInt8.ofNat n] := by
  have hone : Uint.bytesOf n 1 = .ok bs ↔ WritesUint 1 (.int n) bs := by
    have hencode := @encode_uint_iff 1 (by decide) (.int n) bs
    exact hencode
  rw [hone]
  constructor
  · intro h
    rcases h with ⟨m, hm, hroom, rfl⟩
    have hn : n = m := Int.ofNat_inj.1 (Option.some.inj hm)
    subst hn
    have hmod : n % 256 = n := Nat.mod_eq_of_lt hroom
    exact ⟨Nat.le_of_lt_succ hroom, by rw [BigEndian.encode_succ, hmod]; rfl⟩
  · intro h
    rcases h with ⟨hn, rfl⟩
    have hroom : n < 256 := Nat.lt_succ_of_le hn
    exact ⟨n, rfl, hroom, by rw [BigEndian.encode_succ, Nat.mod_eq_of_lt hroom]; rfl⟩

theorem toNat_ofNat_of_le {n : Nat} (h : n ≤ 255) : (UInt8.ofNat n).toNat = n := by
  rw [UInt8.toNat_ofNat', Nat.mod_eq_of_lt (Nat.lt_succ_of_le h)]

/-- An array of one item is the item behind its count. -/
theorem bytesOf_single (element : Layout) (v : Value) :
    (Layout.array (.counted 1) element .plain).bytesOf (.list [v]) =
      (element.bytesOf v).map (1 :: ·) := by
  have hcount : Writer.collect (writeCount (.counted 1) 1) = .ok [1] :=
    collect_writeCount_ok_iff.2 (bytesOf_byte_iff.2 ⟨by decide, rfl⟩)
  have hplain : (Custom.plain : Custom Empty).beforeEncode (.list [v]) = .ok (.list [v]) := rfl
  have hitems : arrayItems (.list [v]) = .ok [v] := rfl
  have hnone : Writer.collect (writeEach element.encode []) = .ok [] := rfl
  have helement : Writer.collect (element.encode v) = element.bytesOf v := rfl
  rw [Layout.bytesOf_array, hplain, Except.ok_bind, hitems, Except.ok_bind, List.length_singleton,
    hcount, Except.ok_bind, collect_writeEach_cons element.appendOnly_encode, hnone, helement]
  cases element.bytesOf v with
  | ok b => exact congrArg (fun bs => Except.ok (1 :: bs)) (List.append_nil b)
  | error e => rfl

/-! ## Commands in the switch -/

variable {chains : List Chain} {slot : Numeral}

/-- What the switch writes for a name and a value: the number of a command and its payload. -/
inductive WritesRaw (slot : Int) : (name : String) → Value → (tag : Nat) → List UInt8 → Prop where
  | fees {form : BytesForm} {bs : List UInt8} (size : (bs.length : Int) = slot) :
    WritesRaw slot feeParams (.bytes form bs) 0 bs
  | scalar {tag size : Nat} {name : String} {value : Value} {bs : List UInt8}
      (known : (tag, name, size) ∈ commands) (number : WritesUint size value bs) :
    WritesRaw slot name value tag bs

/-- The dictionary that the switch gets for a command. -/
def nameAndValue (name value : Value) : Value :=
  .dict [(.text "name", name), (.text "value", value)]

theorem same_text_iff {v : Value} {s : String} : v.same (.text s) = true ↔ v = .text s := by
  cases v with
  | text t => simp [Value.same_text]
  | _ => simp [Value.same, Value.sameAtom, Value.numeral?]

theorem bytesOf_case_iff {item : Layout} (h : item.isOmitted = false) {name value : Value}
    {b : List UInt8} :
    Layout.bytesOf (.record [.mk "value" item]) (nameAndValue name value) = .ok b ↔
      item.bytesOf value = .ok b := by
  have hentry : Value.entry? "value" [(.text "name", name), (.text "value", value)] = some value :=
    rfl
  rw [nameAndValue, Layout.bytesOf_record, recordEntries, Except.ok_bind,
    Layout.fieldBytes_cons, Layout.input_of_entry h hentry, Except.ok_bind, Layout.fieldBytes_nil]
  simp only [Except.bind_ok_iff, Except.ok_bind, List.append_nil, Except.pure_ok_iff,
    exists_eq_right]

theorem bytesOf_slot_iff {v : Value} {b : List UInt8} :
    Layout.bytesOf (.blob (Framing.ofSize (some slot)) .plain .off) v = .ok b ↔
      ∃ form, v = .bytes form b ∧ (b.length : Int) = slot.value := by
  have hplain : ∀ content, (Custom.plain : Custom (List UInt8)) ≠ .constant content :=
    fun content => nofun
  rw [Layout.bytesOf_blob_ok_iff hplain]
  constructor
  · intro h
    rcases h with ⟨_, payload, _, ⟨⟩, hcontent, ⟨rfl, hsize⟩, rfl⟩
    cases v with
    | bytes form content =>
      cases hcontent
      exact ⟨form, rfl, hsize⟩
    | _ => cases hcontent
  · intro h
    rcases h with ⟨form, rfl, hsize⟩
    exact ⟨_, b, [], rfl, rfl, ⟨rfl, hsize⟩, rfl⟩

theorem bounds_of_mem_commands {tag size : Nat} {name : String}
    (h : (tag, name, size) ∈ commands) : tag ≤ 5 ∧ size ≤ 6 := by
  have hall : ∀ d ∈ commands, d.1 ≤ 5 ∧ d.2.2 ≤ 6 := by
    decide
  exact hall _ h

theorem distinct_commandNames : (commandCases (some slot)).Pairwise fun c d =>
    c.name.same d.name = false := by
  have hnames : ((commandCases (some slot)).map Case.name).Pairwise fun a b =>
      a.same b = false := by
    have hvalues : (commandCases (some slot)).map Case.name = commandNames := rfl
    rw [hvalues]
    decide
  exact List.pairwise_map.1 hnames

/-- The switch writes the commands that it knows by name. -/
theorem caseBytes_commandCases_iff {name value : Value} {b : List UInt8} :
    Layout.caseBytes 1 (commandCases (some slot)) name (nameAndValue name value) = .ok b ↔
      ∃ s tag payload, name = .text s ∧ WritesRaw slot.value s value tag payload ∧
        b = UInt8.ofNat tag :: payload := by
  constructor
  · intro h
    rcases Layout.mem_of_caseBytes h with ⟨c, hc, hname, tag, body, htag, hbody, rfl⟩
    rw [commandCases_eq] at hc
    rcases List.mem_cons.1 hc with rfl | hc
    · rcases bytesOf_slot_iff.1 ((bytesOf_case_iff rfl).1 hbody) with ⟨form, rfl, hsize⟩
      rcases bytesOf_byte_iff.1 htag with ⟨_, rfl⟩
      exact ⟨feeParams, 0, body, same_text_iff.1 hname, .fees hsize, rfl⟩
    · rcases List.mem_map.1 hc with ⟨⟨number, s, size⟩, hmem, rfl⟩
      have hvalue := (bytesOf_case_iff rfl).1 hbody
      rw [plainUint, bytesOf_plain_uint, encode_uint_iff (bounds_of_mem_commands hmem).2] at hvalue
      rcases bytesOf_byte_iff.1 htag with ⟨_, rfl⟩
      exact ⟨s, number, body, same_text_iff.1 hname, .scalar hmem hvalue, rfl⟩
  · intro h
    rcases h with ⟨s, tag, payload, rfl, hraw, rfl⟩
    cases hraw with
    | @fees form bs hsize =>
      have hvalue : Layout.bytesOf (.blob (Framing.ofSize (some slot)) .plain .off)
          (.bytes form payload) = .ok payload := bytesOf_slot_iff.2 ⟨form, rfl, hsize⟩
      have hbody := (@bytesOf_case_iff _ rfl (.text feeParams) _ _).2 hvalue
      exact Layout.caseBytes_of_mem (c := commandCase 0 feeParams _) List.mem_cons_self
        distinct_commandNames (bytesOf_byte_iff.2 ⟨by decide, rfl⟩) hbody
    | @scalar tag size s value bs hmem hnumber =>
      have hcase : scalarCase (tag, s, size) ∈ commandCases (some slot) :=
        List.mem_cons_of_mem _ (List.mem_map_of_mem hmem)
      have hvalue : (plainUint (.plain size)).bytesOf value = .ok payload := by
        rw [plainUint, bytesOf_plain_uint]
        exact (encode_uint_iff (bounds_of_mem_commands hmem).2).2 hnumber
      have hbody := (@bytesOf_case_iff (plainUint (.plain size)) rfl (.text s) _ _).2 hvalue
      have htag : tag ≤ 255 := Nat.le_trans (bounds_of_mem_commands hmem).1 (by decide)
      exact Layout.caseBytes_of_mem hcase distinct_commandNames (bytesOf_byte_iff.2 ⟨htag, rfl⟩)
        hbody

/-! ## Commands as they are handed to the switch -/

theorem holds_iff {kind : FeeKind} {v : Value} :
    kind.holds v = true ↔ ∃ x y z, v = kind.build x y z := by
  cases kind <;> cases v <;> simp [FeeKind.holds, FeeKind.build]

theorem feesFor_ok_iff {schema : FeeSchema} {c : Chain} {value fees : Value} :
    feesFor schema c value = .ok fees ↔
      fees = value ∧ ∃ x y z, value = schema.kind.build x y z := by
  have heither : schema.kind.holds value = true →
      (FeeKind.evm.holds value || FeeKind.solana.holds value) = true := by
    intro h
    cases hkind : schema.kind <;> rw [hkind] at h <;> simp [h]
  rw [← holds_iff]
  unfold feesFor
  by_cases hholds : schema.kind.holds value = true
  · rw [if_pos (heither hholds), if_pos hholds]
    simp [hholds, eq_comm]
  -- parameters of the other platform and other values fail differently, but both fail
  · rw [if_neg hholds]
    split <;> simp [hholds]

/-- The value that the switch gets for that of a command. -/
def switchValue (schema : FeeSchema) (c : Chain) (name value : Value) : Except Error Value :=
  if name.same (.text feeParams) then do
    let fees ← feesFor schema c value
    let slot ← schema.pack fees
    return .raw slot
  else do
    checkCommand schema (.chain c) name
    return value

theorem same_feeParams_iff {name : String} :
    (Value.text name).same (.text feeParams) = true ↔ name = feeParams := by
  rw [same_text_iff, Value.text.injEq]

/-- Fee parameters are handed over as the bytes of a slot. -/
theorem switchValue_feeParams_ok_iff {schema : FeeSchema} {c : Chain} {value packed : Value} :
    switchValue schema c (.text feeParams) value = .ok packed ↔
      ∃ u v w slot, value = schema.kind.build u v w ∧ schema.pack value = .ok slot ∧
        packed = .raw slot := by
  rw [switchValue, if_pos (same_feeParams_iff.2 rfl)]
  simp only [Except.bind_ok_iff, Except.pure_ok_iff, feesFor_ok_iff]
  constructor
  · rintro ⟨_, ⟨rfl, u, v, w, hvalue⟩, slot, hslot, rfl⟩
    exact ⟨u, v, w, slot, hvalue, hslot, rfl⟩
  · rintro ⟨u, v, w, slot, hvalue, hslot, rfl⟩
    exact ⟨value, ⟨rfl, u, v, w, hvalue⟩, slot, hslot, rfl⟩

theorem ofCommand_chain (schemas : Schemas) (c : Chain) (command : Value) :
    ofCommand schemas (.chainCommand (.chain c) command) = (do
      let (name, value) ← commandParts command
      let schema ← schemaOf schemas (.chain c)
      let value' ← switchValue schema c name value
      return description c name value') := by
  simp only [ofCommand, switchValue]
  refine bind_congr fun parts => bind_congr fun schema => ?_
  by_cases hname : parts.1.same (.text feeParams) = true
  · simp [hname, description]
  · simp [hname, description]

theorem ofCommand_ok_iff {schemas : Schemas} {v raw : Value} :
    ofCommand schemas v = .ok raw ↔
      ∃ c command name value schema value', v = .chainCommand (.chain c) command ∧
        commandParts command = .ok (name, value) ∧ schemaOf schemas (.chain c) = .ok schema ∧
        switchValue schema c name value = .ok value' ∧ raw = description c name value' := by
  constructor
  · intro h
    cases v with
    | chainCommand chain command =>
      cases chain with
      | chain c =>
        simp only [ofCommand_chain, Except.bind_ok_iff, Except.pure_ok_iff] at h
        rcases h with ⟨⟨name, value⟩, hparts, schema, hschema, value', hvalue, rfl⟩
        exact ⟨c, command, name, value, schema, value', rfl, hparts, hschema, hvalue, rfl⟩
      | _ =>
        rcases Except.bind_ok_iff.1 h with ⟨_, _, h⟩
        cases h
    | _ => cases h
  · intro h
    rcases h with ⟨c, command, name, value, schema, value', rfl, hparts, hschema, hvalue, rfl⟩
    simp only [ofCommand_chain, hparts, hschema, hvalue, Except.ok_bind, Except.pure_ok_iff]

theorem chainName_ne_feeParams (c : Chain) : c.name ≠ feeParams := by
  cases c <;> decide

/-- A chain in the place of a command has no name that the switch knows. -/
theorem not_writesRaw_chain {c : Chain} {value : Value} {tag : Nat} {payload : List UInt8} :
    ¬ WritesRaw slot.value c.name value tag payload := by
  have hcommands : ∀ d : Chain, ∀ command ∈ commands, command.2.1 ≠ d.name := by
    intro d
    cases d <;> decide
  intro h
  -- an index has to be a variable before the cases can be told apart
  generalize hname : c.name = name at h
  cases h with
  | fees => exact chainName_ne_feeParams c hname
  | scalar hmem => exact hcommands c _ hmem hname.symm

/-- What the switch writes for a command is the documented payload. -/
theorem writesPayload_iff {kind : FeeKind} {schema : FeeSchema}
    (serves : Serves kind (slot.value - 14).toNat schema) (hlow : 14 ≤ slot.value) {c : Chain}
    {name : String} {value : Value} {tag : Nat} {payload : List UInt8} :
    (∃ value', switchValue schema c (.text name) value = .ok value' ∧
      WritesRaw slot.value name value' tag payload) ↔
        WritesPayload kind slot.value name value tag payload := by
  have hslot : IsSlot schema.kind (slot.value - 14).toNat schema.codec.layout := by
    rw [serves.kind_eq]
    exact serves.isSlot
  constructor
  · intro h
    rcases h with ⟨value', hvalue, hraw⟩
    cases hraw with
    -- the switch was handed bytes, so the value went through the slot of the schema
    | fees hsize =>
      rcases switchValue_feeParams_ok_iff.1 hvalue with ⟨x, y, z, _, rfl, hpack, ⟨⟩⟩
      rcases (FeeSchema.pack_ok_iff hslot).1 hpack with ⟨p, q, r, hp, hq, hr, rfl⟩
      rw [serves.kind_eq]
      exact .fees ((encode_uint_iff (by decide)).1 hp) ((encode_uint_iff (by decide)).1 hq)
        ((encode_uint_iff (by decide)).1 hr)
    | scalar hmem hnumber =>
      rw [switchValue, (of_mem_commands hmem).2.1, if_neg Bool.false_ne_true, Except.seq_ok_iff,
        checkCommand_ok_iff hmem, serves.names_eq, Except.pure_ok_iff] at hvalue
      rcases hvalue with ⟨hnames, rfl⟩
      exact .scalar (mem_scalars_iff.2 ⟨hmem, hnames⟩) hnumber
  · intro h
    cases h with
    | @fees x y z p q r hp hq hr =>
      have hpack : schema.pack (schema.kind.build x y z) =
          .ok (p ++ (q ++ (r ++ List.replicate (slot.value - 14).toNat 0))) :=
        (FeeSchema.pack_ok_iff hslot).2 ⟨p, q, r, (encode_uint_iff (by decide)).2 hp,
          (encode_uint_iff (by decide)).2 hq, (encode_uint_iff (by decide)).2 hr, rfl⟩
      refine ⟨.raw _, ?_, .fees ?_⟩
      · rw [← serves.kind_eq]
        exact switchValue_feeParams_ok_iff.2 ⟨x, y, z, _, rfl, hpack, rfl⟩
      · simp only [List.length_append, length_of_writesUint hp, length_of_writesUint hq,
          length_of_writesUint hr, List.length_replicate]
        omega
    | scalar hmem hnumber =>
      rcases mem_scalars_iff.1 hmem with ⟨hmem, hnames⟩
      refine ⟨value, ?_, .scalar hmem hnumber⟩
      rw [switchValue, (of_mem_commands hmem).2.1, if_neg Bool.false_ne_true, Except.seq_ok_iff,
        checkCommand_ok_iff hmem, serves.names_eq]
      exact ⟨hnames, rfl⟩

/-! ## Entries -/

theorem bytesOf_chain_iff {c : Chain} {serial : Nat} {b : List UInt8} :
    Layout.bytesOf (.uint 2 (.converted (chainConversion serial (some (chains.map .chain)))) .off)
        (.chain c) = .ok b ↔
      c ∈ chains ∧ b = BigEndian.encode 2 c.id := by
  have hconverted : ∀ n, (Custom.converted (chainConversion serial (some (chains.map .chain))) :
      Custom Numeral) ≠ .constant n := fun n => nofun
  have hroom : WritesUint 2 (.int c.id) (BigEndian.encode 2 c.id) := by
    refine ⟨c.id, rfl, ?_, rfl⟩
    cases c <;> decide
  have hwritten : ∀ b, Uint.encode (.int c.id) 2 = .ok b ↔ b = BigEndian.encode 2 c.id := by
    intro b
    have hid : Uint.encode (.int c.id) 2 = .ok (BigEndian.encode 2 c.id) :=
      (encode_uint_iff (by decide)).2 hroom
    rw [hid, Except.ok.injEq]
    exact eq_comm
  rw [Layout.bytesOf_uint_ok_iff hconverted]
  simp only [Custom.beforeEncode, chainConversion, numberOfChain, Except.map_ok_iff,
    allowedChain_ok_iff]
  constructor
  · intro h
    rcases h with ⟨_, ⟨_, ⟨hc, rfl⟩, rfl⟩, hb⟩
    exact ⟨hc, (hwritten b).1 hb⟩
  · intro h
    exact ⟨_, ⟨c, ⟨h.1, rfl⟩, rfl⟩, (hwritten b).2 h.2⟩

theorem bytesOf_switch_iff {name value : Value} {b : List UInt8} :
    (commandSwitch (some slot)).bytesOf (nameAndValue name value) = .ok b ↔
      ∃ s tag payload, name = .text s ∧ WritesRaw slot.value s value tag payload ∧
        b = UInt8.ofNat tag :: payload := by
  -- a name that cannot be a key is refused before it is compared
  have hpart : caseName "name" (nameAndValue name value) =
      if name.isKey then .ok name else .error (.misuse .wrongType) := rfl
  rw [commandSwitch, Layout.bytesOf_switch_ok_iff]
  constructor
  · intro h
    rcases h with ⟨_, found, ⟨⟩, hname, hb⟩
    rw [hpart] at hname
    split at hname
    · cases hname
      exact caseBytes_commandCases_iff.1 hb
    · cases hname
  · intro h
    rcases h with ⟨s, tag, payload, rfl, hraw, rfl⟩
    exact ⟨_, .text s, rfl, rfl, caseBytes_commandCases_iff.2 ⟨s, tag, payload, rfl, hraw, rfl⟩⟩

theorem bytesOf_entry_iff {c : Chain} {serial : Nat} {name value : Value} {b : List UInt8} :
    (entry chains slot serial).bytesOf (description c name value) = .ok b ↔
      c ∈ chains ∧ ∃ s tag payload, name = .text s ∧ WritesRaw slot.value s value tag payload ∧
        b = BigEndian.encode 2 c.id ++ UInt8.ofNat tag :: payload := by
  have hchain : Value.entry? "chain" [(.text "chain", .chain c),
      (.text "command", nameAndValue name value)] = some (.chain c) := rfl
  have hcommand : Value.entry? "command" [(.text "chain", .chain c),
      (.text "command", nameAndValue name value)] = some (nameAndValue name value) := rfl
  have hdescription : description c name value = .dict [(.text "chain", .chain c),
      (.text "command", nameAndValue name value)] := rfl
  rw [entry, hdescription, Layout.bytesOf_record, recordEntries, Except.ok_bind]
  simp only [Layout.fieldBytes_cons_ok_iff]
  constructor
  · intro h
    rcases h with ⟨_, first, _, hinput, hfirst, ⟨_, second, _, hinput', hsecond, hnil, rfl⟩, rfl⟩
    rw [Layout.input_of_entry rfl hchain, Except.ok.injEq] at hinput
    rw [Layout.input_of_entry rfl hcommand, Except.ok.injEq] at hinput'
    rw [Layout.fieldBytes_nil, Except.ok.injEq] at hnil
    subst hinput hinput' hnil
    rcases bytesOf_chain_iff.1 hfirst with ⟨hc, rfl⟩
    rcases bytesOf_switch_iff.1 hsecond with ⟨s, tag, payload, rfl, hraw, rfl⟩
    exact ⟨hc, s, tag, payload, rfl, hraw, by rw [List.append_nil]⟩
  · intro h
    rcases h with ⟨hc, s, tag, payload, rfl, hraw, rfl⟩
    have hsecond := bytesOf_switch_iff.2 ⟨s, tag, payload, rfl, hraw, rfl⟩
    exact ⟨_, _, _, Layout.input_of_entry rfl hchain, bytesOf_chain_iff.2 ⟨hc, rfl⟩,
      ⟨_, _, _, Layout.input_of_entry rfl hcommand, hsecond, Layout.fieldBytes_nil _, rfl⟩,
      by rw [List.append_nil]⟩

/-- Three bytes stand before the payload in an entry: the chain and the number of the command. -/
theorem length_body (c : Chain) (tag : Nat) (payload : List UInt8) :
    (BigEndian.encode 2 c.id ++ UInt8.ofNat tag :: payload).length = 3 + payload.length := by
  rw [List.length_append, BigEndian.length_encode, List.length_cons]
  omega

theorem length_le_of_writesPayload {kind : FeeKind} {size : Int} {name : String} {value : Value}
    {tag : Nat} {payload : List UInt8} (h : WritesPayload kind size name value tag payload)
    (hlow : 14 ≤ size) : (payload.length : Int) ≤ size := by
  cases h with
  | fees hp hq hr =>
    simp only [List.length_append, length_of_writesUint hp, length_of_writesUint hq,
      length_of_writesUint hr, List.length_replicate]
    omega
  | scalar hmem hnumber =>
    have hsize := (bounds_of_mem_commands (mem_scalars_iff.1 hmem).1).2
    rw [length_of_writesUint hnumber]
    omega

section

variable {schemas : Schemas} {m n : Nat} (suits : Suits (slot.value - 14).toNat schemas)
  (hlow : 14 ≤ slot.value)

include suits hlow

/-- A command with its payload makes the body of an entry, whatever its length. -/
theorem exists_raw {c : Chain} {kind : FeeKind} {name : String} {value : Value} {tag : Nat}
    {payload : List UInt8} (hc : c ∈ chains) (hkind : feesOf? c.platform = some kind)
    (hpayload : WritesPayload kind slot.value name value tag payload) :
    ∃ raw, ofCommand schemas (.chainCommand (.chain c) (.command (.text name) value)) = .ok raw ∧
      (entry chains slot m).bytesOf raw =
        .ok (BigEndian.encode 2 c.id ++ UInt8.ofNat tag :: payload) := by
  rcases suits.serves hkind with ⟨schema, hschema, hserves⟩
  rcases (@writesPayload_iff slot _ _ hserves hlow c _ _ _ _).2 hpayload with
    ⟨value', hvalue, hswitch⟩
  have hraw := (@ofCommand_ok_iff schemas _ _).2
    ⟨c, .command (.text name) value, _, _, schema, value', rfl, rfl, hschema, hvalue, rfl⟩
  exact ⟨_, hraw, bytesOf_entry_iff.2 ⟨hc, name, tag, payload, rfl, hswitch, rfl⟩⟩

variable (hhigh : slot.value ≤ 252)

include hhigh

theorem bytesOf_framedEntry_iff {v : Value} {e : List UInt8} :
    (framedEntry chains slot m n schemas).bytesOf v = .ok e ↔
      WritesEntry chains slot.value v e := by
  rw [framedEntry, Layout.bytesOf_nested_ok_iff]
  constructor
  · intro h
    rcases h with ⟨raw, body, head, hraw, hbody, hhead, rfl⟩
    rcases ofCommand_ok_iff.1 hraw with
      ⟨c, command, name, value, schema, value', rfl, hparts, hschema, hvalue, rfl⟩
    rcases bytesOf_entry_iff.1 hbody with ⟨hc, s, tag, payload, rfl, hswitch, rfl⟩
    rcases bytesOf_byte_iff.1 hhead with ⟨_, rfl⟩
    cases command with
    | command name value =>
      cases hparts
      rcases suits.only hschema with ⟨kind, hkind⟩
      rcases suits.serves hkind with ⟨schema', hschema', hserves⟩
      -- one schema serves a chain, so it is the one that made the dictionary
      cases hschema.symm.trans hschema'
      have hpayload := (writesPayload_iff hserves hlow).1 ⟨value', hvalue, hswitch⟩
      have hentry := WritesEntry.intro hc hkind hpayload
      rw [length_body]
      exact hentry
    -- a chain passes for a command until its name reaches the switch
    | chain d =>
      cases hparts
      exact absurd hswitch not_writesRaw_chain
    | _ => cases hparts
  · intro h
    cases h with
    | @intro c kind name value tag payload hc hkind hpayload =>
      rcases @exists_raw chains _ _ m suits hlow _ _ _ _ _ _ hc hkind hpayload with
        ⟨raw, hraw, hbody⟩
      have hsize := length_le_of_writesPayload hpayload hlow
      refine ⟨_, _, [UInt8.ofNat (3 + payload.length)], hraw, hbody, ?_, rfl⟩
      rw [length_body]
      exact bytesOf_byte_iff.2 ⟨by omega, rfl⟩

/-- The layout of messages writes the documented updates and no other values. -/
theorem bytesOf_message_iff {x : Value} {b : List UInt8} :
    (message chains slot m n schemas).bytesOf x = .ok b ↔ WritesUpdate chains slot.value x b := by
  have hentry : ∀ v e, Writer.collect ((framedEntry chains slot m n schemas).encode v) = .ok e ↔
      WritesEntry chains slot.value v e := fun v e => bytesOf_framedEntry_iff suits hlow hhigh
  rw [message, Layout.bytesOf_array_ok_iff]
  constructor
  · intro h
    rcases h with ⟨_, items, head, body, ⟨⟩, hsequence, hhead, hbody, rfl⟩
    rcases bytesOf_byte_iff.1 hhead with ⟨hfew, rfl⟩
    rcases (collect_writeEach_ok_iff (Layout.appendOnly_encode _)).1 hbody with
      ⟨entries, heach, rfl⟩
    exact .intro (arrayItems_ok_iff.1 hsequence) hfew (heach.imp fun v e => (hentry v e).1)
  · intro h
    cases h with
    | @intro items entries hsequence hfew heach =>
      refine ⟨x, items, [UInt8.ofNat items.length], entries.flatten, rfl,
        arrayItems_ok_iff.2 hsequence, bytesOf_byte_iff.2 ⟨hfew, rfl⟩, ?_, rfl⟩
      exact (collect_writeEach_ok_iff (Layout.appendOnly_encode _)).2
        ⟨entries, heach.imp fun v e => (hentry v e).2, rfl⟩

end

/-! ## Reading what was written -/

theorem same_command (a b x y : Value) :
    (Value.command a b).same (.command x y) = (a.same x && b.same y) := rfl

theorem same_chainCommand (a b x y : Value) :
    (Value.chainCommand a b).same (.chainCommand x y) = (a.same x && b.same y) := rfl

theorem same_chain (c : Chain) : (Value.chain c).same (.chain c) = true := beq_self_eq_true _

theorem payload_of_writesPayload {kind : FeeKind} {size : Int} {name : String} {value : Value}
    {tag : Nat} {payload : List UInt8} (h : WritesPayload kind size name value tag payload)
    (hlow : 14 ≤ size) :
    ∃ found, Payload kind size tag payload (.command (.text name) found) ∧
      found.same value = true := by
  cases h with
  | @fees x y z p q r hp hq hr =>
    have hfirst := length_of_writesUint hp
    have hsecond := length_of_writesUint hq
    have hthird := length_of_writesUint hr
    refine ⟨_, .fees hfirst hsecond hthird ?_, ?_⟩
    · simp only [List.length_append, hfirst, hsecond, hthird, List.length_replicate]
      omega
    · rw [same_build, same_of_writesUint hp, same_of_writesUint hq, same_of_writesUint hr]
      rfl
  | scalar hmem hnumber =>
    rw [← length_of_writesUint hnumber] at hmem
    exact ⟨_, .scalar hmem, same_of_writesUint hnumber⟩

theorem isEntry_of_writesEntry {size : Int} {v : Value} {e : List UInt8}
    (h : WritesEntry chains size v e) (hlow : 14 ≤ size) (hhigh : size ≤ 252) :
    ∃ u, IsEntry chains size e u ∧ u.same v = true := by
  cases h with
  | @intro c kind name value tag payload hc hkind hpayload =>
    -- with slots of at most 252 bytes the length of an entry has room in its byte
    have hsize := length_le_of_writesPayload hpayload hlow
    rcases payload_of_writesPayload hpayload hlow with ⟨found, hfound, hsame⟩
    have htag : (UInt8.ofNat tag).toNat = tag := by
      refine toNat_ofNat_of_le ?_
      cases hpayload with
      | fees => exact Nat.zero_le 255
      | scalar hmem =>
        exact Nat.le_trans (bounds_of_mem_commands (mem_scalars_iff.1 hmem).1).1 (by decide)
    have hid : c.id < 256 ^ 2 := by
      cases c <;> decide
    rw [← htag] at hfound
    refine ⟨_, .intro hc hkind (BigEndian.length_encode 2 c.id) (BigEndian.decode_encode hid) hfound
      (toNat_ofNat_of_le (by omega)), ?_⟩
    rw [same_chainCommand, same_chain, same_command, same_text_iff.2 rfl, hsame]
    rfl

theorem isEntries_of_writesEntries {size : Int} (hlow : 14 ≤ size) (hhigh : size ≤ 252)
    {items : List Value} {entries : List (List UInt8)}
    (h : List.Forall₂ (WritesEntry chains size) items entries) :
    ∃ found, List.Forall₂ (IsEntry chains size) entries found ∧
      Value.sameAll found items = true := by
  induction h with
  | nil => exact ⟨[], .nil, rfl⟩
  | cons hentry _ ih =>
    rcases isEntry_of_writesEntry hentry hlow hhigh with ⟨u, hu, hsame⟩
    rcases ih with ⟨found, heach, hall⟩
    refine ⟨u :: found, .cons hu heach, ?_⟩
    rw [Value.sameAll, hsame, hall]
    rfl

/-- What was written is a message of an equal list. -/
theorem isMessage_of_writesUpdate {size : Int} (hlow : 14 ≤ size) (hhigh : size ≤ 252) {x : Value}
    {b : List UInt8} (h : WritesUpdate chains size x b) :
    ∃ items u, (x = .list items ∨ x = .tuple items) ∧ IsMessage chains size b u ∧
      u.same (.list items) = true := by
  cases h with
  | @intro items entries hsequence hfew heach =>
    rcases isEntries_of_writesEntries hlow hhigh heach with ⟨found, hentries, hsame⟩
    have hcount : (UInt8.ofNat items.length).toNat = entries.length := by
      rw [toNat_ofNat_of_le hfew, heach.length_eq]
    exact ⟨items, .list found, hsequence, .intro hcount hentries, hsame⟩

/-! ## Encoding -/

/-- The layouts that are built for messages write the documented updates and no other values, and
read what they wrote as an equal list. -/
theorem encode_ok_iff_writesUpdate {s s' : Registry} {l : Layout} (hlow : 14 ≤ slot.value)
    (hhigh : slot.value ≤ 252)
    (hbuilt : messageLayout (chains.map .chain) (some slot) s = .ok l s') :
    ∃ c, Codec.compile l = .ok c ∧
      (∀ x b, c.encode x = .ok b ↔ WritesUpdate chains slot.value x b) ∧
      ∀ x b, c.encode x = .ok b → ∃ items u, (x = .list items ∨ x = .tuple items) ∧
        c.decode b true = .ok u ∧ u.same (.list items) = true := by
  rcases messageLayout_ok hlow hhigh hbuilt with ⟨hchains, schemas, m, n, suits, rfl⟩
  rcases exists_codec schemas m n with ⟨c, hcompile, hlayout⟩
  have hencode : ∀ x b, c.encode x = .ok b ↔ WritesUpdate chains slot.value x b := by
    intro x b
    rw [Codec.encode_eq, hlayout]
    exact bytesOf_message_iff suits hlow hhigh
  refine ⟨c, hcompile, hencode, ?_⟩
  intro x b hb
  rcases isMessage_of_writesUpdate hlow hhigh ((hencode x b).1 hb) with
    ⟨items, u, hsequence, hmessage, hsame⟩
  exact ⟨items, u, hsequence, (decode_message_iff suits hlow hchains hlayout).2 hmessage, hsame⟩

/-- An update of two commands, in slots of sixteen bytes. -/
theorem encode_ok_iff_writesUpdate_two : ∃ l s' c,
    messageLayout ([Chain.ethereum, .solana].map .chain) (some 16) .empty = .ok l s' ∧
      Codec.compile l = .ok c ∧
      c.encode (.tuple [.chainCommand (.chain .ethereum)
          (.command (.text "fee_params") (.evmFees (.int 1) (.chain .ethereum) (.int 3))),
        .chainCommand (.chain .solana) (.command (.text "gas_token_price") (.int 7))]) =
        .ok [2, 19, 0, 2, 0, 0, 0, 0, 1, 0, 0, 0, 2, 0, 0, 0, 0, 0, 3, 0, 0,
          9, 0, 1, 3, 0, 0, 0, 0, 0, 7] := by
  rcases @exists_messageLayout 16 _ (by decide) (by decide) fees_of_default .empty with
    ⟨l, s', hbuilt⟩
  rcases encode_ok_iff_writesUpdate (by decide) (by decide) hbuilt with ⟨c, hcompile, hencode, _⟩
  have hfees : WritesPayload .evm 16 "fee_params" (.evmFees (.int 1) (.chain .ethereum) (.int 3)) 0
      ([0, 0, 0, 1] ++ ([0, 0, 0, 2] ++ ([0, 0, 0, 0, 0, 3] ++ List.replicate 2 0))) :=
    .fees ⟨1, rfl, by decide, by decide⟩ ⟨2, rfl, by decide, by decide⟩
      ⟨3, rfl, by decide, by decide⟩
  have hseven : WritesUint 6 (.int 7) [0, 0, 0, 0, 0, 7] := ⟨7, rfl, by decide, by decide⟩
  have hprice : WritesPayload .solana 16 "gas_token_price" (.int 7) 3 [0, 0, 0, 0, 0, 7] :=
    .scalar (by decide) hseven
  exact ⟨l, s', c, hbuilt, hcompile, (hencode _ _).2 (.intro (.inr rfl) (by decide)
    (.cons (.intro (by decide) rfl hfees) (.cons (.intro (by decide) rfl hprice) .nil)))⟩

end PriceUpdate
end WireLayout
