import WireLayout.Proofs.Failure
import WireLayout.Proofs.PriceUpdate.Wire
import WireLayout.Proofs.Truncation

/-!
# Failure — what can go wrong with messages that are not trusted

* `PriceUpdate.IsMessageCodec` — the codecs of the layouts that are built for messages, the one in
  use among them;
* `PriceUpdate.messageFaults` — the classes of failures that a message can end in;
* `PriceUpdate.decode_ok_or_fault` — any bytes are commands to allowed chains, or fail in a class of
  the list;
* `PriceUpdate.endsExactly_of_decode` — accepted messages have to be given in full and on their own,
  as those of all self-delimiting layouts.

The slots may be too large for an entry; then no message sets all parameters at once, but messages
fail in the same classes.
-/

namespace WireLayout

open Piece

namespace PriceUpdate

variable {chains : List Chain} {slot : Numeral} {schemas : Schemas} {m n : Nat}

/-! ## Codecs of messages -/

/-- A codec of messages to chains with fee parameters, with slots that have room for these. -/
inductive IsMessageCodec (chains : List Chain) : Codec → Prop where
  | intro {c : Codec} {slot : Numeral} {schemas : Schemas} {m n : Nat} (low : 14 ≤ slot.value)
      (high : slot.value - 14 < blockLimit)
      (fees : ∀ c ∈ chains, ∃ kind, feesOf? c.platform = some kind)
      (suits : Suits (slot.value - 14).toNat schemas)
      (layout_eq : c.layout = message chains slot m n schemas) : IsMessageCodec chains c

/-- A layout of messages that was built compiles to such a codec. -/
theorem isMessageCodec_of_messageLayout {slotSize : Option Numeral} {s s' : Registry} {l : Layout}
    (h : messageLayout (chains.map .chain) slotSize s = .ok l s') :
    ∃ c, Codec.compile l = .ok c ∧ IsMessageCodec chains c := by
  rcases slot_of_messageLayout h with ⟨slot, rfl, hlow, hhigh⟩
  rcases form_of_messageLayout hlow hhigh h with ⟨hfees, schemas, m, n, suits, rfl⟩
  rcases exists_codec schemas m n with ⟨c, hcompile, hlayout⟩
  exact ⟨c, hcompile, .intro hlow hhigh hfees suits hlayout⟩

/-- The layout in use compiles to such a codec. -/
theorem isMessageCodec_standard : ∃ c, IsMessageCodec [.ethereum, .solana] c ∧
    Codec.compile standard = .ok c ∧ ∀ d, deserialize d = c.decode d true := by
  rcases standard_eq with ⟨schemas, m, n, suits, hstandard⟩
  rcases @exists_codec [.ethereum, .solana] 32 schemas m n with ⟨c, hcompile, hlayout⟩
  rw [← hstandard] at hcompile
  have hlow : 14 ≤ (32 : Numeral).value := Int.le_of_lt (by decide)
  have hhigh : (32 : Numeral).value ≤ 252 := Int.le_of_lt (by decide)
  refine ⟨c, .intro hlow (padding_lt_blockLimit hhigh) fees_of_default suits hlayout, hcompile, ?_⟩
  intro d
  rw [deserialize, hcompile, Except.ok_bind]

/-! ## Parts of messages -/

theorem selfDelimiting_message : (message chains slot m n schemas).SelfDelimiting := ⟨nofun, nofun⟩

/-- One byte holds numbers that can be spelt. -/
theorem speltAsPrefix_one : (1 : Numeral).SpeltAsPrefix := by
  refine ⟨spellable_of_lt (by decide), fun bs hbs => ?_⟩
  rcases exists_singleton hbs with ⟨b, rfl⟩
  have hb : b.toNat < 256 := b.toNat_lt
  rw [decode_singleton]
  exact spellable_of_lt (n := b.toNat) (by omega)

theorem spelt_message (hlow : 14 ≤ slot.value) (hhigh : slot.value - 14 < blockLimit) :
    (message chains slot m n schemas).Everywhere Layout.Spelt := by
  have hslot : slot.spellable = true := by
    unfold blockLimit at hhigh
    exact spellable_of_lt (by omega)
  have hparameters : ∀ command ∈ commands, (plainUint (.plain command.2.2)).Spelt := by
    intro command hcommand
    have hsize : ∀ d ∈ commands, d.2.2 < 8 := by decide
    have hlt := hsize command hcommand
    exact spellable_of_lt (n := command.2.2) (by omega)
  exact everywhere_message speltAsPrefix_one speltAsPrefix_one trivial
    (spellable_of_lt (n := 2) (by decide)) speltAsPrefix_one ⟨hslot, nofun⟩ hparameters

/-! ## Faults -/

/-- The classes of failures that a message can end in. -/
def messageFaults : List ErrorKind :=
  [.truncatedInput, .trailingBytes, .unknownDiscriminator, .unsupportedChain,
    .invalidCommandForPlatform]

/-- Numbers that stand for no chain, or for one that is not allowed, are refused as chains. -/
theorem kind_of_chainOfNumber {number : Nat} (hnumber : number < 65536) {e : Error}
    (h : chainOfNumber (some (chains.map .chain)) (.int number) = .error e) :
    e.kind = .unsupportedChain := by
  unfold chainOfNumber at h
  split at h
  · cases h
    have hspelt : spellable number = true := spellable_of_lt (by omega)
    have hraw : (Error.unknownChainId (.int number)).spellable = true := hspelt
    exact Error.kind_of_spellable hraw
  · unfold allowedChain at h
    simp only at h
    split at h
    · cases h
    · cases h
      rfl

theorem exists_split {size : Nat} {bs : List UInt8} (h : size ≤ bs.length) :
    ∃ first rest, bs = first ++ rest ∧ first.length = size :=
  ⟨bs.take size, bs.drop size, (List.take_append_drop _ _).symm, List.length_take_of_le h⟩

/-- Bytes of at least the size of three parameters begin with them. -/
theorem exists_parameters {bs : List UInt8} (h : 14 ≤ bs.length) :
    ∃ p q r s, bs = p ++ (q ++ (r ++ s)) ∧ p.length = 4 ∧ q.length = 4 ∧ r.length = 6 := by
  rcases @exists_split 4 bs (by omega) with ⟨p, bs, rfl, hp⟩
  rw [List.length_append] at h
  rcases @exists_split 4 bs (by omega) with ⟨q, bs, rfl, hq⟩
  rw [List.length_append] at h
  rcases @exists_split 6 bs (by omega) with ⟨r, s, rfl, hr⟩
  exact ⟨p, q, r, s, rfl, hp, hq, hr⟩

/-- A command that the switch read is refused only because its name belongs to another platform: a
slot is always unpacked. -/
theorem kind_of_toCommand (suits : Suits (slot.value - 14).toNat schemas) (hlow : 14 ≤ slot.value)
    {c : Chain} {kind : FeeKind} (hkind : feesOf? c.platform = some kind) {tag : Nat}
    {payload : List UInt8} {name : String} {value : Value}
    (hraw : Raw slot.value tag payload name value) {e : Error}
    (h : toCommand schemas (description c (.text name) value) = .error e) :
    e.kind = .invalidCommandForPlatform := by
  cases hraw with
  | fees hsize =>
    rcases @exists_parameters payload (by omega) with ⟨p, q, r, s, rfl, hp, hq, hr⟩
    have hcommand := (toCommand_ok_iff suits hlow hkind (.fees hsize)).2
      ⟨_, rfl, .fees hp hq hr hsize⟩
    rw [hcommand] at h
    cases h
  | scalar hmem =>
    rcases suits.serves hkind with ⟨schema, hschema, _⟩
    rw [toCommand_description, hschema, Except.ok_bind, (of_mem_commands hmem).2.1,
      if_neg Bool.false_ne_true, Except.bind_error_iff] at h
    rcases h with h | ⟨_, _, h⟩
    · have hkey : (Value.text name).isKey = true := rfl
      unfold checkCommand at h
      simp only [hkey, (of_mem_commands hmem).2.2] at h
      cases hknown : schema.names.contains (.text name) with
      | true =>
        rw [hknown] at h
        cases h
      | false =>
        rw [hknown] at h
        cases h
        rfl
    · cases h

/-- Each part of a message can fail in the documented classes only. -/
theorem faults_message (hlow : 14 ≤ slot.value) (suits : Suits (slot.value - 14).toNat schemas)
    (hfees : ∀ c ∈ chains, ∃ kind, feesOf? c.platform = some kind) :
    (message chains slot m n schemas).Everywhere fun p => ∀ k, p.Fault k → k ∈ messageFaults := by
  -- a part without a conversion only notices that input ends, or what belongs to its kind
  refine everywhere_message ?message ?frame ?entry ?chain ?switch ?slot ?parameters
  case message =>
    intro k h
    cases h with
    | truncated => decide
    | conversion _ he => cases he
  case frame =>
    intro k h
    cases h with
    | truncated => decide
    | frame => decide
    | conversion hreads he =>
      rcases hreads with ⟨raw, ⟨head, body, rfl, _, hbody⟩, ⟨⟩⟩
      rcases reads_entry_iff.1 hbody with
        ⟨id, tag, payload, c, hc, name, value, rfl, _, _, hraw, rfl⟩
      rcases hfees c hc with ⟨kind, hkind⟩
      rw [kind_of_toCommand suits hlow hkind hraw he]
      decide
  case entry =>
    intro k h
    cases h with
    | truncated => decide
    | conversion _ he => cases he
  case chain =>
    intro k h
    cases h with
    | truncated => decide
    | conversion hreads he =>
      rcases hreads with ⟨bs, rfl, hbs, ⟨⟩⟩
      have hlength : bs.length = 2 := Int.ofNat_inj.1 hbs
      have hnumber := BigEndian.decode_lt bs
      rw [hlength] at hnumber
      rw [kind_of_chainOfNumber hnumber he]
      decide
  case switch =>
    intro k h
    cases h with
    | truncated => decide
    | unknownCase => decide
    | conversion _ he => cases he
  case slot =>
    intro k h
    cases h with
    | truncated => decide
    | conversion _ he => cases he
  case parameters =>
    intro command _ k h
    cases h with
    | truncated => decide
    | conversion _ he => cases he

/-! ## Outcomes -/

/-- A command to a chain that may be addressed, under a name that the chain's platform knows. -/
inductive IsCommand (chains : List Chain) : Value → Prop where
  | intro {c : Chain} {kind : FeeKind} {name : String} {value : Value} (allowed : c ∈ chains)
      (platform : feesOf? c.platform = some kind)
      (known : name = feeParams ∨ kind.parameterNames.contains (.text name) = true) :
    IsCommand chains (.chainCommand (.chain c) (.command (.text name) value))

/-- A list of commands, or a failure in one of the documented classes. -/
def CommandsOrFault (chains : List Chain) (res : Except Error Value) : Prop :=
  (∃ commands, res = .ok (.list commands) ∧ ∀ v ∈ commands, IsCommand chains v) ∨
    ∃ e, res = .error e ∧ e.kind ∈ messageFaults

theorem known_of_payload {kind : FeeKind} {size : Int} {tag : Nat} {payload : List UInt8}
    {command : Value} (h : Payload kind size tag payload command) :
    ∃ name value, command = .command (.text name) value ∧
      (name = feeParams ∨ kind.parameterNames.contains (.text name) = true) := by
  cases h with
  | fees => exact ⟨_, _, rfl, .inl rfl⟩
  | scalar hmem => exact ⟨_, _, rfl, .inr (mem_scalars_iff.1 hmem).2⟩

theorem isCommand_of_isEntry {size : Int} {entry : List UInt8} {v : Value}
    (h : IsEntry chains size entry v) : IsCommand chains v := by
  cases h with
  | intro hc hkind _ _ hpayload _ =>
    rcases known_of_payload hpayload with ⟨name, value, rfl, hknown⟩
    exact .intro hc hkind hknown

theorem isCommand_of_forall₂ {size : Int} {entries : List (List UInt8)} {commands : List Value}
    (h : List.Forall₂ (IsEntry chains size) entries commands) :
    ∀ v ∈ commands, IsCommand chains v := by
  induction h with
  | nil => simp
  | cons hentry _ ih => exact List.forall_mem_cons.2 ⟨isCommand_of_isEntry hentry, ih⟩

namespace IsMessageCodec

variable {c : Codec}

theorem nonNegative (h : IsMessageCodec chains c) : c.layout.Everywhere Layout.NonNegative := by
  cases h with
  | intro hlow _ _ _ hlayout =>
    rw [hlayout]
    exact nonNegative_message hlow _ _ _

theorem selfDelimiting (h : IsMessageCodec chains c) : c.layout.SelfDelimiting := by
  cases h with
  | intro _ _ _ _ hlayout =>
    rw [hlayout]
    exact selfDelimiting_message

/-- Messages are commands or fail in the documented classes. -/
theorem commandsOrFault (h : IsMessageCodec chains c) {d : List UInt8}
    (hsize : spellable d.length = true) : CommandsOrFault chains (c.decode d true) := by
  cases hdecode : c.decode d true with
  | ok u =>
    cases h with
    | intro hlow _ hfees suits hlayout =>
      cases (decode_message_iff suits hlow hfees hlayout).1 hdecode with
      | intro _ hentries => exact .inl ⟨_, rfl, isCommand_of_forall₂ hentries⟩
  | error e =>
    have hsizes := h.nonNegative
    cases h with
    | intro hlow hhigh hfees suits hlayout =>
      have hspelt : c.layout.Everywhere Layout.Spelt := by
        rw [hlayout]
        exact spelt_message hlow hhigh
      refine .inr ⟨e, rfl, ?_⟩
      rcases Codec.kind_of_decode hsizes hspelt hsize hdecode with ⟨p, hp, hfault⟩ | ⟨_, hkind⟩
      · rw [hlayout] at hp
        exact faults_message hlow suits hfees p hp e.kind hfault
      · rw [hkind]
        decide

end IsMessageCodec

theorem fees_of_ethereum : ∀ c ∈ [Chain.ethereum], ∃ kind, feesOf? c.platform = some kind := by
  simp [Chain.platform, feesOf?]

/-- Bytes that are not trusted are a list of commands to allowed chains, under names that their
platforms know, or fail in one of the documented classes.  This holds of the layouts that are built
for messages, whatever the size of their slots, and of the one in use.  Numbers of bytes can be
spelt unless they have thousands of digits. -/
theorem decode_ok_or_fault :
    (∀ {chains : List Chain} {slotSize : Option Numeral} {s s' : Registry} {l : Layout},
      messageLayout (chains.map .chain) slotSize s = .ok l s' →
      ∃ c, Codec.compile l = .ok c ∧ ∀ d : List UInt8, spellable d.length = true →
        CommandsOrFault chains (c.decode d true)) ∧
    ∀ d : List UInt8, spellable d.length = true →
      CommandsOrFault [.ethereum, .solana] (deserialize d) := by
  constructor
  · intro chains slotSize s s' l hbuilt
    rcases isMessageCodec_of_messageLayout hbuilt with ⟨c, hcompile, hcodec⟩
    exact ⟨c, hcompile, fun d hsize => hcodec.commandsOrFault hsize⟩
  · intro d hsize
    rcases isMessageCodec_standard with ⟨c, hcodec, _, hrun⟩
    rw [hrun]
    exact hcodec.commandsOrFault hsize

/-- A message with the price of gas is decoded; where only the count of its entries is left, it is
truncated. -/
theorem IsMessageCodec.gasPrice {c : Codec} (h : IsMessageCodec chains c)
    (allowed : Chain.ethereum ∈ chains) :
    c.decode [1, 7, 0, 2, 1, 0, 0, 0, 5] true = .ok gasPriceCommands ∧
      ∃ e, c.decode [1] true = .error e ∧ e.kind = .truncatedInput := by
  have hdecode : c.decode [1, 7, 0, 2, 1, 0, 0, 0, 5] true = .ok gasPriceCommands := by
    cases h with
    | intro hlow _ hfees suits hlayout =>
      exact (decode_message_iff suits hlow hfees hlayout).2 (isMessage_gasPrice allowed)
  have hsize : spellable ([1, 7, 0, 2, 1, 0, 0, 0, 5] : List UInt8).length = true :=
    spellable_of_lt (by decide)
  have hends := Codec.endsExactly h.nonNegative h.selfDelimiting hsize hdecode
  exact ⟨hdecode, hends.cut [1] [7, 0, 2, 1, 0, 0, 0, 5] rfl (by simp) true⟩

/-- A message that sets the price of gas, and one that announces an entry and ends there. -/
theorem decode_ok_or_fault_cut : ∃ l s' c,
    messageLayout ([Chain.ethereum].map .chain) (some 14) .empty = .ok l s' ∧
      Codec.compile l = .ok c ∧
      (c.decode [1, 7, 0, 2, 1, 0, 0, 0, 5] true = .ok gasPriceCommands ∧
        CommandsOrFault [.ethereum] (c.decode [1, 7, 0, 2, 1, 0, 0, 0, 5] true)) ∧
      ((∃ e, c.decode [1] true = .error e ∧ e.kind = .truncatedInput) ∧
        CommandsOrFault [.ethereum] (c.decode [1] true)) ∧
      (deserialize [1, 7, 0, 2, 1, 0, 0, 0, 5] = .ok gasPriceCommands ∧
        CommandsOrFault [.ethereum, .solana] (deserialize [1, 7, 0, 2, 1, 0, 0, 0, 5])) ∧
      (∃ e, deserialize [1] = .error e ∧ e.kind = .truncatedInput) ∧
        CommandsOrFault [.ethereum, .solana] (deserialize [1]) := by
  have hone : spellable ([1] : List UInt8).length = true := spellable_of_lt (by decide)
  have hnine : spellable ([1, 7, 0, 2, 1, 0, 0, 0, 5] : List UInt8).length = true :=
    spellable_of_lt (by decide)
  rcases @exists_messageLayout 14 _ (by decide) (by decide) fees_of_ethereum .empty with
    ⟨l, s', hbuilt⟩
  rcases decode_ok_or_fault.1 hbuilt with ⟨c, hcompile, hdecode⟩
  have hbuiltRuns : c.decode [1, 7, 0, 2, 1, 0, 0, 0, 5] true = .ok gasPriceCommands ∧
      ∃ e, c.decode [1] true = .error e ∧ e.kind = .truncatedInput := by
    rcases isMessageCodec_of_messageLayout hbuilt with ⟨c', hcompile', hcodec⟩
    rw [hcompile, Except.ok.injEq] at hcompile'
    exact hcompile' ▸ hcodec.gasPrice List.mem_cons_self
  have hrunsInUse : deserialize [1, 7, 0, 2, 1, 0, 0, 0, 5] = .ok gasPriceCommands ∧
      ∃ e, deserialize [1] = .error e ∧ e.kind = .truncatedInput := by
    rcases isMessageCodec_standard with ⟨c', hcodec, _, hrun⟩
    rw [hrun, hrun]
    exact hcodec.gasPrice List.mem_cons_self
  exact ⟨l, s', c, hbuilt, hcompile, ⟨hbuiltRuns.1, hdecode _ hnine⟩,
    ⟨hbuiltRuns.2, hdecode _ hone⟩, ⟨hrunsInUse.1, decode_ok_or_fault.2 _ hnine⟩, hrunsInUse.2,
    decode_ok_or_fault.2 _ hone⟩

/-- A value that a self-delimiting layout accepts shows where it ends: cut off anywhere it is
truncated input, and continued it leaves input behind.  The layouts that are built for messages, and
the one in use, are among these layouts. -/
theorem endsExactly_of_decode :
    (∀ c : Codec, c.layout.Everywhere Layout.NonNegative → c.layout.SelfDelimiting →
      ∀ (b : List UInt8) (u : Value), spellable b.length = true → c.decode b true = .ok u →
        c.EndsExactly b u) ∧
    (∀ {chains : List Chain} {slotSize : Option Numeral} {s s' : Registry} {l : Layout},
      messageLayout (chains.map .chain) slotSize s = .ok l s' →
      ∃ c, Codec.compile l = .ok c ∧ ∀ (b : List UInt8) (u : Value), spellable b.length = true →
        c.decode b true = .ok u → c.EndsExactly b u) ∧
    ∃ c, Codec.compile standard = .ok c ∧ ∀ (b : List UInt8) (u : Value),
      spellable b.length = true → deserialize b = .ok u → c.EndsExactly b u := by
  refine ⟨?_, ?_, ?_⟩
  · intro c sizes delimits b u hsize hdecode
    exact Codec.endsExactly sizes delimits hsize hdecode
  · intro chains slotSize s s' l hbuilt
    rcases isMessageCodec_of_messageLayout hbuilt with ⟨c, hcompile, hcodec⟩
    refine ⟨c, hcompile, fun b u hsize hdecode => ?_⟩
    exact Codec.endsExactly hcodec.nonNegative hcodec.selfDelimiting hsize hdecode
  · rcases isMessageCodec_standard with ⟨c, hcodec, hcompile, hrun⟩
    refine ⟨c, hcompile, fun b u hsize hdecode => ?_⟩
    rw [hrun] at hdecode
    exact Codec.endsExactly hcodec.nonNegative hcodec.selfDelimiting hsize hdecode

/-- A value of the specimen, cut off in the array and continued by one byte, and messages without
entries, cut off before their count. -/
theorem endsExactly_of_decode_specimen :
    (∃ e, Codec.specimen.decode [1, 2, 6, 2, 3] false = .error e ∧ e.kind = .truncatedInput) ∧
      (∃ e, Codec.specimen.decode [1, 2, 6, 2, 3, 4, 1, 5, 5, 0] true = .error e ∧
        e.kind = .trailingBytes) ∧
      (∃ l s' c, messageLayout ([Chain.ethereum].map .chain) (some 14) .empty = .ok l s' ∧
        Codec.compile l = .ok c ∧ c.EndsExactly [0] (.list [])) ∧
      ∃ c, Codec.compile standard = .ok c ∧ c.EndsExactly [0] (.list []) := by
  have hspecimen : Codec.specimen.EndsExactly [1, 2, 6, 2, 3, 4, 1, 5, 5] Layout.specimenValue :=
    endsExactly_of_decode.1 .specimen Layout.nonNegative_specimen Layout.selfDelimiting_specimen _ _
      (spellable_of_lt (by decide)) rfl
  have hsize : spellable ([0] : List UInt8).length = true := spellable_of_lt (by decide)
  -- no entries are a message whatever the chains and the slots are
  have hempty : ∀ {chains c}, IsMessageCodec chains c → c.decode [0] true = .ok (.list []) := by
    intro chains c hcodec
    cases hcodec with
    | intro hlow _ hfees suits hlayout =>
      exact (decode_message_iff suits hlow hfees hlayout).2 (.intro rfl .nil)
  refine ⟨hspecimen.cut [1, 2, 6, 2, 3] [4, 1, 5, 5] rfl (by simp) false,
    (hspecimen.continued [0] (by simp) hsize).1, ?_, ?_⟩
  · rcases @exists_messageLayout 14 _ (by decide) (by decide) fees_of_ethereum .empty with
      ⟨l, s', hbuilt⟩
    rcases endsExactly_of_decode.2.1 hbuilt with ⟨c, hcompile, hends⟩
    rcases isMessageCodec_of_messageLayout hbuilt with ⟨c', hcompile', hcodec⟩
    rw [hcompile, Except.ok.injEq] at hcompile'
    subst hcompile'
    exact ⟨l, s', c, hbuilt, hcompile, hends _ _ hsize (hempty hcodec)⟩
  · rcases endsExactly_of_decode.2.2 with ⟨c, hcompile, hends⟩
    rcases isMessageCodec_standard with ⟨c', hcodec, _, hrun⟩
    exact ⟨c, hcompile, hends _ _ hsize ((hrun _).trans (hempty hcodec))⟩

end PriceUpdate
end WireLayout
