import WireLayout.PriceUpdate.Slot
import WireLayout.Proofs.Registration
import WireLayout.Proofs.Window

/-!
# Padding — slots behave like the records that they hold

A record of static size is padded with zero bytes under a reserved name, which are written whatever
the value and skipped when reading.

* `Layout.padded` — the fields of a record with padding behind them;
* `Layout.bytesOf_padded`, `Layout.decode_padded` — what is written and read in a padded record;
* `Codec.Pads` — a codec writes and reads what another does, with padding behind it;
* `PriceUpdate.padToSlot_record` — what padding comes to, by the size of the record;
* `PriceUpdate.padFields_ok_iff`, `PriceUpdate.kind_of_padFields` — when it succeeds and why it
  fails;
* `PriceUpdate.padToSlot_transparent` — which slots can be made for a record, and what they do.
-/

namespace WireLayout

namespace Layout

variable {fields later : List Field}

/-! ## Records in two parts -/

theorem decodeFields_append :
    decodeFields (fields ++ later) = (do
      let entries ← decodeFields fields
      let more ← decodeFields later
      return entries ++ more) := by
  induction fields with
  | nil =>
    funext r
    have hnil : (decodeFields [] : Decoding (List (Label × Value))) r = .ok [] r := rfl
    simp only [List.nil_append, Bind.bind, EStateM.bind, hnil]
    cases decodeFields later r <;> rfl
  | cons f fields ih =>
    rcases f with ⟨name, item⟩
    rw [List.cons_append, decodeFields, ih, decodeFields]
    simp only [bind_assoc, pure_bind]
    split <;> rfl

theorem fieldBytes_append (entries : List (Label × Value)) :
    fieldBytes (fields ++ later) entries = (do
      let first ← fieldBytes fields entries
      let second ← fieldBytes later entries
      return first ++ second) := by
  induction fields with
  | nil =>
    rw [List.nil_append, fieldBytes_nil, Except.ok_bind]
    exact (Except.bind_ok_eq _).symm
  | cons f fields ih =>
    rcases f with ⟨name, item⟩
    rw [List.cons_append, fieldBytes_cons, ih, fieldBytes_cons]
    simp only [bind_assoc, pure_bind, List.append_assoc]

theorem recordSize_append {total : Int} {n : Numeral}
    (h : recordSize total fields = .ok (some n)) :
    recordSize total (fields ++ later) = recordSize n.value later := by
  induction fields generalizing total with
  | nil =>
    cases h
    rfl
  | cons f fields ih =>
    rcases f with ⟨name, item⟩
    rcases Except.bind_ok_iff.1 h with ⟨size, hsize, h⟩
    cases size with
    | none => cases h
    | some m =>
      rw [List.cons_append, recordSize, hsize, Except.ok_bind]
      exact ih h

theorem fieldsAreKeys_append :
    fieldsAreKeys (fields ++ later) = (fieldsAreKeys fields && fieldsAreKeys later) := by
  induction fields with
  | nil => rfl
  | cons f fields ih =>
    rcases f with ⟨name, item⟩
    rw [List.cons_append, fieldsAreKeys, ih, fieldsAreKeys, Bool.and_assoc]

/-! ## Padding -/

/-- Zero bytes under a reserved name. -/
def padding (count : Nat) : Field :=
  .mk "reserved" (.blob .unframed (.constant (List.replicate count 0)) .on)

/-- A record with zero bytes behind it. -/
def padded (fields : List Field) (count : Nat) : Layout := .record (fields ++ [padding count])

variable {count : Nat}

/-- Padding is written whatever the entries are. -/
theorem fieldBytes_padding (entries : List (Label × Value)) :
    fieldBytes [padding count] entries = .ok (List.replicate count 0) := by
  have hwritten : bytesOf (padding count).item .none = .ok (List.replicate count 0) :=
    bytesOf_blob_constant_ok_iff.2 ⟨rfl, .inl rfl⟩
  exact fieldBytes_cons_ok_iff.2
    ⟨.none, _, [], input_of_isOmitted rfl _ _, hwritten, rfl, (List.append_nil _).symm⟩

/-- Whatever stands in the place of padding is skipped. -/
theorem decodeFields_padding {r : Reader} (hr : r.InBounds) (hlength : r.rest.length = count) :
    decodeFields [padding count] r = .ok [] (r.advance count) := by
  have hread : Reader.read (.plain (List.replicate count (0 : UInt8)).length) r =
      .ok r.rest (r.advance count) := by
    refine (Reader.read_ok_iff hr (Int.natCast_nonneg _)).2 ⟨[], (List.append_nil _).symm, ?_, ?_⟩
    · rw [List.length_replicate, hlength, Numeral.value_plain]
    · rw [hlength]
  simp only [padding, decodeFields, decode, readBlob, readConstant, Bind.bind, EStateM.bind, hread]
  rfl

theorem checkNames_padded (hnames : ∀ f ∈ fields, f.name ≠ "reserved")
    (h : checkNames fields = .ok ()) : checkNames (fields ++ [padding count]) = .ok () := by
  rw [checkNames_ok_iff, List.map_append, List.pairwise_append]
  refine ⟨checkNames_ok_iff.1 h, List.pairwise_singleton _ _, fun a ha b hb => ?_⟩
  rcases List.mem_map.1 ha with ⟨f, hf, rfl⟩
  rw [List.mem_singleton.1 hb]
  exact Bool.eq_false_iff.2 fun hsame => hnames f hf (Label.same_text_iff.1 hsame)

theorem checkFields_padded (h : checkFields fields = .ok ()) :
    checkFields (fields ++ [padding count]) = .ok () := by
  refine checkFields_ok_iff.2 fun f hf => ?_
  rcases List.mem_append.1 hf with hf | hf
  · exact checkFields_ok_iff.1 h f hf
  · rw [List.mem_singleton.1 hf]
    rfl

/-- Padding has no influence on the check of a record, and adds to its size. -/
theorem accept_padded {n : Numeral} (hnames : ∀ f ∈ fields, f.name ≠ "reserved")
    (h : (record fields).accept = .ok (some n)) :
    (padded fields count).accept = .ok (some (.plain (n.value + count))) := by
  rcases Except.seq_ok_iff.1 h with ⟨hcheck, hsize⟩
  rcases Except.seq_ok_iff.1 hcheck with ⟨hdistinct, hfields⟩
  have hpadding : recordSize n.value [padding count] =
      .ok (some (.plain (n.value + (List.replicate count (0 : UInt8)).length))) := rfl
  refine Except.seq_ok_iff.2
    ⟨Except.seq_ok_iff.2 ⟨checkNames_padded hnames hdistinct, checkFields_padded hfields⟩, ?_⟩
  rw [padded, staticSize, recordSize_append hsize, hpadding, List.length_replicate]

theorem bytesOf_padded (v : Value) :
    bytesOf (padded fields count) v =
      (bytesOf (record fields) v).map fun b => b ++ List.replicate count 0 := by
  rw [padded, bytesOf_record, bytesOf_record]
  cases recordEntries v with
  | error e => rfl
  | ok entries =>
    rw [Except.ok_bind, Except.ok_bind, fieldBytes_append, fieldBytes_padding]
    cases fieldBytes fields entries <;> rfl

/-- A padded record is read as the record is from its own bytes, and moves over the padding. -/
theorem decode_padded {k : Nat} (h : (decodeFields fields).Sees k) {r t : Reader} (hr : r.InBounds)
    (ht : t.InBounds) {bs rest : List UInt8} (hbs : bs.length = k) (hrest : rest.length = count)
    (hr_rest : r.rest = bs ++ rest) (ht_rest : t.rest = bs) :
    (∃ v, (padded fields count).decode r = .ok v (r.advance (k + count)) ∧
        (record fields).decode t = .ok v (t.advance k)) ∨
      ∃ e r' t', (padded fields count).decode r = .error e r' ∧
        (record fields).decode t = .error e t' := by
  simp only [padded, decode, decodeFields_append, Bind.bind, EStateM.bind]
  -- the fields do the same in both places; where they succeed, the padding is what stands next
  rcases h hr ht hbs hr_rest (ht_rest.trans (List.append_nil bs).symm) with
    ⟨entries, hfr, hft⟩ | ⟨e, r', t', hfr, hft⟩
  · have hpadding : decodeFields [padding count] (r.advance k) =
        .ok [] ((r.advance k).advance count) := by
      rw [← hbs]
      refine decodeFields_padding (Reader.inBounds_advance hr hr_rest) ?_
      rw [Reader.rest_advance hr hr_rest, hrest]
    rw [hfr, hft]
    simp only [hpadding, Reader.advance_advance]
    refine .inl ⟨.dict entries, ?_, rfl⟩
    exact congrArg (fun es => EStateM.Result.ok (Value.dict es) _) (List.append_nil entries)
  · rw [hfr, hft]
    exact .inr ⟨e, r', t', rfl, rfl⟩

end Layout

namespace Codec

/-- What a codec writes and reads is what another does within the leading `size` bytes of a slot;
zero bytes are written behind them, and any are skipped there. -/
structure Pads (p c : Codec) (size slot : Int) : Prop where
  staticSize : p.staticSize = some (.plain slot)
  encode : ∀ v, p.encode v = (c.encode v).map fun b => b ++ List.replicate (slot - size).toNat 0
  decode : ∀ (d : List UInt8) (whole : Bool), d.length = slot →
    p.decode d whole = c.decode (d.take size.toNat) whole

/-- The padding of a slot has no influence on what is read from it. -/
theorem decode_of_padded {p c : Codec} {fields : List Field} {k count : Nat}
    (hp : p.layout = .padded fields count) (hc : c.layout = .record fields)
    (hsees : (Layout.decodeFields fields).Sees k) {d : List UInt8} (hd : d.length = k + count)
    (whole : Bool) : p.decode d whole = c.decode (d.take k) whole := by
  have hbs : (d.take k).length = k := by
    rw [List.length_take]
    omega
  have hrest : (d.drop k).length = count := by
    rw [List.length_drop]
    omega
  have hreads := Layout.decode_padded hsees (Reader.inBounds_ofBytes d)
    (Reader.inBounds_ofBytes (d.take k)) hbs hrest
    ((Reader.rest_ofBytes d).trans (List.take_append_drop k d).symm)
    (Reader.rest_ofBytes (d.take k))
  unfold decode read
  rw [hp, hc]
  rcases hreads with ⟨v, hslot, hrecord⟩ | ⟨e, r, t, hslot, hrecord⟩
  -- both used up their bytes
  · have hslotLeft : ((Reader.ofBytes d).advance (k + count)).remaining = 0 := by
      rw [← hd, Reader.remaining_advance_length]
    have hrecordLeft : ((Reader.ofBytes (d.take k)).advance k).remaining = 0 := by
      have hleft := Reader.remaining_advance_length (d.take k)
      rwa [hbs] at hleft
    simp only [hslot, hrecord, hslotLeft, hrecordLeft]
  · rw [hslot, hrecord]

/-- A record that is padded up to the size of a slot passes its checks if the record does. -/
theorem exists_pads {c : Codec} {fields : List Field} {size slot : Numeral}
    (hlayout : c.layout = .record fields) (hsize : c.staticSize = some size)
    (made : c.layout.Everywhere Layout.WellMade) (sizes : c.layout.Everywhere Layout.NonNegative)
    (hnames : ∀ f ∈ fields, f.name ≠ "reserved") (hle : size.value ≤ slot.value) :
    ∃ p, ofLayout (.padded fields (slot.value - size.value).toNat) = .ok p ∧
      p.Pads c size.value slot.value := by
  have haccept : (Layout.record fields).accept = .ok (some size) := by
    rw [← hlayout, c.accepted, hsize]
  have htotal : size.value + ((slot.value - size.value).toNat : Int) = slot.value := by omega
  rw [hlayout, Layout.everywhere_record] at made sizes
  -- the fields look at as many bytes as the record takes
  rcases Layout.exists_window (fun f hf => Layout.hasWindow (made.2 f hf) (sizes.2 f hf))
    (Except.seq_ok_iff.1 haccept).2 with ⟨k, hk, hsees⟩
  rcases exists_ofLayout (Layout.accept_padded hnames haccept) with ⟨p, hp, hpsize⟩
  rw [htotal] at hpsize
  refine ⟨p, hp, hpsize, fun v => ?_, fun d whole hd => ?_⟩
  · rw [encode_eq, layout_of_ofLayout hp, Layout.bytesOf_padded, encode_eq, hlayout]
  · have hwindow : size.value.toNat = k := by omega
    rw [hwindow]
    exact decode_of_padded (layout_of_ofLayout hp) hlayout hsees (by omega) whole

end Codec

namespace PriceUpdate

open Layout

variable {l : Layout} {fields : List Field} {c : Codec} {slot : Numeral}

theorem elements?_of_settle (record : l.settle = .record fields) :
    elements? l = some (fields.map fun f => .field f.name f.item) := by
  cases l with
  | list items =>
    have hitems : ofItems items = .record fields := record
    unfold ofItems at hitems
    split at hitems
    · rename_i fields' hfields
      cases hitems
      exact congrArg some (fieldsOf?_eq_some_iff.1 hfields)
    · cases hitems
  | record fields' =>
    cases record
    rfl
  | _ => cases record

theorem ofItems_reserved (count : Nat) :
    ofItems (fields.map (fun f => .field f.name f.item) ++ [reserved (List.replicate count 0)]) =
      .padded fields count := by
  have hfields : fieldsOf? (fields.map (fun f => .field f.name f.item) ++
      [reserved (List.replicate count 0)]) = some (fields ++ [padding count]) := by
    rw [fieldsOf?_eq_some_iff, List.map_append]
    rfl
  rw [ofItems, hfields]
  rfl

/-- What padding fields to the size of a slot comes to, by their size. -/
def padFields (fields : List Field) (slot : Numeral) : Option Numeral → Except Error Layout
  | none => .error (.definition .slotNotStatic)
  | some size =>
    if slot.value < size.value then .error (.definition (.slotTooSmall size slot))
    else if blockLimit ≤ slot.value - size.value then .error (.misuse .tooLarge)
    else .ok (.padded fields (slot.value - size.value).toNat)

theorem padToSlot_record (record : l.settle = .record fields) {measured : Option Numeral}
    (hmeasure : l.measure = .ok measured) :
    padToSlot l (some slot) = padFields fields slot measured := by
  unfold padToSlot padFields
  rw [hmeasure, Except.ok_bind, elements?_of_settle record]
  cases measured with
  | none => rfl
  | some size =>
    dsimp only
    split
    · rfl
    · rename_i hle
      by_cases hlarge : blockLimit ≤ slot.value - size.value
      · rw [Value.zeroBytes, blockSize_of_le hlarge, if_pos hlarge]
        rfl
      · have hpadding : blockSize (slot.value - size.value) =
            .ok (slot.value - size.value).toNat := blockSize_of_lt (by omega) (by omega)
        rw [Value.zeroBytes, hpadding, if_neg hlarge, ← ofItems_reserved]
        rfl

theorem spellable_slotTooSmall (size slot : Numeral) :
    (Error.definition (.slotTooSmall size slot)).spellable =
      (size.spellable && slot.spellable) := rfl

/-- Padding succeeds exactly for a size that leaves room for a block of bytes. -/
theorem padFields_ok_iff {measured : Option Numeral} {filled : Layout} :
    padFields fields slot measured = .ok filled ↔
      ∃ size, measured = some size ∧
        (size.value ≤ slot.value ∧ slot.value - size.value < blockLimit) ∧
        filled = .padded fields (slot.value - size.value).toNat := by
  cases measured with
  | none =>
    constructor
    · nofun
    · rintro ⟨_, ⟨⟩, _⟩
  | some size =>
    rw [padFields]
    constructor
    · intro h
      split at h
      · cases h
      split at h
      · cases h
      cases h
      exact ⟨size, rfl, by omega, rfl⟩
    · rintro ⟨_, ⟨⟩, ⟨hle, hroom⟩, rfl⟩
      rw [if_neg (Int.not_lt.2 hle), if_neg (Int.not_le.2 hroom)]

/-- Padding fails for want of a size or of room, or because no block of bytes is that large. -/
theorem kind_of_padFields {measured : Option Numeral} (hmeasured : optionSpellable measured = true)
    (spelt : slot.spellable = true) {e : Error} (h : padFields fields slot measured = .error e) :
    (measured = none ∨ ∃ size, measured = some size ∧ slot.value < size.value) ∧
        e.kind = .layoutDefinition ∨
      (∃ size, measured = some size ∧ blockLimit ≤ slot.value - size.value) ∧
        e.kind = .overflow := by
  cases measured with
  | none =>
    cases h
    exact .inl ⟨.inl rfl, rfl⟩
  | some size =>
    rw [padFields] at h
    split at h
    · rename_i hsmall
      cases h
      have hsaid : (Error.definition (.slotTooSmall size slot)).spellable = true := by
        rw [spellable_slotTooSmall, spelt, Bool.and_true]
        exact hmeasured
      exact .inl ⟨.inr ⟨size, rfl, hsmall⟩, Error.kind_of_spellable hsaid⟩
    split at h
    · rename_i hlarge
      cases h
      exact .inr ⟨⟨size, rfl, hlarge⟩, rfl⟩
    · cases h

/-- A record that a slot has room for, with the padding that fills the slot, is compiled to a codec
that pads that of the record. -/
theorem exists_compile_padded {size : Numeral} (built : l.Built)
    (record : l.settle = .record fields) (names : ∀ f ∈ fields, f.name ≠ "reserved")
    (compiled : Codec.compile l = .ok c) (sizes : c.layout.Everywhere NonNegative)
    (spelt : slot.spellable = true) (hsize : c.staticSize = some size)
    (hle : size.value ≤ slot.value) :
    ∃ p, Codec.compile (.padded fields (slot.value - size.value).toNat) = .ok p ∧
      p.Pads c size.value slot.value := by
  rcases Codec.compile_ok_iff.1 compiled with ⟨hform, hc, _⟩
  have hlayout := Codec.layout_of_ofLayout hc
  have made : c.layout.Everywhere WellMade := by
    rw [hlayout]
    exact everywhere_wellMade_settle built.everywhere_wellMade
  rcases Codec.exists_pads (hlayout.trans record) hsize made sizes names hle with ⟨p, hp, hpads⟩
  have hkeys : fieldsAreKeys (fields ++ [padding (slot.value - size.value).toNat]) = true := by
    rw [fieldsAreKeys_append, (Codec.lookUpForm_record_iff record).1 hform]
    rfl
  have hreport : p.report = .ok () := by
    rw [Codec.report_ok_iff, hpads.staticSize]
    exact spelt
  exact ⟨p, Codec.compile_ok_iff.2 ⟨(Codec.lookUpForm_record_iff rfl).2 hkeys, hp, hreport⟩, hpads⟩

/-- Slots can be made exactly for records of a static size that leave room for them, and not for
that much padding that it is no block of bytes.  A slot is compiled to a codec that writes what the
record writes in front of zero bytes, and reads what the record reads from as many bytes, or fails
as it does, whatever stands behind them. -/
theorem padToSlot_transparent (built : l.Built) (record : l.settle = .record fields)
    (names : ∀ f ∈ fields, f.name ≠ "reserved") (compiled : Codec.compile l = .ok c)
    (sizes : c.layout.Everywhere NonNegative) (spelt : slot.spellable = true) :
    ((∃ filled, padToSlot l (some slot) = .ok filled) ↔
      ∃ size, c.staticSize = some size ∧ size.value ≤ slot.value ∧
        slot.value - size.value < blockLimit) ∧
    (∀ filled, padToSlot l (some slot) = .ok filled →
      ∃ size p, c.staticSize = some size ∧ Codec.compile filled = .ok p ∧
        p.Pads c size.value slot.value) ∧
    ∀ e, padToSlot l (some slot) = .error e →
      (c.staticSize = none ∨ ∃ size, c.staticSize = some size ∧ slot.value < size.value) ∧
          e.kind = .layoutDefinition ∨
        (∃ size, c.staticSize = some size ∧ blockLimit ≤ slot.value - size.value) ∧
          e.kind = .overflow := by
  rcases Codec.compile_ok_iff.1 compiled with ⟨_, hc, hreport⟩
  have hmeasure : l.measure = .ok c.staticSize := by
    rw [Layout.measure, ← Codec.layout_of_ofLayout hc]
    exact (Except.seq_ok_iff.1 c.accepted).2
  have hspelt := Codec.report_ok_iff.1 hreport
  rw [padToSlot_record record hmeasure]
  refine ⟨⟨?_, ?_⟩, ?_, fun e => kind_of_padFields hspelt spelt⟩
  · rintro ⟨filled, h⟩
    rcases padFields_ok_iff.1 h with ⟨size, hsize, hroom, _⟩
    exact ⟨size, hsize, hroom⟩
  · rintro ⟨size, hsize, hroom⟩
    exact ⟨_, padFields_ok_iff.2 ⟨size, hsize, hroom, rfl⟩⟩
  · intro filled h
    rcases padFields_ok_iff.1 h with ⟨size, hsize, hroom, rfl⟩
    rcases exists_compile_padded built record names compiled sizes spelt hsize hroom.1 with
      ⟨p, hp, hpads⟩
    exact ⟨size, p, hsize, hp, hpads⟩

theorem compile_measured : Codec.compile .measured = .ok .measured :=
  Codec.compile_ok_iff.2 ⟨rfl, rfl, Codec.report_ok_iff.2 (optionSpellable_of_lt (by decide))⟩

theorem names_measured {fields : List Field} (record : measured = .record fields) :
    ∀ f ∈ fields, f.name ≠ "reserved" := by
  cases record
  decide

/-- A record of ten bytes in a slot of sixteen. -/
theorem padToSlot_transparent_measured : ∃ filled p,
    padToSlot .measured (some 16) = .ok filled ∧ Codec.compile filled = .ok p ∧
      p.Pads .measured 10 16 := by
  have spelt : (16 : Numeral).spellable = true := spellable_of_lt (by decide)
  have hslot := padToSlot_transparent built_measured rfl (names_measured rfl) compile_measured
    nonNegative_measured spelt
  rcases hslot.1.2 ⟨.plain 10, rfl, by decide, by decide⟩ with ⟨filled, hfilled⟩
  rcases hslot.2.1 filled hfilled with ⟨_, p, ⟨⟩, hp, hpads⟩
  exact ⟨filled, p, hfilled, hp, hpads⟩

/-- The same record leaves more room in a slot of `2 ^ 64` bytes than a block of bytes can fill.
That a slot has no room for it cannot be said if the size of the slot has too many digits. -/
theorem padToSlot_tooLarge :
    measured.Built ∧ (∃ fields, measured.settle = .record fields ∧
      ∀ f ∈ fields, f.name ≠ "reserved") ∧ Codec.compile .measured = .ok .measured ∧
      measured.Everywhere NonNegative ∧ Codec.measured.staticSize = some (.plain 10) ∧
      padToSlot .measured (some (.plain 18446744073709551616)) = .error (.misuse .tooLarge) ∧
      ∃ e, padToSlot .measured (some (.plain (-unspeltFrom))) = .error e ∧
        e.kind = .valueMisuse := by
  have hmeasure : measured.measure = .ok (some (.plain 10)) := rfl
  have hlarge : padToSlot .measured (some (.plain 18446744073709551616)) =
      .error (.misuse .tooLarge) := by
    rw [padToSlot_record rfl hmeasure, padFields, if_neg (by decide), if_pos (by decide)]
  have hunspelt : (Numeral.plain (-unspeltFrom)).spellable = false := by
    rw [Numeral.spellable, Numeral.value_plain, spellable, decide_eq_false_iff_not, Int.natAbs_neg,
      Int.natAbs_natCast]
    exact Nat.lt_irrefl _
  have hsmall : (Numeral.plain (-unspeltFrom)).value < (Numeral.plain 10).value := by
    rw [Numeral.value_plain, Numeral.value_plain]
    omega
  have hfault : (Error.definition (.slotTooSmall 10 (.plain (-unspeltFrom)))).spellable =
      false := by
    rw [spellable_slotTooSmall, hunspelt, Bool.and_false]
  have hkind : (Error.definition (.slotTooSmall 10 (.plain (-unspeltFrom)))).kind =
      .valueMisuse := by
    rw [Error.kind, hfault, if_neg Bool.false_ne_true]
  refine ⟨built_measured, ⟨_, rfl, names_measured rfl⟩, compile_measured, nonNegative_measured, rfl,
    hlarge, _, ?_, hkind⟩
  rw [padToSlot_record rfl hmeasure, padFields, if_pos hsmall]
  rfl

end PriceUpdate

end WireLayout
