import WireLayout.Proofs.Meaning.Alike

/-!
# Encode — spelling has no influence on what is written

`Layout.alike_encode`: a checked layout and its meaning write the same bytes for every value, and
fail alike.
-/

namespace WireLayout

/-! ## Writing items -/

theorem alike_writeConstant {expected expected' : Value} (content : List UInt8) (v : Value)
    (hsame : v.same expected = v.same expected')
    (hspellable : expected.spellable = expected'.spellable) :
    Alike id (writeConstant expected content v) (writeConstant expected' content v) := by
  unfold writeConstant
  split
  · exact .refl id _
  · rw [hsame]
    split
    · exact .refl id _
    · refine Alike.encoding_ofExcept ?_
      simp only [outcome, Error.outline, Error.causeKind, Error.spellable, hspellable]

theorem alike_writeFramed (framing : Framing) (payload : List UInt8) :
    Alike id (writeFramed framing payload) (writeFramed framing.meaning payload) := by
  cases framing with
  | fixed size =>
    exact (Alike.encoding_ofExcept (outcome_exactly size payload)).bind_same fun content =>
      .refl id (Writer.write content)
  | counted width =>
    exact (Alike.encoding_ofExcept (outcome_bytesOf payload.length width)).bind_same fun _ =>
      .refl id _
  | unframed => exact .refl id _

theorem alike_writeCount (framing : Framing) (count : Nat) :
    Alike id (writeCount framing count) (writeCount framing.meaning count) := by
  cases framing with
  | fixed n =>
    refine Alike.encoding_ofExcept ?_
    rw [Numeral.value_meaning]
    split <;> rfl
  | counted width =>
    exact (Alike.encoding_ofExcept (outcome_bytesOf count width)).bind_same fun _ => .refl id _
  | unframed => exact .refl id _

theorem alike_writeEach {element element' : Value → Encoding Unit}
    (h : ∀ v, Alike id (element v) (element' v)) (vs : List Value) :
    Alike id (writeEach element vs) (writeEach element' vs) := by
  induction vs with
  | nil => exact .refl id _
  | cons v vs ih => exact (h v).bind_same fun _ => ih

theorem outcome_collect {run run' : Encoding Unit} (h : Alike id run run') :
    outcome id (Writer.collect run) = outcome id (Writer.collect run') := by
  unfold Writer.collect
  rcases h.results Writer.empty with ⟨a, b, w, ha, hb, _⟩ | ⟨e, e', w, he, he', hee'⟩
  · rw [ha, hb]
  · rw [he, he']
    exact congrArg Except.error hee'

namespace Layout

theorem constancy_meaning (item : Layout) : item.meaning.constancy = item.constancy := by
  cases item with
  | uint size custom omission => cases custom <;> simp [meaning, Custom.meaning, constancy]
  | blob framing custom omission => cases custom <;> simp [meaning, constancy]
  | _ => rfl

theorem outcome_input (item : Layout) (name : Label) (entries : List (Label × Value)) :
    outcome id (item.input name entries) =
      outcome id (item.meaning.input name.meaning entries) := by
  unfold input
  rw [constancy_meaning, Value.entry?_meaning]
  split <;> simp [outcome, Error.outline, Error.causeKind, Error.spellable]

theorem part_meaning (tag : Label) (v : Value) : v.part tag.meaning = v.part tag := by
  cases v with
  | dict entries => simp only [Value.part, Value.entry?_meaning]
  | _ => cases tag <;> rfl

theorem outcome_caseName (tag : Label) (v : Value) :
    outcome id (caseName tag v) = outcome id (caseName tag.meaning v) := by
  unfold caseName
  rw [part_meaning]
  split
  · rfl
  · simp only [outcome, Error.outline, Error.causeKind, Error.spellable, Label.spellable_meaning]
  · rfl

theorem alike_encodeFields {fields : List Field}
    (h : ∀ f ∈ fields, ∀ v, Alike id (f.item.encode v) (f.item.meaning.encode v))
    (entries : List (Label × Value)) :
    Alike id (encodeFields fields entries) (encodeFields (fieldMeanings fields) entries) := by
  induction fields with
  | nil => exact .refl id _
  | cons f fields ih =>
    rcases f with ⟨name, item⟩
    rcases List.forall_mem_cons.1 h with ⟨hitem, hfields⟩
    have hinput := Alike.encoding_ofExcept (outcome_input item name entries)
    exact hinput.bind_same fun v => (hitem v).bind_same fun _ => ih hfields

theorem alike_encodeCase {idSize : Numeral} {cases : List Case}
    (hids : ∀ c ∈ cases, ∃ tag, Uint.encode (.ofNumeral c.id) idSize = .ok tag)
    (h : ∀ c ∈ cases, ∀ entries,
      Alike id (encodeFields c.fields entries) (encodeFields (fieldMeanings c.fields) entries))
    (name v : Value) :
    Alike id (encodeCase idSize cases name v)
      (encodeCase idSize.meaning (caseMeanings cases) name v) := by
  induction cases with
  | nil => exact .refl id _
  | cons c cases ih =>
    rcases c with ⟨caseId, caseName, fields⟩
    rcases List.forall_mem_cons.1 hids with ⟨⟨tag, htag⟩, hlaterIds⟩
    rcases List.forall_mem_cons.1 h with ⟨hfields, hlater⟩
    have htag : Uint.encode (.ofNumeral caseId) idSize = .ok tag := htag
    simp only [encodeCase, caseMeanings, Value.same_ofLabel_meaning, htag, encode_meaning htag]
    split
    · exact (Alike.refl id _).bind_same fun _ => (Alike.refl id _).bind_same fun _ =>
        (Alike.refl id _).bind_same fun entries => hfields entries
    · exact ih hlaterIds hlater

/-- A checked layout and its meaning write the same, and fail alike. -/
theorem alike_encode {l : Layout} (checked : l.Everywhere Checked) (v : Value) :
    Alike id (l.encode v) (l.meaning.encode v) := by
  induction l generalizing v with
  | uint size custom omission =>
    cases custom with
    | constant n =>
      have hcheck : (Uint.encode (.ofNumeral n) size).map (fun _ => ()) = .ok () := checked.here
      rcases Except.map_ok_iff.1 hcheck with ⟨content, hcontent, _⟩
      have hwrite := alike_writeConstant content v (Value.same_ofNumeral_meaning v n).symm
        (Value.spellable_ofNumeral_meaning n).symm
      simp only [encode, meaning, Custom.meaning, writeUint, hcontent, encode_meaning hcontent]
      exact hwrite
    | _ =>
      refine Alike.bind_same (.refl id _) fun raw => ?_
      exact (Alike.encoding_ofExcept (outcome_encode raw size)).bind_same fun _ => .refl id _
  | blob framing custom omission =>
    cases custom with
    | constant content => exact .refl id _
    | _ =>
      refine Alike.bind_same (.refl id _) fun raw => ?_
      exact Alike.bind_same (.refl id _) fun payload => alike_writeFramed framing payload
  | nested framing inner custom omission ih =>
    have hinner := ih (everywhere_nested.1 checked).2
    refine Alike.bind_same (.refl id _) fun raw => ?_
    cases framing with
    | unframed => exact hinner raw
    | _ =>
      exact (Alike.encoding_ofExcept (outcome_collect (hinner raw))).bind_same fun payload =>
        alike_writeFramed _ payload
  | array framing element custom ih =>
    have helement := ih (everywhere_array.1 checked).2
    refine Alike.bind_same (.refl id _) fun raw => ?_
    refine Alike.bind_same (.refl id _) fun items => ?_
    exact (alike_writeCount framing items.length).bind_same fun _ => alike_writeEach helement items
  | switch idSize idTag cases custom ih =>
    refine Alike.bind_same (.refl id _) fun raw => ?_
    refine (Alike.encoding_ofExcept (outcome_caseName idTag raw)).bind_same fun name => ?_
    refine alike_encodeCase (fun c hc => (checked.here.1 c hc).2) (fun c hc => ?_) name raw
    exact alike_encodeFields fun f hf => ih c hc f hf ((everywhere_switch.1 checked).2 c hc f hf)
  | record fields ih =>
    refine Alike.bind_same (.refl id _) fun entries => ?_
    exact alike_encodeFields (fun f hf => ih f hf ((everywhere_record.1 checked).2 f hf)) entries
  | _ => exact checked.here.elim

end Layout

end WireLayout
