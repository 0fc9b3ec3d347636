import WireLayout.Proofs.Meaning.Alike

/-!
# Decode — how far spelling has an influence on what is read

Constants and labels stand in decoded values as a layout spells them, and conversions are shown
them.  All else that a layout spells has no influence.

* `View` — what matters of decoded values: all of them (`View.exact`) or their meaning
  (`View.meaning`);
* `View.Shows` — in the view, the constants and labels of an item look like their meaning;
* `View.RespectedBy` — the conversions of an item do not look further than the view;
* `Layout.alike_decode` — a checked layout and its meaning read values that look the same then.
-/

namespace WireLayout

variable {α : Type}

/-! ## Views of decoded values -/

/-- What matters of decoded values, element by element and entry by entry. -/
structure View where
  value : Value → Value
  label : Label → Label
  list : ∀ {vs ws}, vs.map value = ws.map value → value (.list vs) = value (.list ws)
  dict : ∀ {es fs}, es.map (Prod.map label value) = fs.map (Prod.map label value) →
    value (.dict es) = value (.dict fs)

namespace View

/-- All matters. -/
def exact : View where
  value := id
  label := id
  list h := by simpa using h
  dict h := by simpa using h

/-- Spelling does not matter. -/
def meaning : View where
  value := Value.meaning
  label := Label.meaning
  list h := by
    simp only [Value.meaning, Value.meanings_eq_map, h]
  dict h := by
    simp only [Value.meaning, Value.entryMeanings_eq_map, h]

variable {view : View}

/-- Values that look the same are converted alike. -/
def Respects (view : View) (c : Conversion) : Prop :=
  ∀ v w, view.value v = view.value w →
    outcome view.value (c.afterDecode v) = outcome view.value (c.afterDecode w)

/-- An attribute is no conversion that sees more. -/
def Admits (view : View) (custom : Custom α) : Prop :=
  ∀ c, custom = .converted c → view.Respects c

/-- The constants and labels that an item shows look like their meaning. -/
def Shows (view : View) : Layout → Prop
  | .uint _ custom _ =>
    ∀ n, custom = .constant n → view.value (.ofNumeral n) = view.value (.ofNumeral n.meaning)
  | .switch _ idTag cases _ =>
    view.label idTag = view.label idTag.meaning ∧
      ∀ c ∈ cases, view.value (.ofLabel c.name) = view.value (.ofLabel c.name.meaning) ∧
        ∀ f ∈ c.fields, view.label f.name = view.label f.name.meaning
  | .record fields => ∀ f ∈ fields, view.label f.name = view.label f.name.meaning
  | _ => True

/-- An item whose values have parts has no conversion that sees more. -/
def RespectedBy (view : View) : Layout → Prop
  | .nested _ _ custom _ => view.Admits custom
  | .array _ _ custom => view.Admits custom
  | .switch _ _ _ custom => view.Admits custom
  | _ => True

/-- Without its spelling a constant or a label is its meaning. -/
theorem shows_meaning (p : Layout) : meaning.Shows p := by
  cases p with
  | uint size custom omission =>
    intro n _
    exact (Value.meaning_ofNumeral n).trans (Value.meaning_ofNumeral n.meaning).symm
  | switch idSize idTag cases custom =>
    refine ⟨(Label.meaning_meaning idTag).symm, fun c _ => ⟨Value.meaning_ofLabel c.name, ?_⟩⟩
    exact fun f _ => (Label.meaning_meaning f.name).symm
  | record fields => exact fun f _ => (Label.meaning_meaning f.name).symm
  | _ => trivial

/-- No conversion sees more than all. -/
theorem respectedBy_exact (p : Layout) : exact.RespectedBy p := by
  have hrespects : ∀ c, exact.Respects c := by
    rintro c v _ rfl
    rfl
  cases p with
  | nested framing inner custom omission => exact fun c _ => hrespects c
  | array framing element custom => exact fun c _ => hrespects c
  | switch idSize idTag cases custom => exact fun c _ => hrespects c
  | _ => trivial

theorem respectedBy_meaning (p : Layout) : view.RespectedBy p.meaning ↔ view.RespectedBy p := by
  cases p <;> exact Iff.rfl

theorem Admits.outcome {custom : Custom α} (h : view.Admits custom) {v w : Value}
    (hvw : view.value v = view.value w) :
    outcome view.value (custom.afterDecode v) = outcome view.value (custom.afterDecode w) := by
  cases custom with
  | converted c => exact h c rfl v w hvw
  | unsuitable u => rfl
  | _ => exact congrArg Except.ok hvw

end View

/-! ## Reading bytes -/

theorem alike_read (n : Numeral) : Alike id (Reader.read n) (Reader.read n.meaning) := by
  intro r
  unfold Reader.read
  rw [Numeral.value_meaning]
  split <;> rfl

theorem alike_readNat (width : Numeral) : Alike id (readNat width) (readNat width.meaning) := by
  refine (alike_read width).bind_same fun data => Alike.decoding_ofExcept ?_
  unfold Uint.ofBytes
  rw [Numeral.value_meaning]
  split <;> rfl

theorem alike_readConstant {f : Value → Value} {expected expected' : Value}
    (h : f expected = f expected') (content : List UInt8) {omission omission' : Omission}
    (hon : omission.isOn = omission'.isOn) :
    Alike f (readConstant expected content omission)
      (readConstant expected' content omission') := by
  rw [readConstant_eq, readConstant_eq]
  refine (Alike.refl id _).bind_same fun data => Alike.decoding_ofExcept ?_
  unfold constantAt
  rw [hon]
  split
  · rfl
  · split
    · exact congrArg Except.ok h
    · rfl

theorem alike_readFrame (framing : Framing) :
    Alike id (readFrame framing) (readFrame framing.meaning) := by
  cases framing with
  | fixed size => exact alike_read size
  | counted width => exact (alike_readNat width).bind_same fun _ => .refl id _
  | unframed => exact .refl id _

/-! ## Frames and arrays -/

section

variable {f : Value → Value} {element element' : Decoding Value} (h : Alike f element element')

include h

theorem outcome_wholeFrame (payload : List UInt8) :
    outcome f (wholeFrame element payload) =
      outcome f (wholeFrame element' payload) := by
  unfold wholeFrame
  rcases h.results (Reader.ofBytes payload) with ⟨v, w, r, hv, hw, hvw⟩ | ⟨e, e', r, he, he', hee'⟩
  · simp only [hv, hw]
    split
    · exact congrArg Except.ok hvw
    · rfl
  · rw [he, he']
    exact congrArg Except.error hee'

theorem alike_namedElement (count : Numeral) (index : Nat) :
    Alike f (namedElement element count index)
      (namedElement element' count.meaning index) := by
  intro r
  unfold namedElement
  rcases h.results r with ⟨v, w, r', hv, hw, hvw⟩ | ⟨e, e', r', he, he', hee'⟩
  · rw [hv, hw]
    exact congrArg (EStateM.Result.ok · r') hvw
  · rw [he, he']
    exact congrArg (EStateM.Result.error · r') (Error.outline_inElement hee' count index)

theorem alike_readCounted (count : Numeral) (left index : Nat) :
    Alike (List.map f) (readCounted element count left index [])
      (readCounted element' count.meaning left index []) := by
  induction left generalizing index with
  | zero => exact .refl _ _
  | succ left ih =>
    rw [readCounted_succ, readCounted_succ]
    exact (alike_namedElement h count index).bind fun v w hv =>
      (ih (index + 1)).bind_pure fun vs ws hvs => congrArg₂ List.cons hv hvs

theorem alike_readMoving (index : Nat) :
    Alike f (readMoving element index) (readMoving element' index) := by
  intro r
  unfold readMoving
  rcases h.results r with ⟨v, w, r', hv, hw, hvw⟩ | ⟨e, e', r', he, he', hee'⟩
  · simp only [hv, hw]
    split
    · rfl
    · exact congrArg (EStateM.Result.ok · r') hvw
  · rw [he, he']
    exact congrArg (EStateM.Result.error · r') hee'

theorem alike_readAll (rounds index : Nat) :
    Alike (List.map f) (readAll element rounds index []) (readAll element' rounds index []) := by
  induction rounds generalizing index with
  | zero => exact .refl _ _
  | succ rounds ih =>
    intro r
    rw [readAll_succ, readAll_succ]
    split
    · rfl
    · have hlater : ∀ v w, f v = f w → Alike (List.map f)
          (readAll element rounds (index + 1) [] >>= fun vs => pure (v :: vs))
          (readAll element' rounds (index + 1) [] >>= fun ws => pure (w :: ws)) := fun v w hv =>
        (ih (index + 1)).bind_pure fun vs ws hvs => congrArg₂ List.cons hv hvs
      exact (alike_readMoving h index).bind hlater r

theorem alike_readElements (framing : Framing) :
    Alike (List.map f) (readElements framing element) (readElements framing.meaning element') := by
  cases framing with
  | fixed n => exact alike_readCounted h n n.value.toNat 0
  | counted width =>
    exact (alike_readNat width).bind_same fun count => alike_readCounted h (.plain count) count 0
  | unframed => exact fun r => alike_readAll h r.remaining.toNat 0 r

end

/-! ## Layouts -/

namespace Layout

variable {view : View}

theorem isOmitted_meaning (item : Layout) : item.meaning.isOmitted = item.isOmitted := by
  cases item with
  | uint size custom omission => cases custom <;> simp [meaning, Custom.meaning, isOmitted]
  | blob framing custom omission => cases custom <;> simp [meaning, isOmitted]
  | _ => rfl

theorem alike_decodeFields {fields : List Field}
    (hnames : ∀ f ∈ fields, view.label f.name = view.label f.name.meaning)
    (h : ∀ f ∈ fields, Alike view.value f.item.decode f.item.meaning.decode) :
    Alike (List.map (Prod.map view.label view.value)) (decodeFields fields)
      (decodeFields (fieldMeanings fields)) := by
  induction fields with
  | nil => exact .refl _ _
  | cons f fields ih =>
    rcases f with ⟨name, item⟩
    rcases List.forall_mem_cons.1 hnames with ⟨hname, hlaterNames⟩
    rcases List.forall_mem_cons.1 h with ⟨hitem, hfields⟩
    refine Alike.bind hitem fun v w hv =>
      (ih hlaterNames hfields).bind_pure fun entries entries' hentries => ?_
    rw [isOmitted_meaning]
    split
    · exact hentries
    · exact congrArg₂ List.cons (congrArg₂ Prod.mk hname hv) hentries

theorem alike_decodeCase {idTag : Label} (htag : view.label idTag = view.label idTag.meaning)
    {cases : List Case} (id : Nat)
    (hnames : ∀ c ∈ cases, view.value (.ofLabel c.name) = view.value (.ofLabel c.name.meaning))
    (h : ∀ c ∈ cases, Alike (List.map (Prod.map view.label view.value)) (decodeFields c.fields)
      (decodeFields (fieldMeanings c.fields))) :
    Alike (List.map (Prod.map view.label view.value)) (decodeCase idTag cases id)
      (decodeCase idTag.meaning (caseMeanings cases) id) := by
  induction cases with
  | nil => exact .refl _ _
  | cons c cases ih =>
    rcases c with ⟨caseId, name, fields⟩
    rcases List.forall_mem_cons.1 hnames with ⟨hname, hlaterNames⟩
    rcases List.forall_mem_cons.1 h with ⟨hfields, hcases⟩
    by_cases hid : caseId.value = id
    · have hid' : caseId.meaning.value = id := hid
      rw [decodeCase, caseMeanings, decodeCase, if_pos hid, if_pos hid']
      exact Alike.bind_pure hfields fun entries entries' hentries =>
        congrArg₂ List.cons (congrArg₂ Prod.mk htag hname) hentries
    · have hid' : caseId.meaning.value ≠ id := hid
      rw [decodeCase, caseMeanings, decodeCase, if_neg hid, if_neg hid']
      exact ih hlaterNames hcases

/-- A checked layout and its meaning read values that look the same, and fail alike, in a view that
the layout respects. -/
theorem alike_decode {l : Layout} (checked : l.Everywhere Checked) (shown : l.Everywhere view.Shows)
    (respected : l.Everywhere view.RespectedBy) :
    Alike view.value l.decode l.meaning.decode := by
  induction l with
  | uint size custom omission =>
    cases custom with
    | constant n =>
      have hcheck : (Uint.encode (.ofNumeral n) size).map (fun _ => ()) = .ok () := checked.here
      rcases Except.map_ok_iff.1 hcheck with ⟨content, hcontent, _⟩
      simp only [decode, meaning, Custom.meaning, readUint, hcontent, encode_meaning hcontent]
      exact alike_readConstant (shown.here n rfl) content omission.isOn_meaning.symm
    -- an integer that was read is the same on both sides, so any conversion may see it
    | _ => exact (alike_readNat size).bind_same fun n => .refl _ _
  | blob framing custom omission =>
    cases custom with
    | constant content => exact alike_readConstant rfl content omission.isOn_meaning.symm
    | _ => exact (alike_readFrame framing).bind_same fun payload => .refl _ _
  | nested framing inner custom omission ih =>
    have hinner := ih (everywhere_nested.1 checked).2 (everywhere_nested.1 shown).2
      (everywhere_nested.1 respected).2
    have hconvert : ∀ v w, view.value v = view.value w → Alike view.value
        (Decoding.ofExcept (custom.afterDecode v)) (Decoding.ofExcept (custom.afterDecode w)) :=
      fun v w h => Alike.decoding_ofExcept (View.Admits.outcome respected.here h)
    cases framing with
    | unframed => exact hinner.bind hconvert
    | _ =>
      refine (alike_readFrame _).bind_same fun payload => ?_
      exact (Alike.decoding_ofExcept (outcome_wholeFrame hinner payload)).bind hconvert
  | array framing element custom ih =>
    have helement := ih (everywhere_array.1 checked).2 (everywhere_array.1 shown).2
      (everywhere_array.1 respected).2
    refine (alike_readElements helement framing).bind fun vs ws h => Alike.decoding_ofExcept ?_
    exact View.Admits.outcome respected.here (view.list h)
  | switch idSize idTag cases custom ih =>
    rcases shown.here with ⟨htag, hcaseNames⟩
    have hcases : ∀ c ∈ cases, Alike (List.map (Prod.map view.label view.value))
        (decodeFields c.fields) (decodeFields (fieldMeanings c.fields)) := fun c hc =>
      alike_decodeFields (hcaseNames c hc).2 fun f hf => ih c hc f hf
        ((everywhere_switch.1 checked).2 c hc f hf) ((everywhere_switch.1 shown).2 c hc f hf)
        ((everywhere_switch.1 respected).2 c hc f hf)
    refine (alike_readNat idSize).bind_same fun id => ?_
    refine (alike_decodeCase htag id (fun c hc => (hcaseNames c hc).1) hcases).bind
      fun es fs h => Alike.decoding_ofExcept ?_
    exact View.Admits.outcome respected.here (view.dict h)
  | record fields ih =>
    have hfields := alike_decodeFields shown.here fun f hf =>
      ih f hf ((everywhere_record.1 checked).2 f hf) ((everywhere_record.1 shown).2 f hf)
        ((everywhere_record.1 respected).2 f hf)
    exact hfields.bind_pure fun entries entries' h => view.dict h
  | _ => exact checked.here.elim

end Layout

end WireLayout
