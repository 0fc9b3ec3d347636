import WireLayout.Proofs.Meaning.Alike

/-!
# Check — spelling has no influence on sizes, and only truth values have one on checks

* `Layout.staticSize_meaning` — a layout and its meaning have the same size;
* `Layout.check_meaning` — they pass the check together if the layout is distinctive;
* `Layout.everywhere_meaning` — a condition that spelling does not touch holds of the parts of both.
-/

namespace WireLayout
namespace Layout

/-! ## Sizes and checks -/

theorem commonSize_meaning (sizes : List (Option Numeral)) :
    commonSize (sizes.map (Option.map Numeral.meaning)) = commonSize sizes := by
  cases sizes with
  | nil => rfl
  | cons size sizes =>
    cases size with
    | none => rfl
    | some n =>
      have hsame : ((fun m : Option Numeral => m.any n.meaning.same) ∘ Option.map Numeral.meaning) =
          fun m => m.any n.same := by
        funext m
        cases m <;> rfl
      simp only [List.map_cons, Option.map_some, commonSize, List.all_map, hsame]
      rfl

theorem recordSize_meaning {fields : List Field}
    (h : ∀ f ∈ fields,
      f.item.meaning.staticSize = f.item.staticSize.map (Option.map Numeral.meaning))
    (total : Int) :
    recordSize total (fieldMeanings fields) =
      (recordSize total fields).map (Option.map Numeral.meaning) := by
  induction fields generalizing total with
  | nil => rfl
  | cons f fields ih =>
    rcases f with ⟨name, item⟩
    rcases List.forall_mem_cons.1 h with ⟨hitem, hfields⟩
    have hitem : item.meaning.staticSize = item.staticSize.map (Option.map Numeral.meaning) := hitem
    simp only [recordSize, fieldMeanings, hitem]
    cases item.staticSize with
    | error e => rfl
    | ok size =>
      cases size with
      | none => rfl
      | some n => exact ih hfields (total + n.value)

theorem caseSizes_meaning {cases : List Case}
    (h : ∀ c ∈ cases, recordSize 0 (fieldMeanings c.fields) =
      (recordSize 0 c.fields).map (Option.map Numeral.meaning)) :
    caseSizes (caseMeanings cases) =
      (caseSizes cases).map (List.map (Option.map Numeral.meaning)) := by
  induction cases with
  | nil => rfl
  | cons c cases ih =>
    rcases c with ⟨id, name, fields⟩
    rcases List.forall_mem_cons.1 h with ⟨hfields, hcases⟩
    have hfields : recordSize 0 (fieldMeanings fields) =
      (recordSize 0 fields).map (Option.map Numeral.meaning) := hfields
    simp only [caseSizes, caseMeanings, hfields, ih hcases]
    cases recordSize 0 fields with
    | error e => rfl
    | ok size => cases caseSizes cases <;> rfl

/-- A layout and its meaning have the same size. -/
theorem staticSize_meaning (l : Layout) :
    l.meaning.staticSize = l.staticSize.map (Option.map Numeral.meaning) := by
  induction l with
  | uint size custom omission => rfl
  | blob framing custom omission => cases framing <;> cases custom <;> rfl
  | nested framing inner custom omission ih =>
    cases framing with
    | unframed => exact ih
    | _ => rfl
  | array framing element custom ih =>
    cases framing with
    | fixed n =>
      simp only [staticSize, meaning, Framing.meaning, ih]
      cases element.staticSize with
      | error e => rfl
      | ok size => cases size <;> rfl
    | _ => rfl
  | switch idSize idTag cases custom ih =>
    have hsizes := caseSizes_meaning fun c hc => recordSize_meaning (fun f hf => ih c hc f hf) 0
    simp only [staticSize, meaning, hsizes]
    cases caseSizes cases with
    | error e => rfl
    | ok sizes =>
      have hcommon : commonSize (sizes.map (Option.map Numeral.meaning)) = commonSize sizes :=
        commonSize_meaning sizes
      simp only [Except.map, Except.ok_bind, hcommon]
      cases commonSize sizes <;> rfl
  | record fields ih => exact recordSize_meaning ih 0
  | _ => rfl

theorem distinct_meaning (ls : List Label) :
    Label.distinct (ls.map Label.meaning) = Label.distinct ls := by
  induction ls with
  | nil => rfl
  | cons l ls ih =>
    have hsame : l.meaning.same ∘ Label.meaning = l.same := by
      funext a
      simp only [Function.comp, Label.same_meaning_left, Label.same_meaning_right]
    simp only [List.map_cons, Label.distinct, List.any_map, hsame, ih]

theorem names_fieldMeanings (fields : List Field) :
    (fieldMeanings fields).map Field.name = (fields.map Field.name).map Label.meaning := by
  induction fields with
  | nil => rfl
  | cons f fields ih =>
    rcases f with ⟨name, item⟩
    simp only [fieldMeanings, List.map_cons, ih, Field.name]

theorem checkNames_meaning (fields : List Field) :
    checkNames (fieldMeanings fields) = .ok () ↔ checkNames fields = .ok () := by
  simp only [checkNames, names_fieldMeanings, distinct_meaning]
  split <;> simp [faulty]

/-- An integer that is no truth value can be written exactly if its meaning can. -/
theorem encode_meaning_iff {n size : Numeral} (h : ∀ b, n ≠ .truth b) :
    (∃ content, Uint.encode (.ofNumeral n.meaning) size.meaning = .ok content) ↔
      ∃ content, Uint.encode (.ofNumeral n) size = .ok content := by
  constructor
  · rintro ⟨content, hcontent⟩
    have hinteger : Uint.integer? (.ofNumeral n) = some n.value := by
      cases n with
      | truth b => exact absurd rfl (h b)
      | _ => rfl
    rcases Uint.encode_ok_iff.1 hcontent with ⟨m, hm, hbytes⟩
    cases hm
    refine ⟨content, Uint.encode_ok_iff.2 ⟨n.value, hinteger, ?_⟩⟩
    rw [Uint.bytesOf_ok_iff] at hbytes ⊢
    exact hbytes
  · rintro ⟨content, hcontent⟩
    exact ⟨content, encode_meaning hcontent⟩

theorem checkUintCustom_meaning {size : Numeral} {custom : Custom Numeral}
    (h : ∀ b, custom ≠ .constant (.truth b)) :
    checkUintCustom size.meaning custom.meaning = .ok () ↔
      checkUintCustom size custom = .ok () := by
  cases custom with
  | constant n =>
    have hn : ∀ b, n ≠ .truth b := by
      rintro b rfl
      exact h b rfl
    simp only [Custom.meaning, checkUintCustom, Except.map_ok_iff, and_true]
    exact encode_meaning_iff hn
  | unsuitable v =>
    -- what is unsuitable is refused for every size
    constructor
    · intro hcheck
      cases check_of_checkUintCustom hcheck
    · intro hcheck
      cases check_of_checkUintCustom hcheck
  | _ => exact Iff.rfl

theorem checkElementSize_meaning (framing : Framing) (element : Layout) :
    checkElementSize framing.meaning element.meaning = .ok () ↔
      checkElementSize framing element = .ok () := by
  cases framing with
  | unframed =>
    simp only [Framing.meaning, checkElementSize, staticSize_meaning]
    cases element.staticSize with
    | error e => exact Iff.rfl
    | ok size => cases size <;> exact Iff.rfl
  | _ => exact Iff.rfl

theorem checkFields_meaning {fields : List Field}
    (h : ∀ f ∈ fields, (f.item.meaning.check = .ok () ↔ f.item.check = .ok ())) :
    checkFields (fieldMeanings fields) = .ok () ↔ checkFields fields = .ok () := by
  induction fields with
  | nil => exact Iff.rfl
  | cons f fields ih =>
    rcases f with ⟨name, item⟩
    rcases List.forall_mem_cons.1 h with ⟨hitem, hfields⟩
    have hitem : item.meaning.check = .ok () ↔ item.check = .ok () := hitem
    simp only [checkFields, fieldMeanings, Except.seq_ok_iff, hitem, ih hfields]

theorem checkCases_meaning {idSize : Numeral} {cases : List Case}
    (hids : ∀ c ∈ cases, ∀ b, c.id ≠ .truth b)
    (h : ∀ c ∈ cases, (checkFields (fieldMeanings c.fields) = .ok () ↔
      checkFields c.fields = .ok ())) :
    checkCases idSize.meaning (caseMeanings cases) = .ok () ↔ checkCases idSize cases = .ok () := by
  induction cases with
  | nil => exact Iff.rfl
  | cons c cases ih =>
    rcases c with ⟨id, name, fields⟩
    rcases List.forall_mem_cons.1 hids with ⟨hid, hlaterIds⟩
    rcases List.forall_mem_cons.1 h with ⟨hfields, hlater⟩
    have hfields : checkFields (fieldMeanings fields) = .ok () ↔ checkFields fields = .ok () :=
      hfields
    have hid : ∀ b, id ≠ .truth b := hid
    simp only [checkCases, caseMeanings, Except.seq_ok_iff, checkNames_meaning, hfields]
    refine and_congr_right fun _ => and_congr_right fun _ => ?_
    simp only [Except.bind_ok_iff, exists_and_right, encode_meaning_iff hid, ih hlaterIds hlater]

/-- A distinctive layout passes its check exactly if its meaning does. -/
theorem check_meaning {l : Layout} (distinctive : l.Everywhere Distinctive) :
    l.meaning.check = .ok () ↔ l.check = .ok () := by
  induction l with
  | uint size custom omission => exact checkUintCustom_meaning distinctive.here.2
  | blob framing custom omission => exact Iff.rfl
  | nested framing inner custom omission ih =>
    simp only [check, meaning, Except.seq_ok_iff, ih (everywhere_nested.1 distinctive).2]
  | array framing element custom ih =>
    simp only [check, meaning, Except.seq_ok_iff, ih (everywhere_array.1 distinctive).2,
      checkElementSize_meaning]
  | switch idSize idTag cases custom ih =>
    have hcases : checkCases idSize.meaning (caseMeanings cases) = .ok () ↔
        checkCases idSize cases = .ok () := checkCases_meaning distinctive.here fun c hc =>
      checkFields_meaning fun f hf => ih c hc f hf ((everywhere_switch.1 distinctive).2 c hc f hf)
    simp only [check, meaning, Except.seq_ok_iff, hcases]
  | record fields ih =>
    have hfields := checkFields_meaning fun f hf =>
      ih f hf ((everywhere_record.1 distinctive).2 f hf)
    simp only [check, meaning, Except.seq_ok_iff, checkNames_meaning, hfields]
  | _ => exact Iff.rfl

/-! ## Parts -/

theorem forall_fieldMeanings {P : Layout → Prop} {fields : List Field} :
    (∀ f ∈ fieldMeanings fields, P f.item) ↔ ∀ f ∈ fields, P f.item.meaning := by
  induction fields with
  | nil => simp [fieldMeanings]
  | cons f fields ih =>
    rcases f with ⟨name, item⟩
    rw [fieldMeanings, List.forall_mem_cons, List.forall_mem_cons, ih]
    exact Iff.rfl

theorem forall_caseMeanings {P : Layout → Prop} {cases : List Case} :
    (∀ c ∈ caseMeanings cases, ∀ f ∈ c.fields, P f.item) ↔
      ∀ c ∈ cases, ∀ f ∈ c.fields, P f.item.meaning := by
  induction cases with
  | nil => simp [caseMeanings]
  | cons c cases ih =>
    rcases c with ⟨id, name, fields⟩
    rw [caseMeanings, List.forall_mem_cons, List.forall_mem_cons, ih]
    exact and_congr forall_fieldMeanings Iff.rfl

/-- A condition that the meaning of an item satisfies exactly if the item does holds of the parts of
a layout and of the parts of its meaning alike. -/
theorem everywhere_meaning {P : Layout → Prop} (h : ∀ p, P p.meaning ↔ P p) {l : Layout} :
    l.meaning.Everywhere P ↔ l.Everywhere P := by
  induction l with
  | uint size custom omission =>
    rw [everywhere_uint, ← h]
    exact everywhere_uint
  | blob framing custom omission =>
    rw [everywhere_blob, ← h]
    exact everywhere_blob
  | nested framing inner custom omission ih =>
    rw [everywhere_nested, ← h, ← ih]
    exact everywhere_nested
  | array framing element custom ih =>
    rw [everywhere_array, ← h, ← ih]
    exact everywhere_array
  | switch idSize idTag cases custom ih =>
    have hitems : (∀ c ∈ caseMeanings cases, ∀ f ∈ c.fields, f.item.Everywhere P) ↔
        ∀ c ∈ cases, ∀ f ∈ c.fields, f.item.Everywhere P :=
      forall_caseMeanings.trans (forall₄_congr ih)
    rw [everywhere_switch, ← h, ← hitems]
    exact everywhere_switch
  | record fields ih =>
    have hitems : (∀ f ∈ fieldMeanings fields, f.item.Everywhere P) ↔
        ∀ f ∈ fields, f.item.Everywhere P := forall_fieldMeanings.trans (forall₂_congr ih)
    rw [everywhere_record, ← h, ← hitems]
    exact everywhere_record
  | _ => exact Iff.rfl

end Layout

end WireLayout
