import Mathlib.Data.List.Forall2
import WireLayout.Codec
import WireLayout.Layout.Definition
import WireLayout.Proofs.Outcome
import WireLayout.Proofs.Parts

/-!
# Construction — what is known of layouts that were made and checked

Layouts come from the constructors of items, which refuse attributes that do not go together, and
are compiled only after a check.

* `Layout.Built` — made by the constructors, whatever stands inside;
* `Layout.WellMade` — what the constructors guarantee of one item;
* `Layout.Checked` — what the check guarantees of one item;
* `Layout.Proper` — items of the known kinds and records, which can be measured.

Main statements: every part of a layout that was built is well made (`Built.everywhere_wellMade`),
and a layout passes its check exactly if all its parts do (`check_ok_iff`).
-/

namespace WireLayout

/-! ## Distinct labels and numbers -/

theorem Label.distinct_iff {ls : List Label} :
    Label.distinct ls = true ↔ ls.Pairwise fun a b => a.same b = false := by
  induction ls with
  | nil => simp [Label.distinct]
  | cons l ls ih => simp [-Label.same_iff, Label.distinct, ih]

theorem Layout.distinctIds_iff {ns : List (Option Numeral)} :
    Layout.distinctIds ns = true ↔ ns.Pairwise fun a b => sameOption a b = false := by
  induction ns with
  | nil => simp [Layout.distinctIds]
  | cons n ns ih => simp [Layout.distinctIds, ih]

namespace Layout

/-! ## Constructors -/

/-- Layouts made by the constructors; values and items of unknown kind may stand inside. -/
inductive Built : Layout → Prop where
  | uint {size spec omission l} : uint? size spec omission = .ok l → Built l
  | bytes {size lengthSize inner spec omission l} : (∀ i, inner = some i → Built i) →
      bytes? size lengthSize inner spec omission = .ok l → Built l
  | array {element length lengthSize spec l} : Built element →
      array? element length lengthSize spec = .ok l → Built l
  | switch {idSize idTag spec l} {specs : List CaseSpec} : (∀ s ∈ specs, Built s.layout) →
      switch? idSize specs idTag spec = .ok l → Built l
  | field (name) {item} : Built item → Built (fieldOf name item)
  | tuple {items} : (∀ l ∈ items, Built l) → Built (ofItems items)
  | list {items} : (∀ l ∈ items, Built l) → Built (.list items)
  | unknownItem : Built .unknownItem
  | object (v) : Built (.object v)

/-- What the constructors guarantee of one item. -/
def WellMade : Layout → Prop
  | .uint size custom omission =>
    0 < size.value ∧ (∀ n, custom = .constant n → Uint.fits n.value size = .ok true) ∧
      (omission.isOn = true → ∃ n, custom = .constant n)
  | .blob framing custom omission =>
    (∀ n content, framing = .fixed n → custom = .constant content → n.value = content.length) ∧
      (omission.isOn = true → ∃ content, custom = .constant content)
  | .nested _ _ _ omission => omission.isOn = false
  | .switch idSize idTag cases _ =>
    cases ≠ [] ∧ (cases.Pairwise fun c d => c.id.value ≠ d.id.value) ∧
      (cases.Pairwise fun c d => c.name.same d.name = false) ∧
      ∀ c ∈ cases, Uint.fits c.id.value idSize = .ok true ∧
        ∀ f ∈ c.fields, f.name.same idTag = false
  | _ => True

/-! ## Sequences -/

/-- A sequence of fields is a record of them, and nothing else is. -/
theorem fieldsOf?_eq_some_iff {items : List Layout} {fields : List Field} :
    fieldsOf? items = some fields ↔ items = fields.map fun f => .field f.name f.item := by
  induction items generalizing fields with
  | nil => cases fields <;> simp [fieldsOf?]
  | cons l items ih =>
    cases l with
    | field name item =>
      constructor
      · intro h
        rcases Option.map_eq_some_iff.1 h with ⟨rest, hrest, rfl⟩
        simp [ih.1 hrest, Field.name, Field.item]
      · intro h
        cases fields with
        | nil => simp at h
        | cons f rest =>
          rcases f with ⟨name', item'⟩
          simp only [List.map_cons, List.cons.injEq, field.injEq, Field.name, Field.item] at h
          rcases h with ⟨⟨rfl, rfl⟩, h⟩
          simp [fieldsOf?, ih.2 h]
    | _ => cases fields <;> simp [fieldsOf?]

theorem everywhere_wellMade_ofItems {items : List Layout}
    (h : ∀ l ∈ items, l.Everywhere WellMade) : (ofItems items).Everywhere WellMade := by
  unfold ofItems
  split
  · rename_i fields hfields
    refine everywhere_record.2 ⟨trivial, fun f hf => ?_⟩
    have hmem : Layout.field f.name f.item ∈ items := by
      rw [fieldsOf?_eq_some_iff.1 hfields]
      exact List.mem_map.2 ⟨f, hf, rfl⟩
    exact (everywhere_field.1 (h _ hmem)).2
  · exact everywhere_tuple.2 ⟨trivial, h⟩

theorem everywhere_wellMade_settle {l : Layout} (h : l.Everywhere WellMade) :
    l.settle.Everywhere WellMade := by
  unfold settle
  split
  · exact everywhere_wellMade_ofItems (everywhere_list.1 h).2
  · exact h

/-! ## Items are well made -/

theorem wellMade_of_uint? {size spec omission l} (h : uint? size spec omission = .ok l) :
    l.Everywhere WellMade := by
  unfold uint? at h
  split at h
  · exact absurd h (by simp [faulty])
  · rename_i hsize
    have hpos : 0 < size.value := by omega
    split at h
    · rename_i n _
      rcases Except.bind_ok_iff.1 h with ⟨fits, hfits, h⟩
      cases fits with
      | false => exact absurd h (by simp [faulty])
      | true =>
        cases h
        rw [everywhere_uint]
        refine ⟨hpos, ?_, fun _ => ⟨n, rfl⟩⟩
        rintro _ ⟨⟩
        exact hfits
    · rename_i hspec
      split at h
      · exact absurd h (by simp [faulty])
      · rename_i hoff
        cases h
        rw [everywhere_uint]
        refine ⟨hpos, ?_, fun hon => absurd hon hoff⟩
        intro n hn
        cases spec <;> simp [customOf] at hn

theorem wellMade_of_bytes? {size lengthSize inner spec omission l}
    (hinner : ∀ i, inner = some i → i.Everywhere WellMade)
    (h : bytes? size lengthSize inner spec omission = .ok l) : l.Everywhere WellMade := by
  have hsettled : ∀ i, innerOf? inner = some i → i.Everywhere WellMade := by
    intro i hi
    unfold innerOf? at hi
    split at hi
    · cases hi
    · cases hi
      exact everywhere_wellMade_settle (hinner _ rfl)
    · cases hi
  have hplain : ∀ content : List UInt8, customOf spec ≠ .constant content := by
    intro content
    cases spec <;> simp [customOf]
  unfold bytes? at h
  rcases Except.bind_ok_iff.1 h with ⟨framing, hframing, h⟩
  split at h
  · exact absurd h (by simp [faulty])
  · rename_i content _ _
    -- a constant: with a given size, the sizes have to agree
    split at h
    · rename_i n
      split at h
      · rename_i hn
        cases h
        rw [everywhere_blob]
        refine ⟨?_, fun _ => ⟨content, rfl⟩⟩
        rintro _ _ ⟨⟩ ⟨⟩
        exact hn
      · exact absurd h (by simp [faulty])
    · rename_i hunsized
      cases h
      rw [everywhere_blob]
      exact ⟨fun n _ hn _ => absurd hn (hunsized n), fun _ => ⟨content, rfl⟩⟩
  · split at h
    · exact absurd h (by simp [faulty])
    · rename_i hoff
      split at h
      · rename_i i hi
        cases h
        exact everywhere_nested.2 ⟨by simpa [WellMade] using hoff, hsettled i hi⟩
      · cases h
        rw [everywhere_blob]
        exact ⟨fun _ content _ hc => absurd hc (hplain content), fun hon => absurd hon hoff⟩

theorem case?_ok {idSize idTag spec c} (h : case? idSize idTag spec = .ok c) :
    spec.id = some c.id ∧ c.name = spec.name ∧
      Uint.fitsOption c.id.value idSize = .ok true ∧ spec.layout.settle = .record c.fields ∧
      ∀ f ∈ c.fields, f.name.same idTag = false := by
  unfold case? at h
  split at h
  · cases h
  · rename_i id hid
    rcases Except.bind_ok_iff.1 h with ⟨fits, hfits, h⟩
    cases fits with
    | false => exact absurd h (by simp [faulty])
    | true =>
      simp only [if_true] at h
      split at h
      · rename_i fields hrecord
        split at h
        · exact absurd h (by simp [faulty])
        · rename_i hhides
          cases h
          refine ⟨hid, rfl, hfits, hrecord, fun f hf => ?_⟩
          simp only [List.any_eq_true, not_exists, not_and, Bool.not_eq_true] at hhides
          exact hhides f hf
      · exact absurd h (by simp [faulty])

theorem cases?_ok {idSize idTag} {specs : List CaseSpec} {cases : List Case}
    (h : cases? idSize idTag specs = .ok cases) :
    List.Forall₂ (fun spec c => case? idSize idTag spec = .ok c) specs cases := by
  induction specs generalizing cases with
  | nil =>
    cases h
    exact .nil
  | cons spec specs ih =>
    rcases Except.bind_ok_iff.1 h with ⟨c, hc, h⟩
    rcases Except.bind_ok_iff.1 h with ⟨rest, hrest, h⟩
    cases h
    exact .cons hc (ih hrest)

section

variable {idSize : Option Numeral} {idTag : Label} {specs : List CaseSpec} {cases : List Case}
  (h : List.Forall₂ (fun spec c => case? idSize idTag spec = .ok c) specs cases)

include h

theorem ids_of_cases : specs.map CaseSpec.id = cases.map fun c => some c.id := by
  induction h with
  | nil => rfl
  | cons hc _ ih => simp [(case?_ok hc).1, ih]

theorem names_of_cases : specs.map CaseSpec.name = cases.map Case.name := by
  induction h with
  | nil => rfl
  | cons hc _ ih => simp [(case?_ok hc).2.1, ih]

theorem spec_of_case : ∀ c ∈ cases, ∃ s ∈ specs, case? idSize idTag s = .ok c := by
  induction h with
  | nil => simp
  | cons hc _ ih =>
    intro c hmem
    rcases List.mem_cons.1 hmem with rfl | hmem
    · exact ⟨_, List.mem_cons_self, hc⟩
    · rcases ih c hmem with ⟨s, hs, hsc⟩
      exact ⟨s, List.mem_cons_of_mem _ hs, hsc⟩

end

theorem wellMade_of_switch? {idSize idTag spec l} {specs : List CaseSpec}
    (hspecs : ∀ s ∈ specs, s.layout.Everywhere WellMade)
    (h : switch? idSize specs idTag spec = .ok l) : l.Everywhere WellMade := by
  unfold switch? at h
  split at h
  · exact absurd h (by simp [faulty])
  · rename_i hempty
    split at h
    · exact absurd h (by simp [faulty])
    · rename_i hids
      split at h
      · exact absurd h (by simp [faulty])
      · rename_i hnames
        rcases Except.bind_ok_iff.1 h with ⟨cases, hcases, h⟩
        cases idSize with
        | none => cases h
        | some n =>
          cases h
          -- the constructor compares the descriptions of the cases, so it has to be read off them
          have hmade := cases?_ok hcases
          have hidsEq := ids_of_cases hmade
          have hnamesEq := names_of_cases hmade
          refine everywhere_switch.2 ⟨⟨?_, ?_, ?_, ?_⟩, ?_⟩
          · rintro rfl
            simp at hidsEq
            simp [hidsEq] at hempty
          · have hdistinct : distinctIds (specs.map CaseSpec.id) = true := by simpa using hids
            rw [hidsEq, distinctIds_iff, List.pairwise_map] at hdistinct
            exact hdistinct.imp fun h => by simpa [sameOption, Numeral.same] using h
          · have hdistinct : Label.distinct (specs.map CaseSpec.name) = true := by
              simpa using hnames
            rwa [hnamesEq, Label.distinct_iff, List.pairwise_map] at hdistinct
          · intro c hc
            rcases spec_of_case hmade c hc with ⟨s, _, hsc⟩
            exact ⟨(case?_ok hsc).2.2.1, (case?_ok hsc).2.2.2.2⟩
          · intro c hc f hf
            rcases spec_of_case hmade c hc with ⟨s, hs, hsc⟩
            have hrecord := everywhere_wellMade_settle (hspecs s hs)
            rw [(case?_ok hsc).2.2.2.1] at hrecord
            exact (everywhere_record.1 hrecord).2 f hf

/-- Whatever the constructors make is well made in all its parts. -/
theorem Built.everywhere_wellMade {l : Layout} (h : l.Built) : l.Everywhere WellMade := by
  induction h with
  | uint h => exact wellMade_of_uint? h
  | bytes _ h ih => exact wellMade_of_bytes? ih h
  | array _ h ih =>
    rcases Except.bind_ok_iff.1 h with ⟨framing, _, h⟩
    cases h
    exact everywhere_array.2 ⟨trivial, everywhere_wellMade_settle ih⟩
  | switch _ h ih => exact wellMade_of_switch? ih h
  -- a sequence guarantees nothing itself, its items do
  | field name _ ih => exact everywhere_field.2 ⟨trivial, everywhere_wellMade_settle ih⟩
  | tuple _ ih => exact everywhere_wellMade_ofItems ih
  | list _ ih => exact everywhere_list.2 ⟨trivial, ih⟩
  | unknownItem =>
    rintro _ ⟨⟩
    trivial
  | object v =>
    rintro _ ⟨⟩
    trivial

/-! ## The check of a layout -/

/-- What the check guarantees of one item. -/
def Checked : Layout → Prop
  | .uint size custom _ => checkUintCustom size custom = .ok ()
  | .blob _ custom _ => custom.check = .ok ()
  | .nested _ _ custom _ => custom.check = .ok ()
  | .array framing element custom =>
    checkElementSize framing element = .ok () ∧ custom.check = .ok ()
  | .switch idSize _ cases custom =>
    (∀ c ∈ cases, checkNames c.fields = .ok () ∧
      ∃ tag, Uint.encode (.ofNumeral c.id) idSize = .ok tag) ∧ custom.check = .ok ()
  | .record fields => checkNames fields = .ok ()
  | _ => False

theorem refuseNumeral_of_check {α : Type} {custom : Custom α} (h : custom.check = .ok ()) :
    custom.refuseNumeral = .ok () := by
  cases custom <;> simp_all [Custom.check, Custom.refuseNumeral]

/-- An integer has an attribute that fits it, or one that any item can have. -/
theorem check_of_checkUintCustom {size : Numeral} {custom : Custom Numeral}
    (h : checkUintCustom size custom = .ok ()) : custom.check = .ok () := by
  unfold checkUintCustom at h
  split at h
  · rfl
  · cases h
  · exact h

theorem checkNames_ok_iff {fields : List Field} :
    checkNames fields = .ok () ↔
      (fields.map Field.name).Pairwise fun a b => a.same b = false := by
  rw [← Label.distinct_iff, checkNames]
  split
  · simp only [*]
  · simp [faulty, *]

/-- The elements of an unframed array have a static size other than zero, or none. -/
theorem checkElementSize_ok_iff {element : Layout} :
    checkElementSize .unframed element = .ok () ↔
      ∃ size, element.staticSize = .ok size ∧ ∀ n, size = some n → n.value ≠ 0 := by
  unfold checkElementSize
  rw [Except.bind_ok_iff]
  refine exists_congr fun size => and_congr_right fun _ => ?_
  cases size with
  | none => exact ⟨fun _ _ => nofun, fun _ => rfl⟩
  | some n =>
    by_cases hzero : n.value = 0
    · simp [hzero, faulty]
    · simp only [Option.some.injEq, forall_eq', ne_eq, hzero, not_false_iff, iff_true]
      rfl

theorem checkFields_ok_iff {fields : List Field} :
    checkFields fields = .ok () ↔ ∀ f ∈ fields, f.item.check = .ok () := by
  induction fields with
  | nil => simp [checkFields]
  | cons f fields ih =>
    rcases f with ⟨name, item⟩
    simp only [checkFields, Except.seq_ok_iff, ih, List.forall_mem_cons, Field.item]

theorem checkCases_ok_iff {idSize : Numeral} {cases : List Case} :
    checkCases idSize cases = .ok () ↔
      ∀ c ∈ cases, (checkNames c.fields = .ok () ∧
        ∃ tag, Uint.encode (.ofNumeral c.id) idSize = .ok tag) ∧
          ∀ f ∈ c.fields, f.item.check = .ok () := by
  induction cases with
  | nil => simp [checkCases]
  | cons c cases ih =>
    rcases c with ⟨id, name, fields⟩
    simp only [checkCases, Except.seq_ok_iff, checkFields_ok_iff, List.forall_mem_cons,
      Case.fields, Case.id]
    constructor
    · rintro ⟨hnames, hfields, h⟩
      rcases Except.bind_ok_iff.1 h with ⟨tag, htag, hrest⟩
      exact ⟨⟨⟨hnames, tag, htag⟩, hfields⟩, ih.1 hrest⟩
    · rintro ⟨⟨⟨hnames, tag, htag⟩, hfields⟩, hrest⟩
      exact ⟨hnames, hfields, Except.bind_ok_iff.2 ⟨tag, htag, ih.2 hrest⟩⟩

/-- A layout passes its check exactly if all its parts do. -/
theorem check_ok_iff {l : Layout} : l.check = .ok () ↔ l.Everywhere Checked := by
  induction l with
  | uint size custom omission => simp [check, Checked]
  | blob framing custom omission =>
    simp only [check, Except.seq_ok_iff, everywhere_blob, Checked]
    -- numerals are refused first, by a part of the check that follows
    exact ⟨fun h => h.2, fun h => ⟨refuseNumeral_of_check h, h⟩⟩
  | nested framing inner custom omission ih =>
    simp only [check, Except.seq_ok_iff, everywhere_nested, Checked, ih]
    constructor
    · intro h
      exact ⟨h.2.2, h.2.1⟩
    · intro h
      exact ⟨refuseNumeral_of_check h.1, h.2, h.1⟩
  | array framing element custom ih =>
    simp only [check, Except.seq_ok_iff, everywhere_array, Checked, ih]
    constructor
    · intro h
      exact ⟨h.2, h.1⟩
    · intro h
      exact ⟨h.2, h.1⟩
  | switch idSize idTag cases custom ih =>
    simp only [check, Except.seq_ok_iff, everywhere_switch, Checked, checkCases_ok_iff]
    constructor
    · rintro ⟨hcases, h⟩
      exact ⟨⟨fun c hc => (hcases c hc).1, h⟩,
        fun c hc f hf => (ih c hc f hf).1 ((hcases c hc).2 f hf)⟩
    · rintro ⟨⟨hcases, h⟩, hitems⟩
      exact ⟨fun c hc => ⟨hcases c hc, fun f hf => (ih c hc f hf).2 (hitems c hc f hf)⟩, h⟩
  | record fields ih =>
    simp only [check, Except.seq_ok_iff, everywhere_record, Checked, checkFields_ok_iff]
    constructor
    · rintro ⟨hnames, hfields⟩
      exact ⟨hnames, fun f hf => (ih f hf).1 (hfields f hf)⟩
    · rintro ⟨hnames, hitems⟩
      exact ⟨hnames, fun f hf => (ih f hf).2 (hitems f hf)⟩
  | _ =>
    constructor
    · intro h
      simp [check] at h
    · intro h
      exact h.here.elim

/-! ## The size of a layout -/

theorem exists_recordSize {fields : List Field}
    (h : ∀ f ∈ fields, ∃ size, f.item.staticSize = .ok size) (total : Int) :
    ∃ size, recordSize total fields = .ok size := by
  induction fields generalizing total with
  | nil => exact ⟨_, rfl⟩
  | cons f fields ih =>
    rcases f with ⟨name, item⟩
    rcases List.forall_mem_cons.1 h with ⟨⟨size, hsize⟩, hlater⟩
    have hsize : item.staticSize = .ok size := hsize
    cases size with
    | none => exact ⟨none, by simp only [recordSize, hsize, Except.ok_bind]; rfl⟩
    | some n =>
      rcases ih hlater (total + n.value) with ⟨rest, hrest⟩
      exact ⟨rest, by simp only [recordSize, hsize, Except.ok_bind, hrest]⟩

theorem exists_caseSizes {cases : List Case}
    (h : ∀ c ∈ cases, ∃ size, recordSize 0 c.fields = .ok size) :
    ∃ sizes, caseSizes cases = .ok sizes := by
  induction cases with
  | nil => exact ⟨_, rfl⟩
  | cons c cases ih =>
    rcases c with ⟨id, name, fields⟩
    rcases List.forall_mem_cons.1 h with ⟨⟨size, hsize⟩, hlater⟩
    rcases ih hlater with ⟨sizes, hsizes⟩
    have hsize : recordSize 0 fields = .ok size := hsize
    exact ⟨size :: sizes, by simp only [caseSizes, hsize, hsizes, Except.ok_bind]; rfl⟩

/-- An item of a known kind, or a record. -/
def Proper : Layout → Prop
  | .uint .. | .blob .. | .nested .. | .array .. | .switch .. | .record _ => True
  | _ => False

theorem proper_of_checked {l : Layout} (h : l.Checked) : l.Proper := by
  cases l <;> first | exact h | trivial

/-- What has only items of known kinds and records in it can be measured. -/
theorem exists_staticSize {l : Layout} (h : l.Everywhere Proper) :
    ∃ size, l.staticSize = .ok size := by
  induction l with
  | uint size custom omission => exact ⟨_, rfl⟩
  | blob framing custom omission =>
    cases framing <;> cases custom <;> exact ⟨_, rfl⟩
  | nested framing inner custom omission ih =>
    cases framing with
    | unframed => exact ih (everywhere_nested.1 h).2
    | _ => exact ⟨_, rfl⟩
  | array framing element custom ih =>
    cases framing with
    | fixed n =>
      rcases ih (everywhere_array.1 h).2 with ⟨size, hsize⟩
      exact ⟨_, by simp only [staticSize, hsize, Except.ok_bind]; rfl⟩
    | _ => exact ⟨_, rfl⟩
  | switch idSize idTag cases custom ih =>
    have hcases := (everywhere_switch.1 h).2
    rcases exists_caseSizes fun c hc =>
      exists_recordSize (fun f hf => ih c hc f hf (hcases c hc f hf)) 0 with ⟨sizes, hsizes⟩
    exact ⟨_, by simp only [staticSize, hsizes, Except.ok_bind]; rfl⟩
  | record fields ih =>
    exact exists_recordSize (fun f hf => ih f hf ((everywhere_record.1 h).2 f hf)) 0
  | _ => exact h.here.elim

end Layout

theorem Codec.everywhere_checked (c : Codec) : c.layout.Everywhere Layout.Checked := by
  rcases Except.seq_ok_iff.1 c.accepted with ⟨hcheck, _⟩
  exact Layout.check_ok_iff.1 hcheck

end WireLayout
