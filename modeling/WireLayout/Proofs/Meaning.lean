import WireLayout.Proofs.Canonical
import WireLayout.Proofs.Construction
import WireLayout.Proofs.Sameness

/-!
# Meaning — values and layouts without their spelling

Equal values and layouts may be spelt in several ways: an integer can stand as a truth value or as a
chain.  The meaning spells every numeral as the integer that it stands for.

* `Value.meaning`, `Layout.meaning` — the same value or layout, with numerals spelt as integers;
* `Layout.Uses` — the conversions in a layout;
* `Layout.Distinctive` — an item that the check refuses cannot be taken for one that it lets pass;
* `Layout.meaning_of_same` — distinctive layouts that are the same have the same meaning.
-/

namespace WireLayout

/-! ## Numerals, labels and values -/

namespace Numeral

/-- The integer that a numeral stands for, spelt as such. -/
def meaning (n : Numeral) : Numeral := .plain n.value

@[simp] theorem value_meaning (n : Numeral) : n.meaning.value = n.value := rfl

@[simp] theorem spellable_meaning (n : Numeral) : n.meaning.spellable = n.spellable := rfl

theorem meaning_eq_iff {m n : Numeral} : m.meaning = n.meaning ↔ m.value = n.value := by
  simp [meaning]

end Numeral

@[simp] theorem Label.meaning_numeral (n : Numeral) :
    (Label.numeral n).meaning = .numeral n.meaning := rfl

namespace Label

@[simp] theorem meaning_meaning (l : Label) : l.meaning.meaning = l.meaning := by
  cases l <;> rfl

@[simp] theorem same_meaning_left (a b : Label) : a.meaning.same b = a.same b := by
  simp [same]

@[simp] theorem same_meaning_right (a b : Label) : a.same b.meaning = a.same b := by
  simp [same]

@[simp] theorem spellable_meaning (l : Label) : l.meaning.spellable = l.spellable := by
  cases l <;> rfl

end Label

namespace Value

mutual

/-- The value with every numeral in it spelt as an integer. -/
def meaning : Value → Value
  | .bool b => .int (Numeral.truth b).value
  | .chain c => .int c.id
  | .list items => .list (meanings items)
  | .tuple items => .tuple (meanings items)
  | .dict entries => .dict (entryMeanings entries)
  | .evmFees a b c => .evmFees a.meaning b.meaning c.meaning
  | .solanaFees a b c => .solanaFees a.meaning b.meaning c.meaning
  | .command a b => .command a.meaning b.meaning
  | .chainCommand a b => .chainCommand a.meaning b.meaning
  | v => v

/-- The meanings of several values. -/
def meanings : List Value → List Value
  | [] => []
  | v :: vs => v.meaning :: meanings vs

/-- The meanings of the entries of a dictionary. -/
def entryMeanings : List (Label × Value) → List (Label × Value)
  | [] => []
  | (k, v) :: rest => (k.meaning, v.meaning) :: entryMeanings rest

end

theorem meanings_eq_map (vs : List Value) : meanings vs = vs.map meaning := by
  induction vs with
  | nil => rfl
  | cons v vs ih => rw [meanings, ih, List.map_cons]

theorem entryMeanings_eq_map (entries : List (Label × Value)) :
    entryMeanings entries = entries.map (Prod.map Label.meaning meaning) := by
  induction entries with
  | nil => rfl
  | cons e entries ih =>
    rcases e with ⟨key, v⟩
    rw [entryMeanings, ih, List.map_cons, Prod.map]

theorem meaning_ofNumeral (n : Numeral) : (ofNumeral n).meaning = .int n.value := by
  cases n <;> rfl

theorem meaning_ofLabel (l : Label) : (ofLabel l).meaning = (ofLabel l.meaning).meaning := by
  cases l with
  | numeral n => exact (meaning_ofNumeral n).trans (meaning_ofNumeral n.meaning).symm
  | _ => rfl

/-- A numeral equals the same values however it is spelt. -/
theorem same_ofNumeral_meaning (v : Value) (n : Numeral) :
    v.same (ofNumeral n.meaning) = v.same (ofNumeral n) := by
  cases v <;> cases n <;> rfl

theorem same_ofLabel_meaning (v : Value) (l : Label) :
    v.same (ofLabel l.meaning) = v.same (ofLabel l) := by
  cases l with
  | numeral n => exact same_ofNumeral_meaning v n
  | _ => rfl

theorem entry?_meaning (key : Label) (entries : List (Label × Value)) :
    entry? key.meaning entries = entry? key entries := by
  induction entries with
  | nil => rfl
  | cons e entries ih =>
    rcases e with ⟨k, v⟩
    simp only [Label.same_meaning_right, entry?, ih]

end Value

/-! ## Layouts -/

/-- The framing with its size spelt as an integer. -/
def Framing.meaning : Framing → Framing
  | .fixed size => .fixed size.meaning
  | .counted width => .counted width.meaning
  | .unframed => .unframed

/-- The attribute of an integer with a constant spelt as an integer. -/
def Custom.meaning : Custom Numeral → Custom Numeral
  | .constant n => .constant n.meaning
  | custom => custom

/-- The omission with its answer spelt as an integer. -/
def Omission.meaning : Omission → Omission := Option.map Numeral.meaning

@[simp] theorem Omission.isOn_meaning (o : Omission) : o.meaning.isOn = o.isOn := by
  cases o <;> rfl

/-- No constant of the item's kind is the same as what stands in the place of one. -/
def Custom.Distinctive {α : Type} (spell : α → Value) : Custom α → Prop
  | .unsuitable v => ∀ a, (spell a).same v = false
  | _ => True

theorem Custom.distinctive_of_check {α : Type} {spell : α → Value} {custom : Custom α}
    (h : custom.check = .ok ()) : custom.Distinctive spell := by
  cases custom with
  | unsuitable v => cases h
  | _ => trivial

/-! ## Attributes that are the same -/

theorem Framing.meaning_of_same {a b : Framing} (h : a.same b = true) : a.meaning = b.meaning := by
  cases a <;> cases b <;> simp_all [same, meaning, Numeral.meaning_eq_iff]

theorem Omission.meaning_of_same {a b : Omission} (h : sameOption a b = true) :
    a.meaning = b.meaning := by
  cases a <;> cases b <;> simp_all [sameOption, meaning, Numeral.meaning_eq_iff]

namespace Custom

variable {A B : Conversion → Prop} (hAB : ∀ c d, A c → B d → c.same d = true → c = d)
include hAB

/-- Of equal attributes, one that was checked and one that is distinctive, both are one conversion,
or both are equal constants. -/
theorem eq_or_constant_of_same {α : Type} {spell : α → Value} {a b : Custom α}
    (hcheck : a.check = .ok ()) (hdistinctive : b.Distinctive spell) (ha : a.Converts A)
    (hb : b.Converts B) (h : a.same spell b = true) :
    a = b ∨ ∃ x y, a = .constant x ∧ b = .constant y ∧ (spell x).same (spell y) = true := by
  cases a with
  | unsuitable v => cases hcheck
  | plain =>
    cases b with
    | plain => exact .inl rfl
    | _ => cases h
  | converted c =>
    cases b with
    | converted d => exact .inl (congrArg Custom.converted (hAB c d ha hb h))
    | _ => cases h
  | constant x =>
    cases b with
    | constant y => exact .inr ⟨x, y, rfl, rfl, h⟩
    | unsuitable v => exact absurd h (Bool.eq_false_iff.1 (hdistinctive x))
    | _ => cases h

theorem meaning_of_same {a b : Custom Numeral} (hcheck : a.check = .ok ())
    (hdistinctive : b.Distinctive Value.ofNumeral) (ha : a.Converts A) (hb : b.Converts B)
    (h : a.same Value.ofNumeral b = true) : a.meaning = b.meaning := by
  rcases eq_or_constant_of_same hAB hcheck hdistinctive ha hb h with rfl | ⟨x, y, rfl, rfl, hxy⟩
  · rfl
  · rw [Value.same_ofNumeral, Numeral.same_iff] at hxy
    exact congrArg constant (Numeral.meaning_eq_iff.2 hxy)

/-- Constants of bytes have one spelling only. -/
theorem eq_of_same_raw {a b : Custom (List UInt8)} (hcheck : a.check = .ok ())
    (hdistinctive : b.Distinctive Value.raw) (ha : a.Converts A) (hb : b.Converts B)
    (h : a.same Value.raw b = true) : a = b := by
  rcases eq_or_constant_of_same hAB hcheck hdistinctive ha hb h with rfl | ⟨x, y, rfl, rfl, hxy⟩
  · rfl
  · have hcontent : (x == y) = true := hxy
    rw [beq_iff_eq.1 hcontent]

/-- Where there are no constants, equal attributes are plain or one conversion. -/
theorem eq_of_same {a b : Custom Empty} (hcheck : a.check = .ok ()) (ha : a.Converts A)
    (hb : b.Converts B) (h : a.same Empty.elim b = true) : a = b := by
  have hdistinctive : b.Distinctive Empty.elim := by
    cases b with
    | unsuitable v => exact fun x => x.elim
    | _ => trivial
  exact (eq_or_constant_of_same hAB hcheck hdistinctive ha hb h).resolve_right
    fun ⟨x, _⟩ => x.elim

end Custom

namespace Layout

mutual

/-- The layout with every numeral in it spelt as an integer. -/
def meaning : Layout → Layout
  | .uint size custom omission => .uint size.meaning custom.meaning omission.meaning
  | .blob framing custom omission => .blob framing.meaning custom omission.meaning
  | .nested framing inner custom omission =>
    .nested framing.meaning (meaning inner) custom omission.meaning
  | .array framing element custom => .array framing.meaning (meaning element) custom
  | .switch idSize idTag cases custom =>
    .switch idSize.meaning idTag.meaning (caseMeanings cases) custom
  | .record fields => .record (fieldMeanings fields)
  | l => l
termination_by structural l => l

/-- The meanings of the fields of a record. -/
def fieldMeanings : List Field → List Field
  | [] => []
  | .mk name item :: rest => .mk name.meaning (meaning item) :: fieldMeanings rest
termination_by structural fields => fields

/-- The meanings of the cases of a switch. -/
def caseMeanings : List Case → List Case
  | [] => []
  | .mk id name fields :: rest =>
    .mk id.meaning name.meaning (fieldMeanings fields) :: caseMeanings rest
termination_by structural cases => cases

end

/-! ## Layouts that are the same -/

/-- The layout has the conversion in some part of it. -/
def Uses (l : Layout) (c : Conversion) : Prop := ∃ p, l.HasPart p ∧ p.conversion? = some c

theorem converts_uses (l : Layout) : l.Everywhere (Converts l.Uses) :=
  fun p hp => converts_iff.2 fun _ hc => ⟨p, hp, hc⟩

/-- The item has no truth value where only an integer can be written, and nothing that is the same
as a constant without being one. -/
def Distinctive : Layout → Prop
  | .uint _ custom _ =>
    custom.Distinctive Value.ofNumeral ∧ ∀ b, custom ≠ .constant (.truth b)
  | .blob _ custom _ => custom.Distinctive Value.raw
  | .switch _ _ cases _ => ∀ c ∈ cases, ∀ b, c.id ≠ .truth b
  | _ => True

theorem not_encode_truth {b : Bool} {size : Numeral} {content : List UInt8} :
    Uint.encode (.ofNumeral (.truth b)) size ≠ .ok content := by
  intro h
  cases h

/-- What passes its check cannot be taken for something else. -/
theorem distinctive_of_checked {p : Layout} (checked : p.Checked) : p.Distinctive := by
  cases p with
  | uint size custom omission =>
    refine ⟨Custom.distinctive_of_check (check_of_checkUintCustom checked), ?_⟩
    rintro b rfl
    have hcheck : (Uint.encode (.ofNumeral (.truth b)) size).map (fun _ => ()) = .ok () := checked
    rcases Except.map_ok_iff.1 hcheck with ⟨content, hcontent, _⟩
    exact not_encode_truth hcontent
  | blob framing custom omission => exact Custom.distinctive_of_check checked
  | switch idSize idTag cases custom =>
    intro c hc b hid
    rcases (checked.1 c hc).2 with ⟨tag, htag⟩
    rw [hid] at htag
    exact not_encode_truth htag
  | _ => trivial

theorem fieldMeanings_of_same {fields fields' : List Field}
    (ih : ∀ f ∈ fields, ∀ f' ∈ fields', f.item.same f'.item = true →
      f.item.meaning = f'.item.meaning)
    (h : sameFields fields fields' = true) : fieldMeanings fields = fieldMeanings fields' := by
  induction fields generalizing fields' with
  | nil =>
    cases fields' with
    | nil => rfl
    | cons f' fields' => cases h
  | cons f fields ihfields =>
    rcases f with ⟨name, item⟩
    cases fields' with
    | nil => cases h
    | cons f' fields' =>
      rcases f' with ⟨name', item'⟩
      simp only [sameFields, Bool.and_eq_true, Label.same_iff] at h
      rcases h with ⟨⟨hname, hitem⟩, hfields⟩
      have hmeaning := ih (.mk name item) List.mem_cons_self (.mk name' item') List.mem_cons_self
        hitem
      have hrest := ihfields (fun g hg g' hg' => ih g (List.mem_cons_of_mem _ hg) g'
        (List.mem_cons_of_mem _ hg')) hfields
      simp only [Field.item] at hmeaning
      simp only [fieldMeanings, hname, hmeaning, hrest]

theorem caseMeanings_of_same {cases cases' : List Case}
    (ih : ∀ c ∈ cases, ∀ f ∈ c.fields, ∀ c' ∈ cases', ∀ f' ∈ c'.fields,
      f.item.same f'.item = true → f.item.meaning = f'.item.meaning)
    (h : sameCases cases cases' = true) : caseMeanings cases = caseMeanings cases' := by
  induction cases generalizing cases' with
  | nil =>
    cases cases' with
    | nil => rfl
    | cons c' cases' => cases h
  | cons c cases ihcases =>
    rcases c with ⟨id, name, fields⟩
    cases cases' with
    | nil => cases h
    | cons c' cases' =>
      rcases c' with ⟨id', name', fields'⟩
      simp only [sameCases, Bool.and_eq_true, Label.same_iff, Numeral.same_iff] at h
      rcases h with ⟨⟨⟨hid, hname⟩, hfields⟩, hcases⟩
      have hmeanings : fieldMeanings fields = fieldMeanings fields' :=
        fieldMeanings_of_same (fun f hf f' hf' => ih (.mk id name fields) List.mem_cons_self f hf
          (.mk id' name' fields') List.mem_cons_self f' hf') hfields
      have hrest := ihcases (fun d hd f hf d' hd' => ih d (List.mem_cons_of_mem _ hd) f hf d'
        (List.mem_cons_of_mem _ hd')) hcases
      simp only [caseMeanings, Numeral.meaning_eq_iff.2 hid, hname, hmeanings, hrest]

/-- A checked layout and a distinctive one that are the same have the same meaning. -/
theorem meaning_of_same {A B : Conversion → Prop} {m l : Layout}
    (hAB : ∀ c d, A c → B d → c.same d = true → c = d)
    (hm : m.Everywhere fun p => p.Checked ∧ p.Converts A)
    (hl : l.Everywhere fun p => p.Distinctive ∧ p.Converts B) (h : m.same l = true) :
    m.meaning = l.meaning := by
  induction m generalizing l with
  | uint size custom omission =>
    cases l with
    | uint size' custom' omission' =>
      simp only [same, Bool.and_eq_true, Numeral.same_iff] at h
      rcases h with ⟨⟨hsize, hsame⟩, homission⟩
      have hmeaning := Custom.meaning_of_same hAB (check_of_checkUintCustom hm.here.1) hl.here.1.1
        hm.here.2 hl.here.2 hsame
      simp only [meaning, Numeral.meaning_eq_iff.2 hsize, hmeaning,
        Omission.meaning_of_same homission]
    | _ => cases h
  | blob framing custom omission =>
    cases l with
    | blob framing' custom' omission' =>
      simp only [same, Bool.and_eq_true] at h
      rcases h with ⟨⟨hframing, hsame⟩, homission⟩
      have heq := Custom.eq_of_same_raw hAB hm.here.1 hl.here.1 hm.here.2 hl.here.2 hsame
      simp only [meaning, heq, Framing.meaning_of_same hframing,
        Omission.meaning_of_same homission]
    | _ => cases h
  | nested framing inner custom omission ih =>
    cases l with
    | nested framing' inner' custom' omission' =>
      simp only [same, Bool.and_eq_true] at h
      rcases h with ⟨⟨⟨hframing, hinner⟩, hsame⟩, homission⟩
      have heq := Custom.eq_of_same hAB hm.here.1 hm.here.2 hl.here.2 hsame
      have hmeaning := ih (everywhere_nested.1 hm).2 (everywhere_nested.1 hl).2 hinner
      simp only [meaning, heq, hmeaning, Framing.meaning_of_same hframing,
        Omission.meaning_of_same homission]
    | _ => cases h
  | array framing element custom ih =>
    cases l with
    | array framing' element' custom' =>
      simp only [same, Bool.and_eq_true] at h
      rcases h with ⟨⟨hframing, helement⟩, hsame⟩
      have heq := Custom.eq_of_same hAB hm.here.1.2 hm.here.2 hl.here.2 hsame
      have hmeaning := ih (everywhere_array.1 hm).2 (everywhere_array.1 hl).2 helement
      simp only [meaning, heq, hmeaning, Framing.meaning_of_same hframing]
    | _ => cases h
  | switch idSize idTag cases custom ih =>
    cases l with
    | switch idSize' idTag' cases' custom' =>
      simp only [same, Bool.and_eq_true, Numeral.same_iff, Label.same_iff] at h
      rcases h with ⟨⟨⟨hsize, hcases⟩, htag⟩, hsame⟩
      have heq := Custom.eq_of_same hAB hm.here.1.2 hm.here.2 hl.here.2 hsame
      have hmeanings := caseMeanings_of_same (fun c hc f hf c' hc' f' hf' =>
        ih c hc f hf ((everywhere_switch.1 hm).2 c hc f hf)
          ((everywhere_switch.1 hl).2 c' hc' f' hf')) hcases
      simp only [meaning, heq, hmeanings, Numeral.meaning_eq_iff.2 hsize, htag]
    | _ => cases h
  | record fields ih =>
    cases l with
    | record fields' =>
      have hmeanings := fieldMeanings_of_same (fun f hf f' hf' =>
        ih f hf ((everywhere_record.1 hm).2 f hf) ((everywhere_record.1 hl).2 f' hf')) h
      simp only [meaning, hmeanings]
    | _ => cases h
  -- what is no item and no record was not checked
  | _ => exact hm.here.1.elim

end Layout
end WireLayout
