import WireLayout.Proofs.Construction
import WireLayout.Proofs.Digits
import WireLayout.Proofs.Registration

/-!
# Defects — what is left for the compiler to find

The constructors see to ranges, and to the numbers and names of the cases of a switch.  For the
compiler they leave two defects: fields of one record with the same name, and arrays whose elements
would never use up their input.  A description whose attributes have the types that they are
declared with is refused for these and for nothing else.

* `Layout.Declared` — the attributes of an item have their declared types;
* `Layout.Defective` — an item has a defect that is left for the compiler;
* `Layout.checked_iff` — an item passes its check exactly if it has none;
* `Layout.kind_of_check` — a check that fails says that the description is faulty;
* `Registry.compile_exact` — what compiling comes to where nothing was compiled before.

Behind its checks a layout is kept, and then reported with its size.  So one whose size has too many
digits fails although nothing is wrong with it.
-/

namespace WireLayout

/-! ## Attributes of their declared types -/

/-- An extra attribute is a conversion, a constant or nothing. -/
def Custom.Suitable {α : Type} : Custom α → Prop
  | .unsuitable _ => False
  | _ => True

namespace Custom

variable {α : Type} {custom : Custom α}

theorem Suitable.check (h : custom.Suitable) : custom.check = .ok () := by
  cases custom <;> first | rfl | exact h.elim

theorem Suitable.isKey (h : custom.Suitable) : custom.isKey = true := by
  cases custom <;> first | rfl | exact h.elim

end Custom

namespace Layout

/-- All fields have texts for names. -/
def NamedByTexts (fields : List Field) : Prop := ∀ f ∈ fields, ∃ s, f.name = .text s

/-- The attributes of an item have their declared types: constants and numbers of cases are no truth
values, names of fields are texts, and in the place of a layout there is an item or a record. -/
def Declared : Layout → Prop
  | .uint _ custom _ => custom.Suitable ∧ ∀ b, custom ≠ .constant (.truth b)
  | .blob _ custom _ => custom.Suitable
  | .nested _ _ custom _ => custom.Suitable
  | .array _ _ custom => custom.Suitable
  | .switch _ _ cases custom =>
    custom.Suitable ∧ ∀ c ∈ cases, (∀ b, c.id ≠ .truth b) ∧ NamedByTexts c.fields
  | .record fields => NamedByTexts fields
  | _ => False

variable {l p : Layout} {fields : List Field} {e : Error}

theorem proper_of_declared (h : l.Declared) : l.Proper := by
  cases l <;> first | exact h | trivial

/-- Descriptions that can be looked up, field by field. -/
theorem fieldsAreKeys_iff : fieldsAreKeys fields = true ↔ ∀ f ∈ fields, f.item.isKey = true := by
  induction fields with
  | nil => simp [fieldsAreKeys]
  | cons f fields ih =>
    rcases f with ⟨name, item⟩
    simp only [fieldsAreKeys, Bool.and_eq_true, ih, List.forall_mem_cons, Field.item]

theorem casesAreKeys_iff {cases : List Case} :
    casesAreKeys cases = true ↔ ∀ c ∈ cases, ∀ f ∈ c.fields, f.item.isKey = true := by
  induction cases with
  | nil => simp [casesAreKeys]
  | cons c cases ih =>
    rcases c with ⟨id, name, fields⟩
    simp only [casesAreKeys, Bool.and_eq_true, fieldsAreKeys_iff, ih, List.forall_mem_cons,
      Case.fields]

/-- Attributes of their declared types can be looked up. -/
theorem isKey_of_declared (declared : l.Everywhere Declared) : l.isKey = true := by
  induction l with
  | uint size custom omission => exact declared.here.1.isKey
  | blob framing custom omission => exact Custom.Suitable.isKey declared.here
  | nested framing inner custom omission ih =>
    rcases everywhere_nested.1 declared with ⟨hcustom, hinner⟩
    exact Bool.and_eq_true_iff.2 ⟨ih hinner, Custom.Suitable.isKey hcustom⟩
  | array framing element custom ih =>
    rcases everywhere_array.1 declared with ⟨hcustom, helement⟩
    exact Bool.and_eq_true_iff.2 ⟨ih helement, Custom.Suitable.isKey hcustom⟩
  | switch idSize idTag cases custom ih =>
    rcases everywhere_switch.1 declared with ⟨⟨hcustom, _⟩, hcases⟩
    have hkeys : casesAreKeys cases = true :=
      casesAreKeys_iff.2 fun c hc f hf => ih c hc f hf (hcases c hc f hf)
    exact Bool.and_eq_true_iff.2 ⟨hkeys, hcustom.isKey⟩
  | record fields ih =>
    have hfields := (everywhere_record.1 declared).2
    exact fieldsAreKeys_iff.2 fun f hf => ih f hf (hfields f hf)
  | _ => exact declared.here.elim

/-! ## Defects -/

/-- Two fields have the same name. -/
def RepeatsName (fields : List Field) : Prop := ¬ (fields.map Field.name).Nodup

/-- A defect that is left for the compiler: a record in which a name is repeated, also as the record
of a case, or an array without a frame whose elements have the size zero. -/
def Defective : Layout → Prop
  | .array .unframed element _ => ∃ n, element.staticSize = .ok (some n) ∧ n.value = 0
  | .switch _ _ cases _ => ∃ c ∈ cases, RepeatsName c.fields
  | .record fields => RepeatsName fields
  | _ => False

/-- Texts are the same only if they are equal. -/
theorem checkNames_ok_iff_nodup (h : NamedByTexts fields) :
    checkNames fields = .ok () ↔ ¬ RepeatsName fields := by
  have hsame : ∀ {a b : Label}, a ∈ fields.map Field.name → b ∈ fields.map Field.name →
      (a.same b = false ↔ a ≠ b) := by
    intro a b _ hb
    rcases List.mem_map.1 hb with ⟨f, hf, rfl⟩
    rcases h f hf with ⟨s, hs⟩
    rw [hs, ← Bool.not_eq_true, Label.same_text_iff]
  rw [checkNames_ok_iff, RepeatsName, not_not, List.Nodup]
  exact List.Pairwise.iff_of_mem hsame

/-- A number that fits and is no truth value can be written. -/
theorem exists_encode_of_fits {n size : Numeral} (hn : ∀ b, n ≠ .truth b)
    (hfits : Uint.fits n.value size = .ok true) :
    ∃ tag, Uint.encode (.ofNumeral n) size = .ok tag := by
  have hinteger : Uint.integer? (.ofNumeral n) = some n.value := by
    cases n with
    | truth b => exact absurd rfl (hn b)
    | _ => rfl
  rcases Uint.fits_ok_true_iff.1 hfits with ⟨m, hm, hroom⟩
  exact ⟨_, Uint.encode_ok_iff.2 ⟨n.value, hinteger, Uint.bytesOf_ok_iff.2 ⟨m, hm, hroom, rfl⟩⟩⟩

/-- The constructors and the declared types leave no other reason to refuse an item than a
defect. -/
theorem checked_iff (made : p.Everywhere WellMade) (declared : p.Everywhere Declared) :
    p.Checked ↔ ¬ p.Defective := by
  have hmade := made.here
  have hdeclared := declared.here
  cases p with
  | uint size custom omission =>
    refine ⟨fun _ h => h, fun _ => ?_⟩
    cases custom with
    | constant n =>
      have htruth : ∀ b, n ≠ .truth b := fun b hb => hdeclared.2 b (congrArg _ hb)
      rcases exists_encode_of_fits htruth (hmade.2.1 n rfl) with ⟨tag, htag⟩
      exact Except.map_ok_iff.2 ⟨tag, htag, rfl⟩
    | unsuitable v => exact hdeclared.1.elim
    | _ => rfl
  | blob framing custom omission => exact ⟨fun _ h => h, fun _ => Custom.Suitable.check hdeclared⟩
  | nested framing inner custom omission =>
    exact ⟨fun _ h => h, fun _ => Custom.Suitable.check hdeclared⟩
  | array framing element custom =>
    have hcustom : custom.check = .ok () := Custom.Suitable.check hdeclared
    rcases everywhere_array.1 declared with ⟨_, helement⟩
    rcases exists_staticSize (helement.mono fun _ => proper_of_declared) with ⟨size, hsize⟩
    cases framing with
    | unframed =>
      simp only [Checked, Defective, checkElementSize_ok_iff, hsize, hcustom, and_true]
      constructor
      · rintro ⟨_, ⟨⟩, hsome⟩ ⟨n, hn, hzero⟩
        cases hn
        exact hsome n rfl hzero
      · intro hnone
        exact ⟨size, rfl, fun n hn hzero => hnone ⟨n, by rw [hn], hzero⟩⟩
    | _ => exact ⟨fun _ h => h, fun _ => ⟨rfl, hcustom⟩⟩
  | switch idSize idTag cases custom =>
    rcases hdeclared with ⟨hcustom, hcases⟩
    constructor
    · rintro ⟨hchecked, _⟩ ⟨c, hc, hrepeats⟩
      exact (checkNames_ok_iff_nodup (hcases c hc).2).1 (hchecked c hc).1 hrepeats
    · intro hnone
      refine ⟨fun c hc => ⟨?_, ?_⟩, hcustom.check⟩
      · exact (checkNames_ok_iff_nodup (hcases c hc).2).2 fun hrepeats => hnone ⟨c, hc, hrepeats⟩
      · exact exists_encode_of_fits (hcases c hc).1 (hmade.2.2.2 c hc).1
  | record fields => exact checkNames_ok_iff_nodup hdeclared
  | _ => exact hdeclared.elim

/-! ## Failures of the check -/

theorem kind_of_checkNames (h : NamedByTexts fields) (he : checkNames fields = .error e) :
    e.kind = .layoutDefinition := by
  unfold checkNames at he
  split at he
  · cases he
  · cases he
    -- a listing of texts can be written whatever they are
    have hspelt : (fields.map Field.name).all Label.spellable = true := by
      rw [List.all_map, List.all_eq_true]
      intro f hf
      rcases h f hf with ⟨s, hs⟩
      rw [Function.comp_apply, hs]
      rfl
    exact if_pos hspelt

theorem exists_of_checkFields_error (h : checkFields fields = .error e) :
    ∃ f ∈ fields, f.item.check = .error e := by
  induction fields with
  | nil => cases h
  | cons f fields ih =>
    rcases f with ⟨name, item⟩
    rcases Except.bind_error_iff.1 h with hitem | ⟨_, _, hlater⟩
    · exact ⟨_, List.mem_cons_self, hitem⟩
    · rcases ih hlater with ⟨f, hf, hfails⟩
      exact ⟨f, List.mem_cons_of_mem _ hf, hfails⟩

theorem exists_of_checkCases_error {idSize : Numeral} {cases : List Case}
    (h : checkCases idSize cases = .error e) :
    ∃ c ∈ cases, checkNames c.fields = .error e ∨ checkFields c.fields = .error e ∨
      Uint.encode (.ofNumeral c.id) idSize = .error e := by
  induction cases with
  | nil => cases h
  | cons c cases ih =>
    rcases c with ⟨id, name, fields⟩
    unfold checkCases at h
    simp only [Except.bind_error_iff] at h
    rcases h with hnames | ⟨_, _, hfields | ⟨_, _, htag | ⟨_, _, hlater⟩⟩⟩
    · exact ⟨_, List.mem_cons_self, .inl hnames⟩
    · exact ⟨_, List.mem_cons_self, .inr (.inl hfields)⟩
    · exact ⟨_, List.mem_cons_self, .inr (.inr htag)⟩
    · rcases ih hlater with ⟨c, hc, hfails⟩
      exact ⟨c, List.mem_cons_of_mem _ hc, hfails⟩

theorem eq_of_checkElementSize_error {framing : Framing} {element : Layout}
    {size : Option Numeral} (hsize : element.staticSize = .ok size)
    (h : checkElementSize framing element = .error e) :
    e = .definition .emptyUnframedElement := by
  cases framing with
  | unframed =>
    unfold checkElementSize at h
    rw [hsize, Except.ok_bind] at h
    cases size with
    | none => cases h
    | some n =>
      by_cases hzero : n.value = 0
      · simpa [hzero, faulty, eq_comm] using h
      · simp only [if_neg hzero] at h
        cases h
  | _ => cases h

/-- A check that fails says that the description is faulty. -/
theorem kind_of_check (made : l.Everywhere WellMade) (declared : l.Everywhere Declared)
    (h : l.check = .error e) : e.kind = .layoutDefinition := by
  -- on the parts in the order of their checks; what is asked of one item itself never fails
  induction l with
  | uint size custom omission =>
    have hchecked := (checked_iff made declared).2 fun h => h
    rw [check_ok_iff.2 (everywhere_uint.2 hchecked)] at h
    cases h
  | blob framing custom omission =>
    have hchecked := (checked_iff made declared).2 fun h => h
    rw [check_ok_iff.2 (everywhere_blob.2 hchecked)] at h
    cases h
  | nested framing inner custom omission ih =>
    have hcustom : custom.check = .ok () := Custom.Suitable.check declared.here
    unfold check at h
    rw [refuseNumeral_of_check hcustom, hcustom] at h
    simp only [Except.bind_error_iff] at h
    rcases h with hnever | ⟨_, _, hinner | ⟨_, _, ⟨⟩⟩⟩
    · cases hnever
    · exact ih (everywhere_nested.1 made).2 (everywhere_nested.1 declared).2 hinner
  | array framing element custom ih =>
    have hcustom : custom.check = .ok () := Custom.Suitable.check declared.here
    rcases everywhere_array.1 declared with ⟨_, helement⟩
    rcases exists_staticSize (helement.mono fun _ => proper_of_declared) with ⟨size, hsize⟩
    unfold check at h
    rw [hcustom] at h
    simp only [Except.bind_error_iff] at h
    rcases h with hinner | ⟨_, _, hempty | ⟨_, _, ⟨⟩⟩⟩
    · exact ih (everywhere_array.1 made).2 helement hinner
    · rw [eq_of_checkElementSize_error hsize hempty]
      rfl
  | switch idSize idTag cases custom ih =>
    have hmade := (everywhere_switch.1 made).2
    rcases everywhere_switch.1 declared with ⟨⟨hcustom, hnamed⟩, hdeclared⟩
    unfold check at h
    rw [hcustom.check] at h
    simp only [Except.bind_error_iff] at h
    rcases h with hcases | ⟨_, _, ⟨⟩⟩
    rcases exists_of_checkCases_error hcases with ⟨c, hc, hnames | hfields | htag⟩
    · exact kind_of_checkNames (hnamed c hc).2 hnames
    · rcases exists_of_checkFields_error hfields with ⟨f, hf, hitem⟩
      exact ih c hc f hf (hmade c hc f hf) (hdeclared c hc f hf) hitem
    · rcases exists_encode_of_fits (hnamed c hc).1 (made.here.2.2.2 c hc).1 with ⟨tag, hok⟩
      rw [hok] at htag
      cases htag
  | record fields ih =>
    rcases everywhere_record.1 declared with ⟨hnamed, hdeclared⟩
    have hmade := (everywhere_record.1 made).2
    unfold check at h
    rcases Except.bind_error_iff.1 h with hnames | ⟨_, _, hfields⟩
    · exact kind_of_checkNames hnamed hnames
    · rcases exists_of_checkFields_error hfields with ⟨f, hf, hitem⟩
      exact ih f hf (hmade f hf) (hdeclared f hf) hitem
  | _ => exact declared.here.elim

/-- A description passes its check exactly if nothing in it has a defect. -/
theorem check_ok_iff_not_defective (made : l.Everywhere WellMade)
    (declared : l.Everywhere Declared) :
    l.check = .ok () ↔ ∀ p, l.HasPart p → ¬ p.Defective := by
  rw [check_ok_iff]
  exact forall₂_congr fun p hp => checked_iff (made.inside hp) (declared.inside hp)

end Layout

/-! ## Compiling -/

theorem Codec.ofLayout_of_check_error {l : Layout} {e : Error} (h : l.check = .error e) :
    ofLayout l = .error e := by
  have haccept : l.accept = .error e := Except.bind_error_iff.2 (.inl h)
  unfold ofLayout
  split
  · rename_i size hsize
    rw [haccept] at hsize
    cases hsize
  · rename_i e' he
    rw [haccept] at he
    cases he
    rfl

/-- What has its declared types can be looked up. -/
theorem Codec.lookUpForm_of_declared {l : Layout} (declared : l.settle.Everywhere Layout.Declared) :
    lookUpForm l = .ok l.settle := by
  have hkey : l.settle.isKey = true := Layout.isKey_of_declared declared
  have hform : (l.settle.isItem || l.settle.isRecord) = true := by
    have hproper := declared.here
    cases h : l.settle <;> rw [h] at hproper <;> first | rfl | exact hproper.elim
  unfold lookUpForm
  simp only [hform, hkey, if_true]

namespace Registry

variable {l : Layout} {c : Codec} {e : Error} {s : Registry}

theorem find?_of_no_codecs (hs : s.codecs = []) (l : Layout) : s.find? l = none := by
  rw [find?, hs, findFrom]

/-- Where nothing was compiled, what compiling comes to depends on the layout alone. -/
theorem compile_first_of_error (hs : s.codecs = []) (hform : Codec.lookUpForm l = .ok l.settle)
    (he : Codec.ofLayout l.settle = .error e) : compile l s = .error e s := by
  have hfind := find?_of_no_codecs hs l.settle
  simp only [compile, bind, EStateM.bind, compileAt, hform, hfind, he]

theorem compile_first_of_ok (hs : s.codecs = []) (hform : Codec.lookUpForm l = .ok l.settle)
    (hc : Codec.ofLayout l.settle = .ok c) :
    compile l s = if optionSpellable c.staticSize then .ok c (s.keep c)
      else .error (.misuse .wrongValue) (s.keep c) := by
  have hfind := find?_of_no_codecs hs l.settle
  simp only [compile, bind, EStateM.bind, compileAt, hform, hfind, hc, Codec.report]
  cases optionSpellable c.staticSize <;> rfl

/-- Where nothing was compiled, a layout with attributes of their declared types is refused as
faulty exactly if an item in it has a defect that the constructors leave to the compiler.  Without a
defect its codec has the size that it is measured with, and is returned unless that size cannot be
spelt. -/
theorem compile_exact (hs : s.codecs = []) (built : l.Built)
    (declared : l.settle.Everywhere Layout.Declared) :
    ((∃ e s', compile l s = .error e s' ∧ e.kind = .layoutDefinition) ↔
      ∃ p, l.settle.HasPart p ∧ p.Defective) ∧
    ((∀ p, l.settle.HasPart p → ¬ p.Defective) → ∃ c : Codec,
      c.layout = l.settle ∧ l.measure = .ok c.staticSize ∧
      (optionSpellable c.staticSize = true → compile l s = .ok c (s.keep c)) ∧
      (optionSpellable c.staticSize = false →
        compile l s = .error (.misuse .wrongValue) (s.keep c))) := by
  have made : l.settle.Everywhere Layout.WellMade :=
    Layout.everywhere_wellMade_settle built.everywhere_wellMade
  have hform := Codec.lookUpForm_of_declared declared
  have hcheck := Layout.check_ok_iff_not_defective made declared
  have haccepted : (∀ p, l.settle.HasPart p → ¬ p.Defective) →
      ∃ c, Codec.ofLayout l.settle = .ok c ∧ l.settle.staticSize = .ok c.staticSize := by
    intro hnone
    rcases Layout.exists_staticSize (declared.mono fun _ => Layout.proper_of_declared) with
      ⟨size, hsize⟩
    rcases Codec.exists_ofLayout (Except.seq_ok_iff.2 ⟨hcheck.2 hnone, hsize⟩) with ⟨c, hc, rfl⟩
    exact ⟨c, hc, hsize⟩
  constructor
  · constructor
    · rintro ⟨e, s', hfails, hkind⟩
      by_contra hnone
      rcases haccepted fun p hp hdefective => hnone ⟨p, hp, hdefective⟩ with ⟨c, hc, _⟩
      rw [compile_first_of_ok hs hform hc] at hfails
      split at hfails
      · cases hfails
      · cases hfails
        cases hkind
    · rintro ⟨p, hp, hdefective⟩
      cases h : l.settle.check with
      | ok _ => exact absurd hdefective (hcheck.1 h p hp)
      | error e =>
        have he := Codec.ofLayout_of_check_error h
        exact ⟨e, s, compile_first_of_error hs hform he, Layout.kind_of_check made declared h⟩
  · intro hnone
    rcases haccepted hnone with ⟨c, hc, hsize⟩
    have hcompile := compile_first_of_ok hs hform hc
    refine ⟨c, Codec.layout_of_ofLayout hc, hsize, fun hspelt => ?_, fun hunspelt => ?_⟩
    · rw [hcompile, if_pos hspelt]
    · rw [hcompile, if_neg (Bool.eq_false_iff.1 hunspelt)]

end Registry

/-! ## A layout with a defect and one without -/

/-- Records without fields, up to the end of the input. -/
def Layout.emptyRecords : Layout := .array .unframed (.record []) .plain

/-- An integer of two bytes. -/
def Layout.word : Layout := .uint 2 .plain .off

/-- The array would never come to its end; the integer is compiled with its size. -/
theorem Registry.compile_exact_word :
    (∃ e s, compile .emptyRecords empty = .error e s ∧ e.kind = .layoutDefinition) ∧
      ∃ c, compile .word empty = .ok c (empty.keep c) ∧ c.staticSize = some 2 := by
  constructor
  · have built : Layout.emptyRecords.Built :=
      @Layout.Built.array _ none none .none _ (@Layout.Built.tuple [] (by simp)) rfl
    have declared : Layout.emptyRecords.Everywhere Layout.Declared := by
      simp [Layout.emptyRecords, Layout.everywhere_array, Layout.everywhere_record,
        Layout.Declared, Layout.NamedByTexts, Custom.Suitable]
    exact (compile_exact (s := empty) rfl built declared).1.2 ⟨_, .self _, .plain 0, rfl, rfl⟩
  · have built : Layout.word.Built := @Layout.Built.uint 2 .none .off _ rfl
    have declared : Layout.word.Everywhere Layout.Declared := by
      simp [Layout.word, Layout.Declared, Custom.Suitable]
    have hsound : ∀ p, Layout.word.HasPart p → ¬ p.Defective := by
      rintro _ ⟨⟩ hdefective
      exact hdefective
    rcases (compile_exact (s := empty) rfl built declared).2 hsound with ⟨c, _, hsize, hspelt, _⟩
    have hsize : c.staticSize = some 2 := (Except.ok.inj hsize).symm
    exact ⟨c, hspelt (by rw [hsize]; exact optionSpellable_of_lt (n := 2) (by decide)), hsize⟩

/-! ## A size that cannot be spelt -/

/-- A size that can be spelt, while its square cannot. -/
def hugeSize : Nat := Nat.pow 10 2150

-- both are shown of all exponents, so that the power is never evaluated
theorem hugeSize_pos : 0 < hugeSize := by
  have hpos : ∀ n, 0 < Nat.pow 10 n := fun n => Nat.pow_pos (by decide)
  unfold hugeSize
  exact hpos 2150

theorem hugeSize_mul_self : hugeSize * hugeSize = unspeltFrom := by
  have hsquare : ∀ m n, m + m = n → Nat.pow 10 m * Nat.pow 10 m = Nat.pow 10 n := by
    rintro m _ rfl
    exact (Nat.pow_add 10 m m).symm
  have hdigits : 2150 + 2150 = digitLimit := rfl
  unfold hugeSize unspeltFrom
  rw [hsquare 2150 digitLimit hdigits]

/-- As many integers of a huge size. -/
def Layout.hugeArray : Layout :=
  .array (.fixed (.plain hugeSize)) (.uint (.plain hugeSize) .plain .off) .plain

theorem Layout.built_hugeArray : Layout.hugeArray.Built := by
  have hpos : ¬ (Numeral.plain hugeSize).value ≤ 0 := by
    have hsize := hugeSize_pos
    rw [Numeral.value_plain]
    omega
  have helement : uint? (.plain hugeSize) .none .off =
      .ok (.uint (.plain hugeSize) .plain .off) := by
    unfold uint?
    rw [if_neg hpos]
    rfl
  exact @Built.array _ (some (.plain hugeSize)) none .none _ (.uint helement) rfl

/-- Nothing is wrong with the array, but the line that reports its size cannot be written. -/
theorem Registry.compile_hugeArray :
    Layout.hugeArray.Built ∧ Layout.hugeArray.settle.Everywhere Layout.Declared ∧
      (∀ p, Layout.hugeArray.settle.HasPart p → ¬ p.Defective) ∧
      ∃ e s, compile .hugeArray empty = .error e s ∧ e.kind = .valueMisuse := by
  have declared : Layout.hugeArray.Everywhere Layout.Declared :=
    Layout.everywhere_array.2 ⟨trivial, Layout.everywhere_uint.2 ⟨trivial, nofun⟩⟩
  have hsound : ∀ p, Layout.hugeArray.HasPart p → ¬ p.Defective := by
    rintro _ (_ | _ | ⟨⟨⟩⟩) hdefective <;> exact hdefective
  have haccept : Layout.hugeArray.accept = .ok (some (.plain (hugeSize * hugeSize))) :=
    Except.seq_ok_iff.2 ⟨rfl, rfl⟩
  rcases Codec.exists_ofLayout haccept with ⟨c, hc, hsize⟩
  have hunspelt : optionSpellable c.staticSize = false := by
    rw [hsize, optionSpellable, Numeral.spellable, Numeral.value_plain, spellable,
      ← Int.natCast_mul, Int.natAbs_natCast, hugeSize_mul_self]
    exact decide_eq_false (Nat.lt_irrefl _)
  have hform := Codec.lookUpForm_of_declared (l := .hugeArray) declared
  have hcompile := compile_first_of_ok (s := empty) rfl hform hc
  rw [hunspelt] at hcompile
  exact ⟨Layout.built_hugeArray, declared, hsound, _, _, hcompile, rfl⟩

end WireLayout
