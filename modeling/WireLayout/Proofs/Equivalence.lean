import WireLayout.Proofs.Construction
import WireLayout.Proofs.Sameness

/-!
# Equivalence — equality of layouts that pass their check

Equality of layouts compares attributes by meaning, and any value may stand in the place of a
constant.  Among all objects it is no equivalence relation; seen from a layout that passes its
check, it is one.

* `Value.whole?`, `Value.content?` — what constants are compared by;
* `Layout.same_self` — a checked layout equals itself;
* `Layout.same_eq_of_same` — a layout that equals a checked one equals the same layouts as that.
-/

namespace WireLayout

/-! ## Constants -/

/-- Floats that are integers are equal as integers. -/
theorem Decimal.same_of_integer? {x : Decimal} {k : Int} (h : x.integer? = some k) (y : Decimal) :
    x.same y = (y.integer? == some k) := by
  unfold same
  rw [h]
  by_cases htext : x.text = y.text
  · have hy : y.integer? = some k := by
      rw [← h, integer?, integer?, htext]
    simp [hy]
  · have hbeq : (x.text == y.text) = false := by simpa using htext
    simp [hbeq, eq_comm]

namespace Value

/-- The integer that a value equals, if there is one. -/
def whole? : Value → Option Int
  | .float x => x.integer?
  | v => v.numeral?.map Numeral.value

/-- The bytes that a value consists of, if it is a block. -/
def content? : Value → Option (List UInt8)
  | .bytes _ content => some content
  | _ => Option.none

variable {v : Value}

@[simp] theorem whole?_ofNumeral (n : Numeral) : (ofNumeral n).whole? = some n.value := by
  cases n <;> rfl

/-- What equals an integer equals all that equals this integer. -/
theorem same_of_whole? {k : Int} (h : v.whole? = some k) (w : Value) :
    v.same w = (w.whole? == some k) := by
  cases v with
  | int n | bool b | chain c =>
    cases h
    cases w <;> simp [same, sameAtom, numeral?, whole?, Numeral.same, eq_comm]
  | float x =>
    have hx : x.integer? = some k := h
    cases w <;> simp [same, sameAtom, numeral?, whole?, hx, Decimal.same_of_integer? hx, eq_comm]
  | _ => cases h

theorem same_of_content? {content : List UInt8} (h : v.content? = some content) (w : Value) :
    v.same w = (w.content? == some content) := by
  cases v with
  | bytes form _ =>
    cases h
    cases w <;> simp [same, sameAtom, numeral?, content?, eq_comm]
  | _ => cases h

theorem same_eq_of_ofNumeral {n : Numeral} (h : (ofNumeral n).same v = true) (w : Value) :
    (ofNumeral n).same w = v.same w := by
  have hn := same_of_whole? (whole?_ofNumeral n)
  rw [hn, beq_iff_eq] at h
  rw [hn, same_of_whole? h]

theorem same_eq_of_raw {content : List UInt8} (h : (raw content).same v = true) (w : Value) :
    (raw content).same w = v.same w := by
  have hcontent := same_of_content? (v := raw content) rfl
  rw [hcontent, beq_iff_eq] at h
  rw [hcontent, same_of_content? h]

end Value

/-! ## Attributes -/

theorem Numeral.same_eq_of_same {a b : Numeral} (h : a.same b = true) (n : Numeral) :
    a.same n = b.same n := by
  rw [Numeral.same_iff] at h
  rw [Numeral.same, Numeral.same, h]

theorem Label.same_eq_of_same {a b : Label} (h : a.same b = true) (l : Label) :
    a.same l = b.same l := by
  rw [Label.same_iff] at h
  rw [Label.same, Label.same, h]

theorem sameOption_eq_of_same {a b : Option Numeral} (h : sameOption a b = true)
    (n : Option Numeral) : sameOption a n = sameOption b n := by
  cases a <;> cases b <;> cases n <;> simp_all [sameOption, Numeral.same]

theorem sameOption_self (a : Option Numeral) : sameOption a a = true := by
  cases a <;> simp [sameOption]

namespace Framing

theorem same_eq_of_same {a b : Framing} (h : a.same b = true) (f : Framing) :
    a.same f = b.same f := by
  cases a <;> cases b <;> cases f <;> simp_all [same, Numeral.same]

theorem same_self (a : Framing) : a.same a = true := by
  cases a <;> simp [same]

end Framing

namespace Custom

variable {α : Type} {spell : α → Value} {a b : Custom α}

theorem same_self (hspell : ∀ x, (spell x).same (spell x) = true) (hcheck : a.check = .ok ()) :
    a.same spell a = true := by
  cases a with
  | plain => rfl
  | converted c => exact beq_self_eq_true c.id
  | constant x => exact hspell x
  | unsuitable v => cases hcheck

/-- An attribute that equals a checked one equals the same attributes as that does. -/
theorem same_eq_of_same
    (hspell : ∀ x v, (spell x).same v = true → ∀ w, (spell x).same w = v.same w)
    (hcheck : a.check = .ok ()) (h : a.same spell b = true) (d : Custom α) :
    a.same spell d = b.same spell d := by
  cases a with
  | plain =>
    cases b with
    | plain => rfl
    | _ => cases h
  | converted c =>
    cases b with
    | converted c' =>
      have hid : c.id = c'.id := beq_iff_eq.1 h
      cases d <;> simp [same, Conversion.same, hid]
    | _ => cases h
  | constant x =>
    cases b with
    | constant y =>
      cases d with
      | constant z => exact hspell x (spell y) h (spell z)
      | unsuitable w => exact hspell x (spell y) h w
      | _ => rfl
    | unsuitable v =>
      cases d with
      | constant z => exact hspell x v h (spell z)
      | unsuitable w => exact hspell x v h w
      | _ => rfl
    | _ => cases h
  | unsuitable v => cases hcheck

end Custom

/-! ## Layouts -/

namespace Layout

theorem sameFields_self {fields : List Field} (h : ∀ f ∈ fields, f.item.same f.item = true) :
    sameFields fields fields = true := by
  induction fields with
  | nil => rfl
  | cons f fields ih =>
    rcases f with ⟨name, item⟩
    rcases List.forall_mem_cons.1 h with ⟨hitem, hfields⟩
    simp only [Field.item] at hitem
    simp [sameFields, hitem, ih hfields]

theorem sameCases_self {cases : List Case}
    (h : ∀ c ∈ cases, ∀ f ∈ c.fields, f.item.same f.item = true) :
    sameCases cases cases = true := by
  induction cases with
  | nil => rfl
  | cons c cases ih =>
    rcases c with ⟨id, name, fields⟩
    rcases List.forall_mem_cons.1 h with ⟨hfields, hcases⟩
    have hparts : sameFields fields fields = true := sameFields_self hfields
    simp [sameCases, hparts, ih hcases]

/-- A checked layout equals itself. -/
theorem same_self {l : Layout} (checked : l.Everywhere Checked) : l.same l = true := by
  induction l with
  | uint size custom omission =>
    have hcustom : custom.same Value.ofNumeral custom = true :=
      Custom.same_self (fun n => by simp [Value.same_ofNumeral])
        (check_of_checkUintCustom checked.here)
    simp [same, hcustom, sameOption_self]
  | blob framing custom omission =>
    have hcustom := Custom.same_self Value.same_raw checked.here
    simp [same, hcustom, sameOption_self, Framing.same_self]
  | nested framing inner custom omission ih =>
    rcases everywhere_nested.1 checked with ⟨hcheck, hinner⟩
    have hcustom : custom.same Empty.elim custom = true := Custom.same_self nofun hcheck
    simp [same, hcustom, sameOption_self, Framing.same_self, ih hinner]
  | array framing element custom ih =>
    rcases everywhere_array.1 checked with ⟨hcheck, helement⟩
    have hcustom : custom.same Empty.elim custom = true := Custom.same_self nofun hcheck.2
    simp [same, hcustom, Framing.same_self, ih helement]
  | switch idSize idTag cases custom ih =>
    rcases everywhere_switch.1 checked with ⟨hcheck, hparts⟩
    have hcustom : custom.same Empty.elim custom = true := Custom.same_self nofun hcheck.2
    have hcases := sameCases_self fun c hc f hf => ih c hc f hf (hparts c hc f hf)
    simp [same, hcustom, hcases]
  | record fields ih =>
    have hparts := (everywhere_record.1 checked).2
    exact sameFields_self fun f hf => ih f hf (hparts f hf)
  -- what is no item and no record was not checked
  | _ => exact checked.here.elim

theorem sameFields_eq_of_same {fields others : List Field}
    (ih : ∀ f ∈ fields, ∀ m, f.item.same m = true → ∀ l, f.item.same l = m.same l)
    (h : sameFields fields others = true) (third : List Field) :
    sameFields fields third = sameFields others third := by
  induction fields generalizing others third with
  | nil =>
    cases others with
    | nil => rfl
    | cons g others => cases h
  | cons f fields ihfields =>
    rcases f with ⟨name, item⟩
    cases others with
    | nil => cases h
    | cons g others =>
      rcases g with ⟨name', item'⟩
      rcases List.forall_mem_cons.1 ih with ⟨hitem, hfields⟩
      simp only [sameFields, Bool.and_eq_true] at h
      rcases h with ⟨⟨hname, hsame⟩, hrest⟩
      cases third with
      | nil => rfl
      | cons e third =>
        rcases e with ⟨name'', item''⟩
        have hnames := Label.same_eq_of_same hname name''
        have hitems : item.same item'' = item'.same item'' := hitem item' hsame item''
        simp only [sameFields, hnames, hitems, ihfields hfields hrest third]

theorem sameCases_eq_of_same {cases others : List Case}
    (ih : ∀ c ∈ cases, ∀ f ∈ c.fields, ∀ m, f.item.same m = true → ∀ l, f.item.same l = m.same l)
    (h : sameCases cases others = true) (third : List Case) :
    sameCases cases third = sameCases others third := by
  induction cases generalizing others third with
  | nil =>
    cases others with
    | nil => rfl
    | cons g others => cases h
  | cons c cases ihcases =>
    rcases c with ⟨id, name, fields⟩
    cases others with
    | nil => cases h
    | cons g others =>
      rcases g with ⟨id', name', fields'⟩
      rcases List.forall_mem_cons.1 ih with ⟨hfields, hcases⟩
      simp only [sameCases, Bool.and_eq_true] at h
      rcases h with ⟨⟨⟨hid, hname⟩, hsame⟩, hrest⟩
      cases third with
      | nil => rfl
      | cons e third =>
        rcases e with ⟨id'', name'', fields''⟩
        have hids := Numeral.same_eq_of_same hid id''
        have hnames := Label.same_eq_of_same hname name''
        have hparts : sameFields fields fields'' = sameFields fields' fields'' :=
          sameFields_eq_of_same hfields hsame fields''
        simp only [sameCases, hids, hnames, hparts, ihcases hcases hrest third]

/-- A layout that equals a checked one equals the same layouts as that does. -/
theorem same_eq_of_same {l m : Layout} (checked : l.Everywhere Checked) (h : l.same m = true)
    (third : Layout) : l.same third = m.same third := by
  -- on the checked layout, since the other two may be any objects
  induction l generalizing m third with
  | uint size custom omission =>
    cases m with
    | uint size' custom' omission' =>
      simp only [same, Bool.and_eq_true] at h
      rcases h with ⟨⟨hsize, hcustom⟩, homission⟩
      have hcustoms := Custom.same_eq_of_same (fun n v hv w => Value.same_eq_of_ofNumeral hv w)
        (check_of_checkUintCustom checked.here) hcustom
      cases third with
      | uint size'' custom'' omission'' =>
        simp only [same, Numeral.same_eq_of_same hsize, hcustoms, sameOption_eq_of_same homission]
      | _ => rfl
    | _ => cases h
  | blob framing custom omission =>
    cases m with
    | blob framing' custom' omission' =>
      simp only [same, Bool.and_eq_true] at h
      rcases h with ⟨⟨hframing, hcustom⟩, homission⟩
      have hcustoms := Custom.same_eq_of_same (fun bs v hv w => Value.same_eq_of_raw hv w)
        checked.here hcustom
      cases third with
      | blob framing'' custom'' omission'' =>
        simp only [same, Framing.same_eq_of_same hframing, hcustoms,
          sameOption_eq_of_same homission]
      | _ => rfl
    | _ => cases h
  | nested framing inner custom omission ih =>
    cases m with
    | nested framing' inner' custom' omission' =>
      rcases everywhere_nested.1 checked with ⟨hcheck, hchecked⟩
      simp only [same, Bool.and_eq_true] at h
      rcases h with ⟨⟨⟨hframing, hinner⟩, hcustom⟩, homission⟩
      have hcustoms := Custom.same_eq_of_same (fun x => x.elim) hcheck hcustom
      cases third with
      | nested framing'' inner'' custom'' omission'' =>
        simp only [same, Framing.same_eq_of_same hframing, hcustoms, ih hchecked hinner,
          sameOption_eq_of_same homission]
      | _ => rfl
    | _ => cases h
  | array framing element custom ih =>
    cases m with
    | array framing' element' custom' =>
      rcases everywhere_array.1 checked with ⟨hcheck, hchecked⟩
      simp only [same, Bool.and_eq_true] at h
      rcases h with ⟨⟨hframing, helement⟩, hcustom⟩
      have hcustoms := Custom.same_eq_of_same (fun x => x.elim) hcheck.2 hcustom
      cases third with
      | array framing'' element'' custom'' =>
        simp only [same, Framing.same_eq_of_same hframing, hcustoms, ih hchecked helement]
      | _ => rfl
    | _ => cases h
  | switch idSize idTag cases custom ih =>
    cases m with
    | switch idSize' idTag' cases' custom' =>
      rcases everywhere_switch.1 checked with ⟨hcheck, hchecked⟩
      simp only [same, Bool.and_eq_true] at h
      rcases h with ⟨⟨⟨hsize, hsame⟩, htag⟩, hcustom⟩
      have hcustoms := Custom.same_eq_of_same (fun x => x.elim) hcheck.2 hcustom
      have hcases := sameCases_eq_of_same
        (fun c hc f hf m hm l => ih c hc f hf (hchecked c hc f hf) hm l) hsame
      cases third with
      | switch idSize'' idTag'' cases'' custom'' =>
        simp only [same, Numeral.same_eq_of_same hsize, hcustoms, hcases,
          Label.same_eq_of_same htag]
      | _ => rfl
    | _ => cases h
  | record fields ih =>
    cases m with
    | record fields' =>
      have hchecked := (everywhere_record.1 checked).2
      have hfields := sameFields_eq_of_same
        (fun f hf m hm l => ih f hf (hchecked f hf) hm l) h
      cases third with
      | record fields'' => exact hfields fields''
      | _ => rfl
    | _ => cases h
  -- what is no item and no record was not checked
  | _ => exact checked.here.elim

end Layout

/-! ## Codecs -/

namespace Codec

variable {c d : Codec} {l : Layout}

theorem same_self (c : Codec) : c.layout.same c.layout = true :=
  Layout.same_self c.everywhere_checked

theorem same_eq_of_same (h : c.layout.same l = true) (m : Layout) :
    c.layout.same m = l.same m :=
  Layout.same_eq_of_same c.everywhere_checked h m

/-- Codecs of one layout are codecs of equal layouts. -/
theorem same_of_same (hc : c.layout.same l = true) (hd : d.layout.same l = true) :
    c.layout.same d.layout = true := by
  rw [same_eq_of_same hc, ← same_eq_of_same hd, same_self]

end Codec

end WireLayout
