import WireLayout.Layout.Equality
import WireLayout.Proofs.Acceptance
import WireLayout.Proofs.Construction
import WireLayout.Proofs.Emission
import WireLayout.Proofs.Sameness

/-!
# Parameters — named integers with padding behind them

A slot is a record of integers, known by their names, and of bytes that are written as zeros and
skipped when reading.  What is written and read depends on the names and the sizes of the integers
only, not on how the description spells them.

* `PriceUpdate.HoldsParameters` — records of given names and sizes;
* `HoldsParameters.of_same` — a description that equals such a record is one;
* `HoldsParameters.fieldBytes_ok_iff` — the integers are written in the order of the fields,
  wherever they stand in a dictionary;
* `HoldsParameters.reads_iff` — they are read from that many bytes, whatever stands behind them;
* `PriceUpdate.entry?_readings` — each of them is found under its name.
-/

namespace WireLayout

open Piece

namespace PriceUpdate

/-- Integers with names and sizes, and zero bytes under a reserved name that are skipped. -/
inductive HoldsParameters (padding : Nat) : List (Label × Int) → List Field → Prop where
  | reserved {omission : Omission} (hon : omission.isOn = true) :
    HoldsParameters padding []
      [.mk "reserved" (.blob .unframed (.constant (List.replicate padding 0)) omission)]
  | integer {name : Label} {size : Numeral} {omission : Omission} {params : List (Label × Int)}
      {fields : List Field} (later : HoldsParameters padding params fields) :
    HoldsParameters padding ((name, size.value) :: params)
      (.mk name (.uint size .plain omission) :: fields)

theorem isOmitted_reserved {content : List UInt8} {omission : Omission}
    (hon : omission.isOn = true) :
    (Layout.blob .unframed (.constant content) omission).isOmitted = true := hon

variable {padding : Nat} {params : List (Label × Int)} {fields : List Field}

theorem HoldsParameters.nonNegative (h : HoldsParameters padding params fields)
    (sizes : ∀ p ∈ params, 0 ≤ p.2) : (Layout.record fields).Everywhere Layout.NonNegative := by
  refine Layout.everywhere_record.2 ⟨trivial, ?_⟩
  induction h with
  | reserved hon =>
    rw [List.forall_mem_singleton, Field.item, Layout.everywhere_blob]
    trivial
  | integer later ih =>
    rcases List.forall_mem_cons.1 sizes with ⟨hsize, hlater⟩
    refine List.forall_mem_cons.2 ⟨?_, ih hlater⟩
    rw [Field.item, Layout.everywhere_uint]
    exact hsize

/-! ## Equal descriptions -/

/-- A description that equals that of a plain integer is one of the same size. -/
theorem plain_uint_of_same {item : Layout} {size : Numeral} {omission : Omission}
    (h : item.same (.uint size .plain omission) = true) :
    ∃ n o, item = .uint n .plain o ∧ n.value = size.value := by
  cases item with
  | uint n custom o =>
    simp only [Layout.same, Bool.and_eq_true, Numeral.same_iff] at h
    rcases h with ⟨⟨hsize, hcustom⟩, _⟩
    cases custom with
    | plain => exact ⟨n, o, rfl, hsize⟩
    | _ => cases hcustom
  | _ => cases h

theorem isOn_of_same {o omission : Omission} (h : sameOption o omission = true)
    (hon : omission.isOn = true) : o.isOn = true := by
  cases omission with
  | none => cases hon
  | some n =>
    cases o with
    | none => cases h
    | some m =>
      have hvalue : m.value = n.value := Numeral.same_iff.1 h
      have hn : n.isOn = true := hon
      rw [Numeral.isOn, ← hvalue] at hn
      exact hn

/-- A description that equals that of omitted bytes, and passes its check, is one of them. -/
theorem reserved_of_same {item : Layout} {content : List UInt8} {omission : Omission}
    (h : item.same (.blob .unframed (.constant content) omission) = true)
    (hon : omission.isOn = true) (hchecked : item.Checked) :
    ∃ o, item = .blob .unframed (.constant content) o ∧ o.isOn = true := by
  cases item with
  | blob framing custom o =>
    simp only [Layout.same, Bool.and_eq_true] at h
    rcases h with ⟨⟨hframing, hcustom⟩, homission⟩
    cases framing with
    | unframed =>
      cases custom with
      -- of two constants equality compares the content
      | constant content' =>
        have hcontent : (content' == content) = true := hcustom
        rw [beq_iff_eq.1 hcontent]
        exact ⟨o, rfl, isOn_of_same homission hon⟩
      | unsuitable v => cases hchecked
      | _ => cases hcustom
    | _ => cases hframing
  | _ => cases h

/-- Fields that equal those of a record of parameters, and pass their check, hold the same
parameters. -/
theorem HoldsParameters.of_sameFields (h : HoldsParameters padding params fields)
    (texts : ∀ p ∈ params, ∃ s, p.1 = .text s) {found : List Field}
    (hsame : Layout.sameFields found fields = true) (hchecked : ∀ f ∈ found, f.item.Checked) :
    HoldsParameters padding params found := by
  induction h generalizing found with
  | @reserved omission hon =>
    rcases found with _ | ⟨⟨name, item⟩, _ | ⟨f, found⟩⟩
    · cases hsame
    · simp only [Layout.sameFields, Bool.and_eq_true, Label.same_text_iff] at hsame
      rcases hsame with ⟨⟨rfl, hitem⟩, _⟩
      rcases reserved_of_same hitem hon (hchecked (.mk "reserved" item) List.mem_cons_self) with
        ⟨o, rfl, ho⟩
      exact .reserved ho
    · simp [Layout.sameFields] at hsame
  | @integer name size omission params fields later ih =>
    rcases found with _ | ⟨⟨name', item⟩, found⟩
    · cases hsame
    · rcases List.forall_mem_cons.1 texts with ⟨⟨s, rfl⟩, htexts⟩
      simp only [Layout.sameFields, Bool.and_eq_true, Label.same_text_iff] at hsame
      rcases hsame with ⟨⟨rfl, hitem⟩, hlater⟩
      rcases plain_uint_of_same hitem with ⟨n, o, rfl, hsize⟩
      rw [← hsize]
      exact .integer (ih htexts hlater fun f hf => hchecked f (List.mem_cons_of_mem _ hf))

theorem HoldsParameters.of_same (h : HoldsParameters padding params fields)
    (texts : ∀ p ∈ params, ∃ s, p.1 = .text s) {l : Layout}
    (hsame : l.same (.record fields) = true) (hchecked : l.Everywhere Layout.Checked) :
    ∃ found, l = .record found ∧ HoldsParameters padding params found := by
  cases l with
  | record found =>
    exact ⟨found, rfl, h.of_sameFields texts hsame fun f hf =>
      ((Layout.everywhere_record.1 hchecked).2 f hf).here⟩
  | _ => cases hsame

/-! ## Writing -/

theorem input_plain_uint_ok_iff {size : Numeral} {omission : Omission} {name : Label}
    {entries : List (Label × Value)} {v : Value} :
    (Layout.uint size .plain omission).input name entries = .ok v ↔
      Value.entry? name entries = some v := by
  unfold Layout.input Layout.constancy
  cases Value.entry? name entries <;> simp

theorem bytesOf_plain_uint (size : Numeral) (omission : Omission) (v : Value) :
    Layout.bytesOf (.uint size .plain omission) v = Uint.encode v size := by
  have hplain : ∀ n, (Custom.plain : Custom Numeral) ≠ .constant n := fun n => nofun
  rw [Layout.bytesOf_uint hplain]
  rfl

/-- The bytes of the integer that a dictionary has under a name. -/
def WritesParameter (entries : List (Label × Value)) (param : Label × Int) (part : List UInt8) :
    Prop :=
  ∃ v, Value.entry? param.1 entries = some v ∧ Uint.encode v (.plain param.2) = .ok part

theorem HoldsParameters.fieldBytes_ok_iff (h : HoldsParameters padding params fields)
    {entries : List (Label × Value)} {b : List UInt8} :
    Layout.fieldBytes fields entries = .ok b ↔
      ∃ parts, List.Forall₂ (WritesParameter entries) params parts ∧
        b = parts.flatten ++ List.replicate padding 0 := by
  induction h generalizing b with
  | @reserved omission hon =>
    -- reserved bytes take no entry, so they are written for a missing value
    have hwritten : Layout.bytesOf
        (.blob .unframed (.constant (List.replicate padding 0)) omission) .none =
          .ok (List.replicate padding 0) := Layout.bytesOf_blob_constant_ok_iff.2 ⟨rfl, .inl rfl⟩
    rw [Layout.fieldBytes_cons, Layout.input_of_isOmitted (isOmitted_reserved hon), Except.ok_bind,
      hwritten, Except.ok_bind, Layout.fieldBytes_nil, Except.ok_bind, List.append_nil,
      Except.pure_ok_iff]
    constructor
    · rintro rfl
      exact ⟨[], .nil, rfl⟩
    · rintro ⟨_, ⟨⟩, rfl⟩
      rfl
  | @integer name size omission params fields later ih =>
    have hencode : ∀ v part, Uint.encode v size = .ok part ↔
        Uint.encode v (.plain size.value) = .ok part :=
      fun v part => Uint.encode_ok_congr (Numeral.value_plain size.value).symm
    simp only [Layout.fieldBytes_cons_ok_iff, input_plain_uint_ok_iff, bytesOf_plain_uint, hencode,
      ih]
    constructor
    · rintro ⟨v, part, _, hv, hpart, ⟨parts, hparts, rfl⟩, rfl⟩
      exact ⟨part :: parts, .cons ⟨v, hv, hpart⟩ hparts, by simp⟩
    · rintro ⟨_, _ | ⟨⟨v, hv, hpart⟩, hparts⟩, rfl⟩
      exact ⟨v, _, _, hv, hpart, ⟨_, hparts, rfl⟩, by simp⟩

/-! ## Reading -/

/-- The integers that bytes denote, under their names. -/
def readings (params : List (Label × Int)) (parts : List (List UInt8)) : List (Label × Value) :=
  List.zipWith (fun p part => (p.1, .int (BigEndian.decode part))) params parts

/-- Bytes of the size of a parameter. -/
def Measures (param : Label × Int) (part : List UInt8) : Prop := (part.length : Int) = param.2

theorem HoldsParameters.reads_iff (h : HoldsParameters padding params fields)
    {content rest : List UInt8} {entries : List (Label × Value)} :
    (∃ ps, source ps = content ∧ Layout.ReadsFields fields ps rest entries) ↔
      ∃ parts tail, content = parts.flatten ++ tail ∧ tail.length = padding ∧
        List.Forall₂ Measures params parts ∧ entries = readings params parts := by
  induction h generalizing content entries with
  | @reserved omission hon =>
    constructor
    · rintro ⟨_, rfl, p, _, v, _, rfl, hreserved, ⟨rfl, rfl⟩, rfl⟩
      -- any bytes of the right number are skipped
      rw [Layout.Reads, ReadsConstant, if_pos hon] at hreserved
      rcases hreserved with ⟨tail, htail, rfl, rfl⟩
      rw [List.length_replicate] at htail
      refine ⟨[], tail, by simp [skipped], htail, .nil, ?_⟩
      rw [if_pos (isOmitted_reserved hon)]
      rfl
    · rintro ⟨_, tail, rfl, htail, ⟨⟩, rfl⟩
      have hlength : tail.length = (List.replicate padding (0 : UInt8)).length := by
        rw [htail, List.length_replicate]
      refine ⟨[skipped _ tail hlength], by simp [skipped], [skipped _ tail hlength], [], .none, [],
        rfl, ?_, ⟨rfl, rfl⟩, ?_⟩
      · rw [Layout.Reads, ReadsConstant, if_pos hon]
        exact ⟨tail, hlength, rfl, rfl⟩
      · rw [if_pos (isOmitted_reserved hon)]
        rfl
  | @integer name size omission params fields later ih =>
    constructor
    · rintro ⟨_, rfl, _, q, _, more, rfl, ⟨part, rfl, hpart, ⟨⟩⟩, hq, rfl⟩
      rcases ih.1 ⟨q, rfl, hq⟩ with ⟨parts, tail, hcontent, htail, hparts, rfl⟩
      exact ⟨part :: parts, tail, by simp [hcontent], htail, .cons hpart hparts, rfl⟩
    · rintro ⟨_, tail, rfl, htail, _ | ⟨hpart, hparts⟩, rfl⟩
      rcases ih.2 ⟨_, tail, rfl, htail, hparts, rfl⟩ with ⟨q, hsource, hq⟩
      exact ⟨plain _ :: q, by simp [hsource], [plain _], q, _, _, rfl, ⟨_, rfl, hpart, rfl⟩, hq,
        rfl⟩

/-! ## Looking up -/

/-- An integer is found under its name, if no other has the same name. -/
theorem entry?_readings (names : (params.map Prod.fst).Pairwise fun a b => a.same b = false)
    {parts : List (List UInt8)} {p : Label × Int} {part : List UInt8}
    (h : (p, part) ∈ params.zip parts) :
    Value.entry? p.1 (readings params parts) = some (.int (BigEndian.decode part)) := by
  induction params generalizing parts with
  | nil => cases h
  | cons q params ih =>
    cases parts with
    | nil => cases h
    | cons first parts =>
      rw [List.map_cons, List.pairwise_cons] at names
      rcases List.mem_cons.1 h with heq | hlater
      · cases heq
        exact Value.entry?_cons_self _ _ _
      · have hother : ∀ e ∈ [(q.1, Value.int (BigEndian.decode first))], e.1.same p.1 = false := by
          rw [List.forall_mem_singleton]
          exact names.1 _ (List.mem_map_of_mem (List.of_mem_zip hlater).1)
        exact (Value.entry?_append hother _).trans (ih names.2 hlater)

theorem length_readings {R : Label × Int → List UInt8 → Prop} {parts : List (List UInt8)}
    (h : List.Forall₂ R params parts) : (readings params parts).length = params.length := by
  rw [readings, List.length_zipWith, h.length_eq, Nat.min_self]

/-- Every name has its bytes. -/
theorem exists_part {R : Label × Int → List UInt8 → Prop} {parts : List (List UInt8)}
    (h : List.Forall₂ R params parts) {name : Label} (hname : name ∈ params.map Prod.fst) :
    ∃ p part, p.1 = name ∧ (p, part) ∈ params.zip parts ∧ R p part := by
  induction h with
  | nil => cases hname
  | @cons p part params parts hfirst _ ih =>
    rcases List.mem_cons.1 hname with rfl | hname
    · exact ⟨p, part, rfl, List.mem_cons_self, hfirst⟩
    · rcases ih hname with ⟨q, later, hq, hmem, hlater⟩
      exact ⟨q, later, hq, List.mem_cons_of_mem _ hmem, hlater⟩

/-- The parameter with its bytes as an entry of a dictionary. -/
def ReadsParameter (entries : List (Label × Value)) (param : Label × Int) (part : List UInt8) :
    Prop :=
  Value.entry? param.1 entries = some (.int (BigEndian.decode part)) ∧ Measures param part

/-- The number of bytes that all parameters take. -/
def totalSize : List (Label × Int) → Int
  | [] => 0
  | p :: params => p.2 + totalSize params

theorem length_flatten_of_measures {parts : List (List UInt8)}
    (h : List.Forall₂ Measures params parts) :
    (parts.flatten.length : Int) = totalSize params := by
  induction h with
  | nil => rfl
  | cons hfirst _ ih =>
    rw [List.flatten_cons, List.length_append, totalSize, ← ih, ← hfirst]
    exact Int.natCast_add _ _

end PriceUpdate
end WireLayout
