import WireLayout.Proofs.Refusal

/-!
# Restating — one value in several forms

What is written does not depend on how a value is held: on the order of the entries of a dictionary,
on entries that nothing asks for, on whether a constant is given that would be written anyway, on
lists in the place of tuples, and on the kind of block that holds bytes.

* `Value.SameBlock` — the same bytes, however they are held;
* `EntryRestated` — what two dictionaries may hold under the name of one field;
* `Layout.Restates` — two values that differ in such ways only, at any depth;
* `Layout.restates_dict`, `Layout.restates_tagged_dict` — dictionaries that agree on what is asked
  for restate each other;
* `Layout.restates_of_perm` — they do when only the order of their entries differs;
* `Codec.encode_restates` — a value is written as its restatements are.

A switch and the record of its case share one dictionary, so the tag of the switch is asked for
there besides the fields of the record.
-/

namespace WireLayout

/-! ## Values that restate each other -/

/-- The same bytes, however they are held. -/
def Value.SameBlock (v w : Value) : Prop :=
  ∃ form form' content, v = .bytes form content ∧ w = .bytes form' content

/-- The constant that an item writes, as a value. -/
def Layout.constant? : Layout → Option Value
  | .uint _ (.constant n) _ => some (.ofNumeral n)
  | .blob _ (.constant content) _ => some (.raw content)
  | _ => none

/-- What two dictionaries may hold under the name of one field. -/
inductive EntryRestated (item : Layout) (R : Value → Value → Prop) :
    Option Value → Option Value → Prop where
  /-- Nothing is asked for. -/
  | omitted {o o' : Option Value} : item.isOmitted = true → EntryRestated item R o o'
  /-- Both have no entry. -/
  | absent : EntryRestated item R none none
  /-- Both have one, in forms of the same value. -/
  | given {v w : Value} : R v w → EntryRestated item R (some v) (some w)
  /-- Each leaves the constant out or gives a value that equals it. -/
  | constant {o o' : Option Value} {k : Value} : item.constant? = some k →
      (∀ v, o = some v → v.same k = true) → (∀ w, o' = some w → w.same k = true) →
        EntryRestated item R o o'

theorem EntryRestated.symm {item : Layout} {R : Value → Value → Prop} {o o' : Option Value}
    (h : EntryRestated item R o o') (hR : ∀ v w, R v w → R w v) : EntryRestated item R o' o := by
  cases h with
  | omitted homitted => exact .omitted homitted
  | absent => exact .absent
  | given hvw => exact .given (hR _ _ hvw)
  | constant hk hv hw => exact .constant hk hw hv

namespace Layout

mutual

/-- Two values for a layout differ in their form only. -/
def Restates : Layout → Value → Value → Prop
  | .blob _ _ _, v, w => v = w ∨ v.SameBlock w
  | .nested _ inner _ _, v, w => Restates inner v w
  | .array _ element _, v, w =>
    v = w ∨ ∃ items items', arrayItems v = .ok items ∧ arrayItems w = .ok items' ∧
      List.Forall₂ (Restates element) items items'
  | .switch _ idTag cases _, v, w =>
    v = w ∨ ∃ es fs, v = .dict es ∧ w = .dict fs ∧
      Value.entry? idTag es = Value.entry? idTag fs ∧
      ∀ name, Value.entry? idTag es = some name → RestatesCase cases name es fs
  | .record fields, v, w =>
    v = w ∨ ∃ es fs, v = .dict es ∧ w = .dict fs ∧ RestatesFields fields es fs
  | _, v, w => v = w
termination_by structural l => l

/-- Two dictionaries hold the same under the names of all fields. -/
def RestatesFields : List Field → (es fs : List (Label × Value)) → Prop
  | [], _, _ => True
  | .mk name item :: rest, es, fs =>
    EntryRestated item (Restates item) (Value.entry? name es) (Value.entry? name fs) ∧
      RestatesFields rest es fs
termination_by structural fields => fields

/-- Two dictionaries hold the same under the names of the fields of the case with a given name. -/
def RestatesCase : List Case → (name : Value) → (es fs : List (Label × Value)) → Prop
  | [], _, _, _ => True
  | .mk _ caseName fields :: rest, name, es, fs =>
    if name.same (.ofLabel caseName) then RestatesFields fields es fs
    else RestatesCase rest name es fs
termination_by structural cases => cases

end

variable {item l : Layout} {name : Label} {es fs : List (Label × Value)} {v w : Value}
  {b : List UInt8}

/-! ## The relation goes both ways -/

theorem RestatesFields.symm {fields : List Field}
    (h : ∀ f ∈ fields, ∀ v w, f.item.Restates v w → f.item.Restates w v)
    (hfields : RestatesFields fields es fs) : RestatesFields fields fs es := by
  induction fields with
  | nil => trivial
  | cons f fields ih =>
    rcases f with ⟨name, item⟩
    rcases List.forall_mem_cons.1 h with ⟨hitem, hlater⟩
    exact ⟨hfields.1.symm hitem, ih hlater hfields.2⟩

theorem RestatesCase.symm {cases : List Case} {tag : Value}
    (h : ∀ c ∈ cases, ∀ f ∈ c.fields, ∀ v w, f.item.Restates v w → f.item.Restates w v)
    (hcase : RestatesCase cases tag es fs) : RestatesCase cases tag fs es := by
  induction cases with
  | nil => trivial
  | cons c cases ih =>
    rcases c with ⟨id, caseName, fields⟩
    rcases List.forall_mem_cons.1 h with ⟨hfields, hlater⟩
    unfold RestatesCase at hcase ⊢
    split
    · rename_i hname
      rw [if_pos hname] at hcase
      exact hcase.symm hfields
    · rename_i hname
      rw [if_neg hname] at hcase
      exact ih hlater hcase

theorem Restates.symm (h : l.Restates v w) : l.Restates w v := by
  induction l generalizing v w with
  | blob framing custom omission =>
    rcases h with rfl | ⟨form, form', content, rfl, rfl⟩
    · exact .inl rfl
    · exact .inr ⟨form', form, content, rfl, rfl⟩
  | nested framing inner custom omission ih => exact ih h
  | array framing element custom ih =>
    rcases h with rfl | ⟨items, items', hv, hw, heach⟩
    · exact .inl rfl
    · exact .inr ⟨items', items, hw, hv, (heach.imp fun _ _ => ih).flip⟩
  | switch idSize idTag cases custom ih =>
    rcases h with rfl | ⟨es, fs, rfl, rfl, htag, hcase⟩
    · exact .inl rfl
    · refine .inr ⟨fs, es, rfl, rfl, htag.symm, fun name hname => ?_⟩
      exact (hcase name (htag.trans hname)).symm fun c hc f hf _ _ => ih c hc f hf
  | record fields ih =>
    rcases h with rfl | ⟨es, fs, rfl, rfl, hfields⟩
    · exact .inl rfl
    · exact .inr ⟨fs, es, rfl, rfl, hfields.symm fun f hf _ _ => ih f hf⟩
  | _ => exact Eq.symm h

/-! ## What is written -/

/-- A constant is written for every value that equals it, and for none. -/
theorem bytesOf_of_constant {k : Value} (hk : item.constant? = some k) (hv : item.bytesOf v = .ok b)
    (hw : w = .none ∨ w.same k = true) : item.bytesOf w = .ok b := by
  cases item with
  | uint size custom omission =>
    cases custom with
    | constant n =>
      cases hk
      exact bytesOf_uint_constant_ok_iff.2 ⟨(bytesOf_uint_constant_ok_iff.1 hv).1, hw⟩
    | _ => cases hk
  | blob framing custom omission =>
    cases custom with
    | constant content =>
      cases hk
      exact bytesOf_blob_constant_ok_iff.2 ⟨(bytesOf_blob_constant_ok_iff.1 hv).1, hw⟩
    | _ => cases hk
  | _ => cases hk

/-- A field that carries a constant takes nothing, or the value that is given for it. -/
theorem input_of_constant {k : Value} (hk : item.constant? = some k) (name : Label)
    (es : List (Label × Value)) :
    ∃ x, item.input name es = .ok x ∧ (x = .none ∨ Value.entry? name es = some x) := by
  have hconstancy : ∃ omitted, item.constancy = some omitted := by
    cases item with
    | uint size custom omission => cases custom <;> first | exact ⟨_, rfl⟩ | cases hk
    | blob framing custom omission => cases custom <;> first | exact ⟨_, rfl⟩ | cases hk
    | _ => cases hk
  rcases hconstancy with ⟨omitted, hconstancy⟩
  unfold input
  rw [hconstancy]
  cases omitted <;> cases Value.entry? name es <;> simp

/-- What one dictionary gives for a field, the other gives in another form. -/
theorem bytesOf_restated_entry
    (hitem : ∀ v w b, item.Restates v w → item.bytesOf v = .ok b → item.bytesOf w = .ok b)
    (h : EntryRestated item item.Restates (Value.entry? name es) (Value.entry? name fs))
    {x : Value} (hx : item.input name es = .ok x) (hb : item.bytesOf x = .ok b) :
    ∃ y, item.input name fs = .ok y ∧ item.bytesOf y = .ok b := by
  generalize ho : Value.entry? name es = o at h
  generalize ho' : Value.entry? name fs = o' at h
  cases h with
  | omitted homitted =>
    rw [input_of_isOmitted homitted] at hx
    cases hx
    exact ⟨.none, input_of_isOmitted homitted name fs, hb⟩
  | absent =>
    refine ⟨x, ?_, hb⟩
    rw [← hx, input, input, ho, ho']
  | @given v w hvw =>
    by_cases homitted : item.isOmitted = true
    · rw [input_of_isOmitted homitted] at hx
      cases hx
      exact ⟨.none, input_of_isOmitted homitted name fs, hb⟩
    · have hkept := Bool.eq_false_iff.2 homitted
      rw [input_of_entry hkept ho] at hx
      cases hx
      exact ⟨w, input_of_entry hkept ho', hitem _ _ _ hvw hb⟩
  | constant hk hv hw =>
    rcases input_of_constant hk name fs with ⟨y, hy, hnone | hentry⟩
    · exact ⟨y, hy, bytesOf_of_constant hk hb (.inl hnone)⟩
    · rw [ho'] at hentry
      exact ⟨y, hy, bytesOf_of_constant hk hb (.inr (hw y hentry))⟩

theorem fieldBytes_restated {fields : List Field}
    (h : ∀ f ∈ fields, ∀ v w b, f.item.Restates v w → f.item.bytesOf v = .ok b →
      f.item.bytesOf w = .ok b)
    (hfields : RestatesFields fields es fs) (hb : fieldBytes fields es = .ok b) :
    fieldBytes fields fs = .ok b := by
  induction fields generalizing b with
  | nil => exact hb
  | cons f fields ih =>
    rcases f with ⟨name, item⟩
    rcases List.forall_mem_cons.1 h with ⟨hitem, hlater⟩
    rcases fieldBytes_cons_ok_iff.1 hb with ⟨x, first, later, hx, hfirst, hrest, rfl⟩
    rcases bytesOf_restated_entry hitem hfields.1 hx hfirst with ⟨y, hy, hfirst⟩
    exact fieldBytes_cons_ok_iff.2 ⟨y, first, later, hy, hfirst, ih hlater hfields.2 hrest, rfl⟩

theorem caseBytes_restated {idSize : Numeral} {cases : List Case} {tag : Value}
    (h : ∀ c ∈ cases, ∀ f ∈ c.fields, ∀ v w b, f.item.Restates v w → f.item.bytesOf v = .ok b →
      f.item.bytesOf w = .ok b)
    (hcase : RestatesCase cases tag es fs) (hb : caseBytes idSize cases tag (.dict es) = .ok b) :
    caseBytes idSize cases tag (.dict fs) = .ok b := by
  induction cases with
  | nil => cases hb
  | cons c cases ih =>
    rcases c with ⟨id, caseName, fields⟩
    rcases List.forall_mem_cons.1 h with ⟨hfields, hlater⟩
    rw [caseBytes_cons] at hb ⊢
    unfold RestatesCase at hcase
    by_cases hname : tag.same (.ofLabel caseName) = true
    · rw [if_pos hname] at hb hcase ⊢
      rcases Except.append_ok_iff.1 hb with ⟨number, body, hnumber, hbody, rfl⟩
      rcases bytesOf_record_ok_iff.1 hbody with ⟨_, ⟨⟩, hbody⟩
      have hrestated := fieldBytes_restated hfields hcase hbody
      exact Except.append_ok_iff.2
        ⟨number, body, hnumber, bytesOf_record_ok_iff.2 ⟨fs, rfl, hrestated⟩, rfl⟩
    · rw [if_neg hname] at hb hcase ⊢
      exact ih hlater hcase hb

/-- Each element is written as its restatement. -/
theorem forall₂_restated {items items' : List Value} {parts : List (List UInt8)}
    (hitem : ∀ x y part, item.Restates x y → item.bytesOf x = .ok part → item.bytesOf y = .ok part)
    (heach : List.Forall₂ item.Restates items items')
    (hparts : List.Forall₂ (fun x part => item.bytesOf x = .ok part) items parts) :
    List.Forall₂ (fun x part => item.bytesOf x = .ok part) items' parts := by
  induction heach generalizing parts with
  | nil => exact hparts
  | cons hfirst _ ih =>
    rcases hparts with _ | ⟨hpart, hlater⟩
    exact .cons (hitem _ _ _ hfirst hpart) (ih hlater)

/-- The name of a case is an entry of the dictionary, and may serve as a key. -/
theorem caseName_dict_ok_iff {idTag : Label} {tag : Value} :
    caseName idTag (.dict es) = .ok tag ↔
      Value.entry? idTag es = some tag ∧ tag.isKey = true := by
  cases hentry : Value.entry? idTag es with
  | none =>
    have hpart : Value.part idTag (.dict es) = .error (.misuse .noKey) := by
      rw [Value.part, hentry]
    simp [caseName, hpart]
  | some v =>
    have hpart : Value.part idTag (.dict es) = .ok v := by
      rw [Value.part, hentry]
    by_cases hkey : v.isKey = true
    · simp only [caseName, hpart, hkey, if_true, Except.ok.injEq, Option.some.injEq]
      constructor
      · rintro rfl
        exact ⟨rfl, hkey⟩
      · exact fun h => h.1
    · simp only [caseName, hpart, if_neg hkey, Option.some.injEq]
      constructor
      · intro h
        cases h
      · rintro ⟨rfl, h⟩
        exact absurd h hkey

/-- A restatement is written as the value itself. -/
theorem bytesOf_restated (checked : l.Everywhere Checked) (unconverted : l.Everywhere Unconverted)
    (h : l.Restates v w) (hb : l.bytesOf v = .ok b) : l.bytesOf w = .ok b := by
  induction l generalizing v w b with
  | blob framing custom omission =>
    rcases h with rfl | ⟨form, form', content, rfl, rfl⟩
    · exact hb
    · by_cases hconstant : ∃ k, custom = .constant k
      · rcases hconstant with ⟨k, rfl⟩
        rcases bytesOf_blob_constant_ok_iff.1 hb with ⟨rfl, hnone | hsame⟩
        · cases hnone
        · exact bytesOf_blob_constant_ok_iff.2 ⟨rfl, .inr hsame⟩
      · have hplain : ∀ k, custom ≠ .constant k := fun k hk => hconstant ⟨k, hk⟩
        have hraw := beforeEncode_of_check checked.here unconverted.here.converts
        rcases (bytesOf_blob_ok_iff hplain).1 hb with
          ⟨_, payload, head, hv, hpayload, hhead, rfl⟩
        rw [hraw] at hv
        cases hv
        exact (bytesOf_blob_ok_iff hplain).2 ⟨_, payload, head, hraw _, hpayload, hhead, rfl⟩
  | nested framing inner custom omission ih =>
    have hraw := beforeEncode_of_check checked.here unconverted.here.converts
    rcases bytesOf_nested_ok_iff.1 hb with ⟨_, payload, head, hv, hpayload, hhead, rfl⟩
    rw [hraw] at hv
    cases hv
    have hinner := ih (everywhere_nested.1 checked).2 (everywhere_nested.1 unconverted).2 h hpayload
    exact bytesOf_nested_ok_iff.2 ⟨w, payload, head, hraw w, hinner, hhead, rfl⟩
  | array framing element custom ih =>
    rcases h with rfl | ⟨items, items', hv, hw, heach⟩
    · exact hb
    · have hraw := beforeEncode_of_check checked.here.2 unconverted.here.converts
      have hchecked := (everywhere_array.1 checked).2
      have hunconverted := (everywhere_array.1 unconverted).2
      rcases bytesOf_array_ok_iff.1 hb with ⟨_, _, head, body, hr, hitems, hhead, hbody, rfl⟩
      rw [hraw] at hr
      cases hr
      rw [hv] at hitems
      cases hitems
      rcases (collect_writeEach_ok_iff element.appendOnly_encode).1 hbody with ⟨parts, hparts, rfl⟩
      have hrestated : List.Forall₂ (fun x part => element.bytesOf x = .ok part) items' parts :=
        forall₂_restated (fun v w b => ih hchecked hunconverted) heach hparts
      rw [heach.length_eq] at hhead
      exact bytesOf_array_ok_iff.2 ⟨w, items', head, _, hraw w, hw, hhead,
        (collect_writeEach_ok_iff element.appendOnly_encode).2 ⟨parts, hrestated, rfl⟩, rfl⟩
  | switch idSize idTag cases custom ih =>
    rcases h with rfl | ⟨es, fs, rfl, rfl, htag, hcase⟩
    · exact hb
    · have hraw := beforeEncode_of_check checked.here.2 unconverted.here.converts
      have hchecked := (everywhere_switch.1 checked).2
      have hunconverted := (everywhere_switch.1 unconverted).2
      rcases bytesOf_switch_ok_iff.1 hb with ⟨_, tag, hr, hname, hbytes⟩
      rw [hraw] at hr
      cases hr
      rcases caseName_dict_ok_iff.1 hname with ⟨hentry, hkey⟩
      have hother := caseName_dict_ok_iff.2 ⟨htag.symm.trans hentry, hkey⟩
      have hrestated := caseBytes_restated
        (fun c hc f hf v w b => ih c hc f hf (hchecked c hc f hf) (hunconverted c hc f hf))
        (hcase tag hentry) hbytes
      exact bytesOf_switch_ok_iff.2 ⟨_, tag, hraw _, hother, hrestated⟩
  | record fields ih =>
    rcases h with rfl | ⟨es, fs, rfl, rfl, hfields⟩
    · exact hb
    · have hchecked := (everywhere_record.1 checked).2
      have hunconverted := (everywhere_record.1 unconverted).2
      rcases bytesOf_record_ok_iff.1 hb with ⟨_, ⟨⟩, hbytes⟩
      have hrestated := fieldBytes_restated
        (fun f hf v w b => ih f hf (hchecked f hf) (hunconverted f hf)) hfields hbytes
      exact bytesOf_record_ok_iff.2 ⟨fs, rfl, hrestated⟩
  | _ =>
    cases h
    exact hb

/-! ## Values that differ in their form only -/

/-- A value restates itself. -/
theorem restates_refl (l : Layout) (v : Value) : l.Restates v v := by
  induction l with
  | nested framing inner custom omission ih => exact ih
  | uint size custom omission => exact rfl
  | blob framing custom omission => exact .inl rfl
  | array framing element custom => exact .inl rfl
  | switch idSize idTag cases custom => exact .inl rfl
  | record fields => exact .inl rfl
  | _ => exact rfl

theorem restatesFields_of_entries {fields : List Field}
    (h : ∀ f ∈ fields, f.item.isOmitted = false →
      Value.entry? f.name es = Value.entry? f.name fs) :
    RestatesFields fields es fs := by
  induction fields with
  | nil => trivial
  | cons f fields ih =>
    rcases f with ⟨name, item⟩
    rcases List.forall_mem_cons.1 h with ⟨hitem, hlater⟩
    refine ⟨?_, ih hlater⟩
    cases homitted : item.isOmitted with
    | true => exact .omitted homitted
    | false =>
      rw [show Value.entry? name es = Value.entry? name fs from hitem homitted]
      cases Value.entry? name fs with
      | none => exact .absent
      | some v => exact .given (restates_refl item v)

theorem restatesCase_of_entries {cases : List Case} {tag : Value}
    (h : ∀ c ∈ cases, tag.same (.ofLabel c.name) = true → ∀ f ∈ c.fields,
      f.item.isOmitted = false → Value.entry? f.name es = Value.entry? f.name fs) :
    RestatesCase cases tag es fs := by
  induction cases with
  | nil => trivial
  | cons c cases ih =>
    rcases c with ⟨id, caseName, fields⟩
    rcases List.forall_mem_cons.1 h with ⟨hcase, hlater⟩
    unfold RestatesCase
    split
    · rename_i hname
      exact restatesFields_of_entries (hcase hname)
    · exact ih hlater

/-- Dictionaries that agree on the fields of a record restate each other, whatever else they
hold. -/
theorem restates_dict {fields : List Field}
    (h : ∀ f ∈ fields, f.item.isOmitted = false →
      Value.entry? f.name es = Value.entry? f.name fs) :
    (record fields).Restates (.dict es) (.dict fs) :=
  .inr ⟨es, fs, rfl, rfl, restatesFields_of_entries h⟩

/-- For a switch they agree on the tag and on the fields of the case that it names. -/
theorem restates_tagged_dict {idSize : Numeral} {idTag : Label} {cases : List Case}
    {custom : Custom Empty} (htag : Value.entry? idTag es = Value.entry? idTag fs)
    (h : ∀ tag, Value.entry? idTag es = some tag → ∀ c ∈ cases,
      tag.same (.ofLabel c.name) = true → ∀ f ∈ c.fields, f.item.isOmitted = false →
        Value.entry? f.name es = Value.entry? f.name fs) :
    (switch idSize idTag cases custom).Restates (.dict es) (.dict fs) :=
  .inr ⟨es, fs, rfl, rfl, htag, fun tag hentry => restatesCase_of_entries (h tag hentry)⟩

end Layout

/-- The order of entries does not matter for a look-up, as long as no key occurs twice. -/
theorem Value.entry?_perm {es fs : List (Label × Value)} (h : es.Perm fs)
    (distinct : es.Pairwise fun a b => a.1.same b.1 = false) (key : Label) :
    Value.entry? key es = Value.entry? key fs := by
  induction h with
  | nil => rfl
  | cons e _ ih =>
    rcases e with ⟨k, v⟩
    unfold entry?
    rw [ih (List.pairwise_cons.1 distinct).2]
  | swap e e' es =>
    rcases e with ⟨k, v⟩
    rcases e' with ⟨k', v'⟩
    have hother : k'.same k = false := (List.pairwise_cons.1 distinct).1 (k, v) List.mem_cons_self
    simp only [ Value.entry?]
    by_cases hk : k.same key = true
    · -- what is found under one of two keys is not found under the other
      have hk' : k'.same key = false := by
        rw [Label.same_iff] at hk
        rw [← Bool.not_eq_true, Label.same_iff] at hother ⊢
        rwa [← hk]
      simp [hk, hk']
    · simp [hk]
  | trans hfirst _ ih ih' =>
    have hsymm : ∀ {a b : Label × Value}, a.1.same b.1 = false → b.1.same a.1 = false := by
      intro a b hab
      rwa [Label.same_comm]
    exact (ih distinct).trans (ih' ((hfirst.pairwise_iff hsymm).1 distinct))

namespace Layout

/-- Dictionaries with the same entries in another order restate each other, for a record and for a
switch. -/
theorem restates_of_perm (h : es.Perm fs)
    (distinct : es.Pairwise fun a b => a.1.same b.1 = false) :
    (∀ fields, (record fields).Restates (.dict es) (.dict fs)) ∧
      ∀ idSize idTag cases custom,
        (switch idSize idTag cases custom).Restates (.dict es) (.dict fs) := by
  have hentry := Value.entry?_perm h distinct
  constructor
  · exact fun fields => restates_dict fun f _ _ => hentry f.name
  · intro idSize idTag cases custom
    exact restates_tagged_dict (hentry idTag) fun _ _ _ _ _ f _ _ => hentry f.name

end Layout

namespace Codec

variable {c : Codec} {v w : Value} {b : List UInt8}

/-- What is written for a value does not depend on the form in which the value is given: without
conversions, all values that restate each other are written as the same bytes, if any of them is. -/
theorem encode_restates (unconverted : c.layout.Everywhere Layout.Unconverted)
    (h : c.layout.Restates v w) : c.encode v = .ok b ↔ c.encode w = .ok b := by
  rw [encode_eq, encode_eq]
  constructor
  · intro hv
    exact Layout.bytesOf_restated c.everywhere_checked unconverted h hv
  · intro hw
    exact Layout.bytesOf_restated c.everywhere_checked unconverted h.symm hw

end Codec

/-! ## A parcel given in two forms -/

/-- A constant, an omitted constant, a block, an array and a switch. -/
def Layout.parcel : Layout :=
  .record [
    .mk "version" (.uint 1 (.constant 7) .off),
    .mk "gap" (.blob .unframed (.constant [0]) .on),
    .mk "note" (.blob (.counted 1) .plain .off),
    .mk "counts" (.array (.counted 1) (.uint 1 .plain .off) .plain),
    .mk "move" (.switch 1 "id"
      [.mk 0 "stop" [], .mk 1 "go" [.mk "steps" (.uint 1 .plain .off)]] .plain)]

def Codec.parcel : Codec := ⟨.parcel, none, rfl⟩

/-- A parcel as decoding would give it. -/
def Value.parcel : Value :=
  .dict [("version", .int 7), ("note", .raw [9]), ("counts", .list [.int 1, .int 2]),
    ("move", .dict [("id", .text "go"), ("steps", .int 5)])]

/-- The parcel without its constant, with other entries, and with other kinds of parts. -/
def Value.parcelRestated : Value :=
  .dict [("move", .dict [("spare", .none), ("steps", .int 5), ("id", .text "go")]),
    ("counts", .tuple [.int 1, .int 2]), ("gap", .text "anything"), ("note", .bytes .growing [9])]

/-- Both forms are written as the same bytes. -/
theorem Codec.encode_restates_parcel :
    Layout.parcel.Restates .parcel .parcelRestated ∧
      Codec.parcel.encode .parcelRestated = .ok [7, 0, 1, 9, 2, 1, 2, 1, 5] := by
  have unconverted : Layout.parcel.Everywhere Layout.Unconverted := by
    simp [Layout.parcel, Layout.everywhere_record, Layout.everywhere_array,
      Layout.everywhere_switch, Layout.Unconverted, Layout.conversion?, Field.item, Case.fields]
  have hversion : ∀ v, some (Value.int 7) = some v → v.same (.ofNumeral 7) = true := by
    rintro _ ⟨⟩
    rfl
  have habsent : ∀ v : Value, Option.none = some v → v.same (.ofNumeral 7) = true := by
    rintro _ ⟨⟩
  have hmove : (Layout.switch 1 "id"
      [.mk 0 "stop" [], .mk 1 "go" [.mk "steps" (.uint 1 .plain .off)]] .plain).Restates
      (.dict [("id", .text "go"), ("steps", .int 5)])
      (.dict [("spare", .none), ("steps", .int 5), ("id", .text "go")]) := by
    refine .inr ⟨_, _, rfl, rfl, rfl, ?_⟩
    rintro _ ⟨⟩
    exact ⟨.given rfl, trivial⟩
  have hrestates : Layout.parcel.Restates .parcel .parcelRestated :=
    .inr ⟨_, _, rfl, rfl, .constant rfl hversion habsent, .omitted rfl,
      .given (.inr ⟨_, _, _, rfl, rfl⟩),
      .given (.inr ⟨_, _, rfl, rfl, .cons rfl (.cons rfl .nil)⟩), .given hmove, trivial⟩
  have hparcel : Codec.parcel.encode .parcel = .ok [7, 0, 1, 9, 2, 1, 2, 1, 5] := rfl
  exact ⟨hrestates, (encode_restates unconverted hrestates).1 hparcel⟩

end WireLayout
