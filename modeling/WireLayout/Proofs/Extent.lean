import WireLayout.Proofs.Acceptance
import WireLayout.Proofs.Construction
import WireLayout.Proofs.Emission

/-!
# Extent — static sizes are the sizes of all encodings

The static size of a layout is computed from its description alone, by a recursion of its own.  Here
it is compared with what the encoder writes and with how far the decoder moves.

* `Decoding.Moves` — every success moves the cursor by the same distance, wherever it stands;
* `Layout.Occupies` — encodings have a number of bytes, and decoding moves the cursor over as many;
* `Layout.occupies_of_staticSize` — a layout occupies its static size;
* `Codec.extent_of_staticSize` — the same for compiled layouts.

A computation with a fixed extent reads from its cursor only by counts, so nothing is asked of the
position: it may stand outside the data.
-/

namespace WireLayout

variable {α β : Type}

/-! ## Computations that move a cursor by a fixed distance -/

namespace Decoding

/-- Every success moves the cursor by the same distance and leaves the data as they are. -/
def Moves (x : Decoding α) (n : Int) : Prop :=
  ∀ ⦃r a r'⦄, x r = .ok a r' → r' = { r with position := r.position + n }

variable {x : Decoding α} {m n : Int}

theorem moves_ofExcept (e : Except Error α) : (ofExcept e).Moves 0 := by
  intro r a r' h
  rcases ofExcept_ok_iff.1 h with ⟨_, rfl⟩
  rw [Int.add_zero]

/-- The second distance may depend on the first result, as long as there is one. -/
theorem Moves.bind (hx : x.Moves m) {f : α → Decoding β}
    (hf : ∀ ⦃r a r'⦄, x r = .ok a r' → (f a).Moves n) : (x >>= f).Moves (m + n) := by
  intro r b r' h
  rcases EStateM.bind_ok_iff.1 h with ⟨a, t, hat, hb⟩
  have ht := hx hat
  have hr' := hf hat hb
  rw [hr', ht, Int.add_assoc]

theorem Moves.bind_ofExcept (hx : x.Moves n) (e : α → Except Error β) :
    (x >>= fun a => ofExcept (e a)).Moves n := by
  have h := hx.bind fun _ a _ _ => moves_ofExcept (e a)
  rwa [Int.add_zero] at h

theorem Moves.bind_pure (hx : x.Moves n) (f : α → β) :
    (x >>= fun a => pure (f a)).Moves n :=
  hx.bind_ofExcept fun a => (.ok (f a) : Except Error β)

end Decoding

open Decoding

theorem moves_read (n : Numeral) : (Reader.read n).Moves n.value := by
  intro r bs r' h
  unfold Reader.read at h
  split at h
  · cases h
  · cases h
    rfl

theorem moves_readNat (width : Numeral) : (readNat width).Moves width.value :=
  (moves_read width).bind_ofExcept _

theorem moves_readConstant (expected : Value) (content : List UInt8) (omission : Omission) :
    (readConstant expected content omission).Moves content.length := by
  rw [readConstant_eq]
  exact (moves_read (.plain content.length)).bind_ofExcept _

theorem moves_readCounted {element : Decoding Value} {n : Int} (h : element.Moves n)
    (count : Numeral) (left index : Nat) (seen : List Value) :
    (readCounted element count left index seen).Moves (left * n) := by
  induction left generalizing index seen with
  | zero =>
    intro r vs r' hread
    cases hread
    simp
  | succ left ih =>
    intro r vs r' hread
    simp only [readCounted] at hread
    split at hread
    · cases hread
    · rename_i v t hv
      have ht := h hv
      have hr' := ih (index + 1) (v :: seen) hread
      have hdistance : r.position + n + left * n = r.position + (left + 1 : Nat) * n := by
        rw [Int.natCast_succ, Int.add_mul, Int.one_mul]
        omega
      rw [hr', ht, ← hdistance]

/-! ## Layouts with a fixed extent -/

namespace Layout

/-- Encodings have a number of bytes, and decoding moves the cursor over as many. -/
structure Occupies (l : Layout) (n : Int) : Prop where
  written : ∀ ⦃v b⦄, l.bytesOf v = .ok b → (b.length : Int) = n
  read : l.decode.Moves n

/-- The fields of a record have a number of bytes together. -/
structure FieldsOccupy (fields : List Field) (n : Int) : Prop where
  written : ∀ ⦃entries b⦄, fieldBytes fields entries = .ok b → (b.length : Int) = n
  read : (decodeFields fields).Moves n

/-- A record is measured from left to right, each field behind the total of those before. -/
theorem fieldsOccupy_of_recordSize {fields : List Field}
    (h : ∀ f ∈ fields, ∀ n, f.item.staticSize = .ok (some n) → f.item.Occupies n.value)
    {total : Int} {n : Numeral} (hsize : recordSize total fields = .ok (some n)) :
    FieldsOccupy fields (n.value - total) := by
  induction fields generalizing total with
  | nil =>
    cases hsize
    constructor
    · intro entries b hb
      cases hb
      simp
    · intro r entries r' hread
      cases hread
      simp
  | cons f fields ih =>
    rcases f with ⟨name, item⟩
    rcases List.forall_mem_cons.1 h with ⟨hitem, hfields⟩
    rcases Except.bind_ok_iff.1 hsize with ⟨size, hfirst, hrest⟩
    cases size with
    | none => cases hrest
    | some m =>
      have hfirst := hitem m hfirst
      have hlater := ih hfields hrest
      have htotal : m.value + (n.value - (total + m.value)) = n.value - total := by omega
      constructor
      · intro entries b hb
        rcases fieldBytes_cons_ok_iff.1 hb with ⟨v, first, later, _, hv, hentries, rfl⟩
        have hm := hfirst.written hv
        have hn := hlater.written hentries
        rw [List.length_append]
        omega
      · rw [← htotal]
        exact hfirst.read.bind fun _ _ _ _ => hlater.read.bind_pure _

theorem recordSize_of_caseSizes {cases : List Case} {sizes : List (Option Numeral)}
    (h : caseSizes cases = .ok sizes) :
    List.Forall₂ (fun c size => recordSize 0 c.fields = .ok size) cases sizes := by
  induction cases generalizing sizes with
  | nil =>
    cases h
    exact .nil
  | cons c cases ih =>
    rcases c with ⟨id, name, fields⟩
    rcases Except.bind_ok_iff.1 h with ⟨size, hsize, h⟩
    rcases Except.bind_ok_iff.1 h with ⟨later, hlater, h⟩
    cases h
    exact .cons hsize (ih hlater)

theorem eq_of_commonSize {sizes : List (Option Numeral)} {s : Int}
    (h : commonSize sizes = some s) : ∀ size ∈ sizes, ∃ n, size = some n ∧ n.value = s := by
  rcases sizes with _ | ⟨_ | first, later⟩
  · cases h
  · cases h
  · simp only [commonSize, Option.ite_none_right_eq_some, Option.some.injEq,
      List.all_eq_true] at h
    rcases h with ⟨hall, rfl⟩
    intro size hsize
    rcases List.mem_cons.1 hsize with rfl | hlater
    · exact ⟨first, rfl, rfl⟩
    · have hsame := hall size hlater
      cases size with
      | none => cases hsame
      | some n => exact ⟨n, rfl, (Numeral.same_iff.1 hsame).symm⟩

/-- The cases of a switch with a static size are records of one size. -/
theorem caseSize_of_commonSize {cases : List Case} {sizes : List (Option Numeral)} {s : Int}
    (h : caseSizes cases = .ok sizes) (hs : commonSize sizes = some s) :
    ∀ c ∈ cases, ∃ n, recordSize 0 c.fields = .ok (some n) ∧ n.value = s := by
  intro c hc
  have heach := recordSize_of_caseSizes h
  have hall := eq_of_commonSize hs
  rcases List.forall₂_iff_get.1 heach with ⟨hlength, hget⟩
  rcases List.get_of_mem hc with ⟨i, rfl⟩
  have hi : i.1 < sizes.length := by
    rw [← hlength]
    exact i.2
  rcases hall _ (List.get_mem sizes ⟨i.1, hi⟩) with ⟨n, hn, hvalue⟩
  refine ⟨n, ?_, hvalue⟩
  rw [← hn]
  exact hget i.1 i.2 hi

theorem length_of_collect_writeEach {element : Layout} {n : Int}
    (h : ∀ ⦃v b⦄, element.bytesOf v = .ok b → (b.length : Int) = n) {items : List Value}
    {body : List UInt8} (hbody : Writer.collect (writeEach element.encode items) = .ok body) :
    (body.length : Int) = items.length * n := by
  induction items generalizing body with
  | nil =>
    cases hbody
    simp
  | cons v items ih =>
    rcases (collect_writeEach_cons_ok_iff element.appendOnly_encode).1 hbody with
      ⟨first, later, hfirst, hlater, rfl⟩
    have hlength := h hfirst
    have hlengths := ih hlater
    rw [List.length_append, List.length_cons, Int.natCast_add, hlength, hlengths, Int.natCast_succ,
      Int.add_mul, Int.one_mul, Int.add_comm]

theorem moves_decodeCase (idTag : Label) {cases : List Case} {s : Int}
    (h : ∀ c ∈ cases, FieldsOccupy c.fields s) (id : Nat) :
    (decodeCase idTag cases id).Moves s := by
  induction cases with
  | nil =>
    intro r entries r' hread
    cases hread
  | cons c cases ih =>
    rcases c with ⟨caseId, name, fields⟩
    rcases List.forall_mem_cons.1 h with ⟨hfields, hcases⟩
    unfold decodeCase
    split
    · exact hfields.read.bind_pure _
    · exact ih hcases

/-! ### Layouts of static size -/

section

variable {framing : Framing} {custom : Custom Empty} {omission : Omission} {n : Numeral}

/-- A block has a static size if it is constant, or else if its frame is fixed.  A size that is
given for a constant is the size of the constant. -/
theorem staticSize_blob {content : Custom (List UInt8)}
    (made : (blob framing content omission).WellMade)
    (h : (blob framing content omission).staticSize = .ok (some n)) :
    (∃ bs, content = .constant bs ∧ n.value = bs.length) ∨
      (∀ bs, content ≠ .constant bs) ∧ framing = .fixed n := by
  by_cases hconstant : ∃ bs, content = .constant bs
  · rcases hconstant with ⟨bs, rfl⟩
    refine .inl ⟨bs, rfl, ?_⟩
    cases framing with
    | fixed m =>
      cases h
      exact made.1 n bs rfl rfl
    | _ =>
      cases h
      rfl
  · have hplain : ∀ bs, content ≠ .constant bs := fun bs hbs => hconstant ⟨bs, hbs⟩
    refine .inr ⟨hplain, ?_⟩
    cases framing with
    | fixed m =>
      cases h
      rfl
    | _ =>
      cases content with
      | constant bs => exact absurd rfl (hplain bs)
      | _ => cases h

theorem staticSize_nested {inner : Layout}
    (h : (nested framing inner custom omission).staticSize = .ok (some n)) :
    framing = .fixed n ∨ framing = .unframed ∧ inner.staticSize = .ok (some n) := by
  cases framing with
  | fixed m =>
    cases h
    exact .inl rfl
  | counted width => cases h
  | unframed => exact .inr ⟨rfl, h⟩

theorem staticSize_array {element : Layout}
    (h : (array framing element custom).staticSize = .ok (some n)) :
    ∃ count m, framing = .fixed count ∧ element.staticSize = .ok (some m) ∧
      n = .plain (count.value * m.value) := by
  cases framing with
  | fixed count =>
    rcases Except.bind_ok_iff.1 h with ⟨size, hsize, h⟩
    cases size with
    | none => cases h
    | some m =>
      cases h
      exact ⟨count, m, rfl, hsize, rfl⟩
  | _ => cases h

theorem staticSize_switch {idSize : Numeral} {idTag : Label} {cases : List Case}
    (h : (switch idSize idTag cases custom).staticSize = .ok (some n)) :
    ∃ s, (∀ c ∈ cases, ∃ m, recordSize 0 c.fields = .ok (some m) ∧ m.value = s) ∧
      n = .plain (idSize.value + s) := by
  rcases Except.bind_ok_iff.1 h with ⟨found, hfound, h⟩
  cases hcommon : commonSize found with
  | none =>
    rw [hcommon] at h
    cases h
  | some s =>
    rw [hcommon] at h
    cases h
    exact ⟨s, caseSize_of_commonSize hfound hcommon, rfl⟩

end

/-! ### Each kind of item -/

section

variable {omission : Omission}

theorem occupies_uint {size : Numeral} {custom : Custom Numeral} :
    (uint size custom omission).Occupies size.value := by
  by_cases hconstant : ∃ m, custom = .constant m
  · rcases hconstant with ⟨m, rfl⟩
    constructor
    · intro v b hb
      exact Uint.length_of_encode (bytesOf_uint_constant_ok_iff.1 hb).1
    · have hread := (moves_ofExcept (Uint.encode (.ofNumeral m) size)).bind
        (f := fun content => readConstant (.ofNumeral m) content omission) (n := size.value)
      rw [Int.zero_add] at hread
      apply hread
      intro r content r' hcontent
      rcases ofExcept_ok_iff.1 hcontent with ⟨hcontent, _⟩
      rw [← Uint.length_of_encode hcontent]
      exact moves_readConstant _ content omission
  · have hplain : ∀ m, custom ≠ .constant m := fun m hm => hconstant ⟨m, hm⟩
    constructor
    · intro v b hb
      rcases (bytesOf_uint_ok_iff hplain).1 hb with ⟨raw, _, hb⟩
      exact Uint.length_of_encode hb
    · cases custom with
      | constant m => exact absurd rfl (hplain m)
      | _ => exact (moves_readNat size).bind_ofExcept _

theorem occupies_blob_constant {framing : Framing} {content : List UInt8} :
    (blob framing (.constant content) omission).Occupies content.length := by
  constructor
  · intro v b hb
    rw [(bytesOf_blob_constant_ok_iff.1 hb).1]
  · exact moves_readConstant _ content omission

theorem occupies_blob_fixed {n : Numeral} {custom : Custom (List UInt8)}
    (hplain : ∀ content, custom ≠ .constant content) :
    (blob (.fixed n) custom omission).Occupies n.value := by
  constructor
  · intro v b hb
    rcases (bytesOf_blob_ok_iff hplain).1 hb with ⟨_, payload, _, _, _, ⟨rfl, hcount⟩, rfl⟩
    exact hcount
  · cases custom with
    | constant content => exact absurd rfl (hplain content)
    | _ => exact (moves_read n).bind_ofExcept _

theorem occupies_nested_fixed {n : Numeral} {inner : Layout} {custom : Custom Empty} :
    (nested (.fixed n) inner custom omission).Occupies n.value := by
  constructor
  · intro v b hb
    rcases bytesOf_nested_ok_iff.1 hb with ⟨_, payload, _, _, _, ⟨rfl, hcount⟩, rfl⟩
    exact hcount
  -- what stands in the frame is read on a cursor of its own
  · have hcontent := fun payload =>
      (moves_ofExcept (wholeFrame inner.decode payload)).bind_ofExcept custom.afterDecode
    have hall := (moves_read n).bind fun _ payload _ _ => hcontent payload
    rwa [Int.add_zero] at hall

theorem occupies_nested_unframed {n : Int} {inner : Layout} {custom : Custom Empty}
    (h : inner.Occupies n) : (nested .unframed inner custom omission).Occupies n := by
  constructor
  · intro v b hb
    rcases bytesOf_nested_ok_iff.1 hb with ⟨_, payload, _, _, hpayload, rfl, rfl⟩
    exact h.written hpayload
  · exact h.read.bind_ofExcept _

theorem occupies_array_fixed {count : Numeral} {element : Layout} {custom : Custom Empty} {n : Int}
    (hcount : 0 ≤ count.value) (h : element.Occupies n) :
    (array (.fixed count) element custom).Occupies (count.value * n) := by
  constructor
  · intro v b hb
    rcases bytesOf_array_ok_iff.1 hb with ⟨_, items, _, body, _, _, ⟨rfl, hitems⟩, hbody, rfl⟩
    have hlength := length_of_collect_writeEach h.written hbody
    rw [hitems] at hlength
    exact hlength
  · have hread := moves_readCounted h.read count count.value.toNat 0 []
    rw [Int.toNat_of_nonneg hcount] at hread
    exact hread.bind_ofExcept _

theorem occupies_switch {idSize : Numeral} {idTag : Label} {cases : List Case}
    {custom : Custom Empty} {n : Int} (h : ∀ c ∈ cases, FieldsOccupy c.fields n) :
    (switch idSize idTag cases custom).Occupies (idSize.value + n) := by
  constructor
  · intro v b hb
    rcases bytesOf_switch_ok_iff.1 hb with ⟨raw, name, _, _, hb⟩
    rcases mem_of_caseBytes hb with ⟨c, hc, _, tag, body, htag, hbody, rfl⟩
    rcases bytesOf_record_ok_iff.1 hbody with ⟨entries, rfl, hbody⟩
    have hwidth := Uint.length_of_encode htag
    have hrecord := (h c hc).written hbody
    rw [List.length_append]
    omega
  · exact (moves_readNat idSize).bind fun _ id _ _ => (moves_decodeCase idTag h id).bind_ofExcept _

theorem occupies_record {fields : List Field} {n : Int} (h : FieldsOccupy fields n) :
    (record fields).Occupies n := by
  constructor
  · intro v b hb
    rcases bytesOf_record_ok_iff.1 hb with ⟨entries, rfl, hb⟩
    exact h.written hb
  · exact h.read.bind_pure _

end

/-- A layout occupies its static size. -/
theorem occupies_of_staticSize {l : Layout} (made : l.Everywhere WellMade)
    (sizes : l.Everywhere NonNegative) {n : Numeral} (h : l.staticSize = .ok (some n)) :
    l.Occupies n.value := by
  induction l generalizing n with
  | uint size custom omission =>
    cases h
    exact occupies_uint
  | blob framing custom omission =>
    rcases staticSize_blob made.here h with ⟨content, rfl, hlength⟩ | ⟨hplain, rfl⟩
    · rw [hlength]
      exact occupies_blob_constant
    · exact occupies_blob_fixed hplain
  | nested framing inner custom omission ih =>
    rcases staticSize_nested h with rfl | ⟨rfl, hinner⟩
    · exact occupies_nested_fixed
    · exact occupies_nested_unframed
        (ih (everywhere_nested.1 made).2 (everywhere_nested.1 sizes).2 hinner)
  | array framing element custom ih =>
    rcases staticSize_array h with ⟨count, m, rfl, hsize, rfl⟩
    rcases everywhere_array.1 sizes with ⟨hcount, helement⟩
    exact occupies_array_fixed hcount (ih (everywhere_array.1 made).2 helement hsize)
  | switch idSize idTag cases custom ih =>
    rcases staticSize_switch h with ⟨s, hcases, rfl⟩
    refine occupies_switch fun c hc => ?_
    rcases hcases c hc with ⟨m, hm, rfl⟩
    have hfields := fieldsOccupy_of_recordSize (fun f hf k hk => ih c hc f hf
      ((everywhere_switch.1 made).2 c hc f hf) ((everywhere_switch.1 sizes).2 c hc f hf) hk) hm
    rwa [Int.sub_zero] at hfields
  | record fields ih =>
    have hfields := fieldsOccupy_of_recordSize (fun f hf k hk => ih f hf
      ((everywhere_record.1 made).2 f hf) ((everywhere_record.1 sizes).2 f hf) hk) h
    rw [Int.sub_zero] at hfields
    exact occupies_record hfields
  | _ => cases h

end Layout

/-! ## Codecs -/

/-- A static size is the size of all encodings, and the distance over which every decoding moves its
cursor, from any position in any data. -/
theorem Codec.extent_of_staticSize {c : Codec} (built : c.layout.Built)
    (sizes : c.layout.Everywhere Layout.NonNegative) {n : Numeral} (h : c.staticSize = some n) :
    (∀ v b, c.encode v = .ok b → (b.length : Int) = n.value) ∧
      ∀ r v r', c.read r = .ok v r' → r' = { r with position := r.position + n.value } := by
  rcases Except.seq_ok_iff.1 c.accepted with ⟨_, hsize⟩
  rw [h] at hsize
  have hall := Layout.occupies_of_staticSize built.everywhere_wellMade sizes hsize
  exact ⟨fun v b hb => hall.written hb, fun r v r' hread => hall.read hread⟩

/-- Two integers, a frame around bytes of any number, and a union of records of one size. -/
def Layout.measured : Layout :=
  .record [.mk "pair" (.array (.fixed 2) (.uint 2 .plain .off) .plain),
    .mk "slot" (.nested (.fixed 3) (.blob .unframed .plain .off) .plain .off),
    .mk "choice" (.switch 1 "kind" [.mk 0 "wide" [.mk "n" (.uint 2 .plain .off)],
      .mk 1 "split" [.mk "high" (.uint 1 .plain .off), .mk "low" (.uint 1 .plain .off)]] .plain)]

/-- The compiled layout; its items take four, three and three bytes. -/
def Codec.measured : Codec := ⟨.measured, some (.plain 10), rfl⟩

theorem Layout.built_measured : measured.Built := by
  have hbyte : Built (.uint 1 .plain .off) := @Built.uint 1 .none .off _ rfl
  have hword : Built (.uint 2 .plain .off) := @Built.uint 2 .none .off _ rfl
  have hpair := @Built.array _ (some 2) none .none _ hword rfl
  have hbytes := @Built.bytes none none none .none .off _ (by simp) rfl
  have hslot := @Built.bytes (some 3) none (some (.blob .unframed .plain .off)) .none .off _
    (by
      rintro _ ⟨⟩
      exact hbytes) rfl
  have hwide := @Built.tuple [fieldOf "n" _] (by simpa using Built.field "n" hword)
  have hsplit := @Built.tuple [fieldOf "high" _, fieldOf "low" _]
    (by simpa using ⟨Built.field "high" hbyte, Built.field "low" hbyte⟩)
  have hchoice := @Built.switch (some 1) "kind" .none _
    [⟨some 0, "wide", _⟩, ⟨some 1, "split", _⟩] (by simpa using ⟨hwide, hsplit⟩) rfl
  exact @Built.tuple [fieldOf "pair" _, fieldOf "slot" _, fieldOf "choice" _]
    (by simpa using ⟨Built.field "pair" hpair, Built.field "slot" hslot,
      Built.field "choice" hchoice⟩)

theorem Layout.nonNegative_measured : measured.Everywhere NonNegative := by
  have hone : 0 ≤ (1 : Numeral).value := by decide
  have htwo : 0 ≤ (2 : Numeral).value := by decide
  have hthree : 0 ≤ (3 : Numeral).value := by decide
  simp [measured, everywhere_record, everywhere_nested, everywhere_array, everywhere_switch,
    NonNegative, Framing.NonNegative, Field.item, Case.fields, hone, htwo, hthree]

/-- A value of that layout. -/
def Layout.measuredValue : Value :=
  .dict [("pair", .list [.int 258, .int 3]), ("slot", .raw [7, 8, 9]),
    ("choice", .dict [("kind", .text "split"), ("high", .int 1), ("low", .int 2)])]

/-- The value takes ten bytes, and so does another one in the middle of fourteen. -/
theorem Codec.extent_of_staticSize_measured :
    (∃ b, Codec.measured.encode Layout.measuredValue = .ok b ∧ (b.length : Int) = 10) ∧
      ∃ v r', Codec.measured.read ⟨#[0, 0, 1, 2, 0, 3, 7, 8, 9, 0, 5, 5, 0, 0], 2⟩ = .ok v r' ∧
        r'.position = 12 := by
  have hextent := extent_of_staticSize (c := .measured) Layout.built_measured
    Layout.nonNegative_measured rfl
  have hencode : Codec.measured.encode Layout.measuredValue =
      .ok [1, 2, 0, 3, 7, 8, 9, 1, 1, 2] := rfl
  have hread : Codec.measured.read ⟨#[0, 0, 1, 2, 0, 3, 7, 8, 9, 0, 5, 5, 0, 0], 2⟩ =
      .ok (.dict [("pair", .list [.int 258, .int 3]), ("slot", .raw [7, 8, 9]),
        ("choice", .dict [("kind", .text "wide"), ("n", .int 1285)])])
      ⟨#[0, 0, 1, 2, 0, 3, 7, 8, 9, 0, 5, 5, 0, 0], 12⟩ := rfl
  have hmoved := hextent.2 _ _ _ hread
  exact ⟨⟨_, hencode, hextent.1 _ _ hencode⟩, _, _, hread, congrArg Reader.position hmoved⟩

end WireLayout
