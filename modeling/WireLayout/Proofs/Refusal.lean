import WireLayout.Proofs.Extent
import WireLayout.Proofs.Totality

/-!
# Refusal — encoding arbitrary values

A layout without conversions and without negative sizes answers every value, however ill-suited:
with bytes, or with a fault of the value itself.

* `ErrorKind.OfValue` — the classes of the failures that values bring about;
* `Layout.Oversized` — an integer or a count in so many bytes that their range cannot be formed;
* `Layout.ValueFault` — what can be wrong with a value that is written in a layout;
* `FailsIn` — a computation fails in known ways only;
* `Layout.failsIn_bytesOf` — the bytes of a value are found, or the value is at fault;
* `Codec.encode_total` — the same for messages, with the classes of the failures.

A width from `widthLimit` on is accepted in a description.  Nothing can be written in it, and the
failure is that of the machine: `Codec.encode_oversized`.  Machine words fail in no other way: they
are asked only for what they have room for.
-/

namespace WireLayout

open Writer

variable {α β : Type}

/-- The classes of failures that values bring about. -/
def ErrorKind.OfValue : ErrorKind → Prop
  | .typeMisuse | .integerRange | .sizeMismatch | .missingField | .unknownDiscriminator
  | .fixedValueMismatch => True
  | _ => False

/-! ## Faults of a value -/

/-- The count stands in so many bytes that their range cannot be formed. -/
def Framing.Oversized : Framing → Prop
  | .counted width => widthLimit ≤ width.value
  | _ => False

namespace Layout

/-- An integer, or the count of a frame or an array, in so many bytes that their range cannot be
formed. -/
def Oversized : Layout → Prop
  | .uint size _ _ => widthLimit ≤ size.value
  | .blob framing _ _ => framing.Oversized
  | .nested framing _ _ _ => framing.Oversized
  | .array framing _ _ => framing.Oversized
  | _ => False

/-- The tag of a switch is a text. -/
def TaggedByText : Layout → Prop
  | .switch _ idTag _ _ => ∃ s, idTag = .text s
  | _ => True

/-- What can be wrong with a value that is written in a layout. -/
inductive ValueFault (l : Layout) : Error → Prop where
  | ofValue {e} : e.causeKind.OfValue → ValueFault l e
  | oversized {p} : l.HasPart p → p.Oversized → ValueFault l (.misuse .tooLarge)

theorem ValueFault.inside {inner l : Layout} {e : Error} (h : inner.ValueFault e)
    (hparts : ∀ p, inner.HasPart p → l.HasPart p) : l.ValueFault e := by
  cases h with
  | ofValue h => exact .ofValue h
  | oversized hp h => exact .oversized (hparts _ hp) h

end Layout

/-! ## Computations that fail in known ways -/

/-- All failures have the given form. -/
def FailsIn (F : Error → Prop) (x : Except Error α) : Prop := ∀ e, x = .error e → F e

section

variable {F F' : Error → Prop}

theorem failsIn_ok (a : α) : FailsIn F (.ok a) := nofun

theorem failsIn_error {e : Error} (h : F e) : FailsIn F (.error e : Except Error α) := by
  rintro _ ⟨⟩
  exact h

theorem FailsIn.mono {x : Except Error α} (hx : FailsIn F x) (h : ∀ e, F e → F' e) :
    FailsIn F' x := fun e he => h e (hx e he)

theorem FailsIn.bind {x : Except Error α} (hx : FailsIn F x) {f : α → Except Error β}
    (hf : ∀ a, x = .ok a → FailsIn F (f a)) : FailsIn F (x >>= f) := by
  intro e he
  rcases Except.bind_error_iff.1 he with he | ⟨a, ha, he⟩
  · exact hx e he
  · exact hf a ha e he

/-- Parts that stand one behind the other fail as the parts do. -/
theorem FailsIn.append {x y : Except Error (List α)} (hx : FailsIn F x) (hy : FailsIn F y) :
    FailsIn F (do
      let first ← x
      let later ← y
      return first ++ later) :=
  hx.bind fun _ _ => hy.bind fun _ _ => failsIn_ok _

end

/-! ## Integers and blocks -/

section

variable {l : Layout}

/-- An integer has no room in a width, or the range of the width cannot be formed. -/
theorem Uint.fault_of_bytesOf {n : Int} {width : Numeral} {e : Error} (hlow : 0 ≤ width.value)
    (h : bytesOf n width = .error e) :
    e = .outOfRange n (some width) ∨ e = .misuse .tooLarge ∧ widthLimit ≤ width.value := by
  rcases Int.lt_or_le n 0 with hn | hn
  · rw [bytesOf_of_negative hn] at h
    cases h
    exact .inl rfl
  rcases Int.lt_or_le width.value widthLimit with hlimit | hwide
  · rcases Int.eq_ofNat_of_zero_le hn with ⟨m, rfl⟩
    rcases Nat.lt_or_ge m (256 ^ width.value.toNat) with hm | hm
    · rw [bytesOf_ok_iff.2 ⟨m, rfl, ⟨hlow, hlimit, hm⟩, rfl⟩] at h
      cases h
    · rw [bytesOf_of_large hlow hlimit hm] at h
      cases h
      exact .inl rfl
  · rw [bytesOf_of_wide hn hwide] at h
    cases h
    exact .inr ⟨rfl, hwide⟩

theorem failsIn_uintBytes {width : Numeral} (hlow : 0 ≤ width.value)
    (hlimit : widthLimit ≤ width.value → l.Oversized) (n : Int) :
    FailsIn l.ValueFault (Uint.bytesOf n width) := by
  intro e he
  rcases Uint.fault_of_bytesOf hlow he with rfl | ⟨rfl, h⟩
  · exact .ofValue trivial
  · exact .oversized (.self l) (hlimit h)

theorem failsIn_uint {width : Numeral} (hlow : 0 ≤ width.value)
    (hlimit : widthLimit ≤ width.value → l.Oversized) (v : Value) :
    FailsIn l.ValueFault (Uint.encode v width) := by
  unfold Uint.encode
  split
  · exact failsIn_uintBytes hlow hlimit _
  · exact failsIn_error (.ofValue trivial)

theorem failsIn_content (v : Value) : FailsIn l.ValueFault (Block.content v) := by
  unfold Block.content
  split
  · exact failsIn_ok _
  · exact failsIn_error (.ofValue trivial)

theorem failsIn_writeConstant (expected : Value) (content : List UInt8) (v : Value) :
    FailsIn l.ValueFault (collect (writeConstant expected content v)) := by
  unfold writeConstant
  split
  · exact failsIn_ok _
  · split
    · exact failsIn_ok _
    · exact failsIn_error (.ofValue trivial)

/-! ## Frames and arrays -/

theorem failsIn_writeFramed {framing : Framing} (hlow : framing.NonNegative)
    (hlimit : framing.Oversized → l.Oversized) (payload : List UInt8) :
    FailsIn l.ValueFault (collect (writeFramed framing payload)) := by
  cases framing with
  | fixed size =>
    simp only [writeFramed, collect_ofExcept_bind, Block.exactly]
    split
    · exact failsIn_ok _
    · exact failsIn_error (.ofValue trivial)
  | counted width =>
    simp only [writeFramed, collect_ofExcept_bind]
    exact (failsIn_uintBytes hlow hlimit _).bind fun _ _ => failsIn_ok _
  | unframed => exact failsIn_ok _

theorem failsIn_writeCount {framing : Framing} (hlow : framing.NonNegative)
    (hlimit : framing.Oversized → l.Oversized) (count : Nat) :
    FailsIn l.ValueFault (collect (writeCount framing count)) := by
  cases framing with
  | fixed n =>
    simp only [writeCount, collect_ofExcept]
    split
    · exact failsIn_ok _
    · exact failsIn_error (.ofValue trivial)
  | counted width =>
    simp only [writeCount, collect_ofExcept_bind]
    exact (failsIn_uintBytes hlow hlimit _).bind fun _ _ => failsIn_ok _
  | unframed => exact failsIn_ok _

theorem failsIn_arrayItems (v : Value) : FailsIn l.ValueFault (arrayItems v) := by
  unfold arrayItems
  split
  · exact failsIn_ok _
  · exact failsIn_ok _
  · exact failsIn_error (.ofValue trivial)

theorem failsIn_writeEach {element : Layout} (h : ∀ v, FailsIn l.ValueFault (element.bytesOf v))
    (items : List Value) : FailsIn l.ValueFault (collect (writeEach element.encode items)) := by
  induction items with
  | nil => exact failsIn_ok _
  | cons v items ih =>
    rw [collect_writeEach_cons element.appendOnly_encode]
    exact (h v).append ih

/-! ## Records and switches -/

theorem failsIn_recordEntries (v : Value) : FailsIn l.ValueFault (recordEntries v) := by
  unfold recordEntries
  split
  · exact failsIn_ok _
  · exact failsIn_error (.ofValue trivial)

theorem failsIn_input (item : Layout) (name : Label) (entries : List (Label × Value)) :
    FailsIn l.ValueFault (item.input name entries) := by
  unfold Layout.input
  split
  · exact failsIn_ok _
  · exact failsIn_ok _
  · exact failsIn_ok _
  · exact failsIn_ok _
  · exact failsIn_error (.ofValue trivial)

/-- A text is no place in a sequence, so a value either has an entry under it or has no entries. -/
theorem part_text (s : String) (v : Value) :
    (∃ name, v.part (.text s) = .ok name) ∨ v.part (.text s) = .error (.misuse .noKey) ∨
      v.part (.text s) = .error (.misuse .wrongType) := by
  cases v with
  | dict entries =>
    simp only [Value.part]
    cases Value.entry? (.text s) entries with
    | some name => exact .inl ⟨name, rfl⟩
    | none => exact .inr (.inl rfl)
  | _ => exact .inr (.inr rfl)

theorem failsIn_caseName (s : String) (v : Value) :
    FailsIn l.ValueFault (caseName (.text s) v) := by
  unfold caseName
  rcases part_text s v with ⟨name, hname⟩ | hkey | htype
  · rw [hname]
    dsimp only
    split
    · exact failsIn_ok _
    · exact failsIn_error (.ofValue trivial)
  · rw [hkey]
    exact failsIn_error (.ofValue trivial)
  · rw [htype]
    exact failsIn_error (.ofValue trivial)

theorem failsIn_fieldBytes {fields : List Field}
    (h : ∀ f ∈ fields, ∀ v, FailsIn l.ValueFault (f.item.bytesOf v))
    (entries : List (Label × Value)) : FailsIn l.ValueFault (Layout.fieldBytes fields entries) := by
  induction fields with
  | nil => exact failsIn_ok _
  | cons f fields ih =>
    rcases f with ⟨name, item⟩
    rcases List.forall_mem_cons.1 h with ⟨hitem, hlater⟩
    rw [Layout.fieldBytes_cons]
    exact (failsIn_input item name entries).bind fun v _ => (hitem v).append (ih hlater)

/-- The number of a case was checked, so only its record can be at fault. -/
theorem failsIn_caseBytes {idSize : Numeral} {cases : List Case}
    (ids : ∀ c ∈ cases, ∃ tag, Uint.encode (.ofNumeral c.id) idSize = .ok tag)
    (h : ∀ c ∈ cases, ∀ f ∈ c.fields, ∀ v, FailsIn l.ValueFault (f.item.bytesOf v))
    (name v : Value) : FailsIn l.ValueFault (Layout.caseBytes idSize cases name v) := by
  induction cases with
  | nil => exact failsIn_error (.ofValue trivial)
  | cons c cases ih =>
    rcases c with ⟨id, caseName, fields⟩
    rcases List.forall_mem_cons.1 ids with ⟨⟨tag, htag⟩, hids⟩
    rcases List.forall_mem_cons.1 h with ⟨hfields, hcases⟩
    have htag : Uint.encode (.ofNumeral id) idSize = .ok tag := htag
    rw [Layout.caseBytes_cons]
    split
    · rw [htag, Layout.bytesOf_record]
      refine FailsIn.append (failsIn_ok tag) ?_
      exact (failsIn_recordEntries v).bind fun entries _ => failsIn_fieldBytes hfields entries
    · exact ih hids hcases

end

/-! ## Layouts -/

namespace Layout

/-- An attribute that was checked and is no conversion changes no value. -/
theorem beforeEncode_of_check {custom : Custom α} (hcheck : custom.check = .ok ())
    (h : custom.Converts fun _ => False) (v : Value) : custom.beforeEncode v = .ok v := by
  cases custom with
  | converted c => exact h.elim
  | unsuitable w => cases hcheck
  | _ => rfl

/-- Failures inside an item are failures of what it stands in. -/
theorem failsIn_inside {inner l : Layout} (h : ∀ v, FailsIn inner.ValueFault (inner.bytesOf v))
    (hparts : ∀ p, inner.HasPart p → l.HasPart p) (v : Value) :
    FailsIn l.ValueFault (inner.bytesOf v) :=
  (h v).mono fun _ he => he.inside hparts

/-- The bytes of a value are found, or the value is at fault. -/
theorem failsIn_bytesOf {l : Layout} (checked : l.Everywhere Checked)
    (sizes : l.Everywhere NonNegative) (unconverted : l.Everywhere Unconverted)
    (tags : l.Everywhere TaggedByText) (v : Value) : FailsIn l.ValueFault (l.bytesOf v) := by
  induction l generalizing v with
  | uint size custom omission =>
    have hcheck := check_of_checkUintCustom checked.here
    have hraw := beforeEncode_of_check hcheck unconverted.here.converts v
    by_cases hconstant : ∃ n, custom = .constant n
    · rcases hconstant with ⟨n, rfl⟩
      -- a constant that was checked can be encoded
      rcases Except.map_ok_iff.1 checked.here with ⟨content, hcontent, _⟩
      simp only [bytesOf, encode, writeUint, collect_ofExcept_bind, hcontent, Except.ok_bind]
      exact failsIn_writeConstant _ _ v
    · rw [bytesOf_uint fun n hn => hconstant ⟨n, hn⟩, hraw]
      exact failsIn_uint sizes.here id v
  | blob framing custom omission =>
    have hraw := beforeEncode_of_check checked.here unconverted.here.converts v
    by_cases hconstant : ∃ content, custom = .constant content
    · rcases hconstant with ⟨content, rfl⟩
      exact failsIn_writeConstant (.raw content) content v
    · rw [bytesOf_blob fun content hn => hconstant ⟨content, hn⟩, hraw]
      exact (failsIn_content v).bind fun payload _ => failsIn_writeFramed sizes.here id payload
  | nested framing inner custom omission ih =>
    have hinner := ih (everywhere_nested.1 checked).2 (everywhere_nested.1 sizes).2
      (everywhere_nested.1 unconverted).2 (everywhere_nested.1 tags).2
    rw [bytesOf_nested, beforeEncode_of_check checked.here unconverted.here.converts]
    exact (failsIn_inside hinner (fun p hp => .nested hp) v).bind fun payload _ =>
      failsIn_writeFramed sizes.here id payload
  | array framing element custom ih =>
    have helement := ih (everywhere_array.1 checked).2 (everywhere_array.1 sizes).2
      (everywhere_array.1 unconverted).2 (everywhere_array.1 tags).2
    rw [bytesOf_array, beforeEncode_of_check checked.here.2 unconverted.here.converts]
    exact (failsIn_arrayItems v).bind fun items _ =>
      (failsIn_writeCount sizes.here id items.length).append
        (failsIn_writeEach (failsIn_inside helement fun p hp => .array hp) items)
  | switch idSize idTag cases custom ih =>
    have hcases := (everywhere_switch.1 checked).2
    have hsizes := (everywhere_switch.1 sizes).2
    have hunconverted := (everywhere_switch.1 unconverted).2
    rcases everywhere_switch.1 tags with ⟨⟨tag, rfl⟩, htags⟩
    have hitems : ∀ c ∈ cases, ∀ f ∈ c.fields, ∀ v,
        FailsIn (switch idSize (.text tag) cases custom).ValueFault (f.item.bytesOf v) :=
      fun c hc f hf => failsIn_inside (ih c hc f hf (hcases c hc f hf) (hsizes c hc f hf)
        (hunconverted c hc f hf) (htags c hc f hf)) fun p hp => .switch hc hf hp
    rw [bytesOf_switch, beforeEncode_of_check checked.here.2 unconverted.here.converts]
    exact (failsIn_caseName tag v).bind fun name _ =>
      failsIn_caseBytes (fun c hc => (checked.here.1 c hc).2) hitems name v
  | record fields ih =>
    have hitems : ∀ f ∈ fields, ∀ v, FailsIn (record fields).ValueFault (f.item.bytesOf v) :=
      fun f hf => failsIn_inside (ih f hf ((everywhere_record.1 checked).2 f hf)
        ((everywhere_record.1 sizes).2 f hf) ((everywhere_record.1 unconverted).2 f hf)
        ((everywhere_record.1 tags).2 f hf)) fun p hp => .record hf hp
    rw [bytesOf_record]
    exact (failsIn_recordEntries v).bind fun entries _ => failsIn_fieldBytes hitems entries
  | _ => exact checked.here.elim

end Layout

/-! ## Messages -/

namespace Codec

variable {c : Codec}

/-- What is known of a failure to encode: its cause is a fault of the value, or a width whose range
cannot be formed, but no machine word; and that is also its class unless its sentence cannot be
written. -/
structure RefusesWith (c : Codec) (e : Error) : Prop where
  cause : e.causeKind.OfValue ∨
    e = .misuse .tooLarge ∧ ∃ p, c.layout.HasPart p ∧ p.Oversized
  inside : e ≠ .misuse .outsideWord
  reported : e.kind = e.causeKind ∨ e.spellable = false ∧ e.kind = .valueMisuse

/-- Encoding answers every value, with bytes or with a fault of the value. -/
theorem encode_total (sizes : c.layout.Everywhere Layout.NonNegative)
    (unconverted : c.layout.Everywhere Layout.Unconverted)
    (tags : c.layout.Everywhere Layout.TaggedByText) (v : Value) :
    (∃ b, c.encode v = .ok b) ∨ ∃ e, c.encode v = .error e ∧ c.RefusesWith e := by
  have hfails := Layout.failsIn_bytesOf c.everywhere_checked sizes unconverted tags v
  rw [← encode_eq] at hfails
  cases h : c.encode v with
  | ok b => exact .inl ⟨b, rfl⟩
  | error e =>
    have hreported := kind_or_unspelt e
    refine .inr ⟨e, rfl, ?_⟩
    cases hfails e h with
    | ofValue hvalue =>
      refine ⟨.inl hvalue, ?_, hreported⟩
      rintro rfl
      exact hvalue
    | oversized hp hsize => exact ⟨.inr ⟨rfl, _, hp, hsize⟩, nofun, hreported⟩

/-- A list is no key, so it names no case. -/
theorem encode_total_measured :
    ∃ e, Codec.measured.encode (.dict [("pair", .list [.int 1, .int 2]), ("slot", .raw [7, 8, 9]),
        ("choice", .dict [("kind", .list [])])]) = .error e ∧
      Codec.measured.RefusesWith e ∧ e.kind = .typeMisuse := by
  have unconverted : Layout.measured.Everywhere Layout.Unconverted := by
    simp [Layout.measured, Layout.everywhere_record, Layout.everywhere_nested,
      Layout.everywhere_array, Layout.everywhere_switch, Layout.Unconverted, Layout.conversion?,
      Field.item, Case.fields]
  have tags : Layout.measured.Everywhere Layout.TaggedByText := by
    simp [Layout.measured, Layout.everywhere_record, Layout.everywhere_nested,
      Layout.everywhere_array, Layout.everywhere_switch, Layout.TaggedByText, Field.item,
      Case.fields]
  rcases encode_total (c := .measured) Layout.nonNegative_measured unconverted tags
    (.dict [("pair", .list [.int 1, .int 2]), ("slot", .raw [7, 8, 9]),
      ("choice", .dict [("kind", .list [])])]) with ⟨b, hb⟩ | ⟨e, he, hrefuses⟩
  · cases hb
  · cases he
    exact ⟨_, rfl, hrefuses, rfl⟩

end Codec

/-! ## A width whose range cannot be formed -/

/-- An integer in `2 ^ 70` bytes, and one in a single byte. -/
def Layout.vast : Layout :=
  .record [.mk "a" (.uint 1180591620717411303424 .plain .off), .mk "b" (.uint 1 .plain .off)]

/-- The text in the second field is at fault, but the first field fails before it is looked at, and
not by a fault of the value. -/
theorem Codec.encode_oversized :
    Layout.vast.Built ∧ ∃ c, Codec.compile .vast = .ok c ∧
      c.layout.Everywhere Layout.NonNegative ∧ c.layout.Everywhere Layout.Unconverted ∧
      c.layout.Everywhere Layout.TaggedByText ∧
      ∃ e, c.encode (.dict [("a", .int 1), ("b", .text "x")]) = .error e ∧ e.kind = .overflow ∧
        ¬ e.kind.OfValue := by
  have hfirst : Layout.Built (.uint 1180591620717411303424 .plain .off) :=
    @Layout.Built.uint 1180591620717411303424 .none .off _ rfl
  have hsecond : Layout.Built (.uint 1 .plain .off) := @Layout.Built.uint 1 .none .off _ rfl
  have hbuilt := @Layout.Built.tuple
    [.fieldOf "a" (.uint 1180591620717411303424 .plain .off), .fieldOf "b" (.uint 1 .plain .off)]
    (by simpa using ⟨Layout.Built.field "a" hfirst, Layout.Built.field "b" hsecond⟩)
  have hsize : optionSpellable (some (.plain 1180591620717411303425)) = true := by
    decide +kernel
  rcases Codec.exists_compile (l := .vast) rfl rfl hsize with ⟨c, hcompile, hlayout⟩
  have hlow : 0 ≤ (1180591620717411303424 : Numeral).value := by decide
  have hone : 0 ≤ (1 : Numeral).value := by decide
  have sizes : c.layout.Everywhere Layout.NonNegative := by
    simp [hlayout, Layout.vast, Layout.everywhere_record, Layout.NonNegative, Field.item, hlow,
      hone]
  have unconverted : c.layout.Everywhere Layout.Unconverted := by
    simp [hlayout, Layout.vast, Layout.everywhere_record, Layout.Unconverted, Layout.conversion?,
      Field.item]
  have tags : c.layout.Everywhere Layout.TaggedByText := by
    simp [hlayout, Layout.vast, Layout.everywhere_record, Layout.TaggedByText, Field.item]
  refine ⟨hbuilt, c, hcompile, sizes, unconverted, tags, .misuse .tooLarge, ?_, rfl, id⟩
  rw [Codec.encode_eq, hlayout]
  rfl

end WireLayout
