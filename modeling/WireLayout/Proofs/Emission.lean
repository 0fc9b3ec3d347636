import Mathlib.Data.List.Forall2
import WireLayout.Codec
import WireLayout.Proofs.Outcome
import WireLayout.Proofs.Parts

/-!
# Emission — what encoding writes, as a function of the value

An encoder appends to a writer and never looks at what the writer holds.  So what it does on any
writer follows from what it does on an empty one, and encoding a layout is a function from values to
bytes that puts the encodings of the parts one behind the other.

* `Encoding.AppendOnly` — the writer's content decides nothing and stays in front;
* `Layout.appendOnly_encode` — every layout is encoded in this way;
* `Layout.bytesOf` — the bytes of a value in a layout;
* `Layout.bytesOf_…` — these bytes from those of the parts, one equation for each kind of item.
-/

namespace WireLayout

variable {α β : Type}

/-! ## Writers -/

namespace Writer

theorem eq_of_bytes {w w' : Writer} (h : w.bytes = w'.bytes) : w = w' := by
  rcases w with ⟨⟨content⟩⟩
  rcases w' with ⟨⟨content'⟩⟩
  cases h
  rfl

theorem push_push (w : Writer) (first second : List UInt8) :
    (w.push first).push second = w.push (first ++ second) := by
  apply eq_of_bytes
  simp

@[simp] theorem push_nil (w : Writer) : w.push [] = w := by
  simp [push]

end Writer

namespace Encoding

/-- The outcome of a run with other content in front of what it wrote. -/
def behind (w : Writer) : EStateM.Result Error Writer α → EStateM.Result Error Writer α
  | .ok a w' => .ok a (w.push w'.bytes)
  | .error e w' => .error e (w.push w'.bytes)

/-- The content of the writer decides nothing and stays in front of what is written. -/
def AppendOnly (x : Encoding α) : Prop := ∀ w, x w = behind w (x .empty)

theorem behind_behind (w w' : Writer) (res : EStateM.Result Error Writer α) :
    behind w (behind w' res) = behind (w.push w'.bytes) res := by
  cases res <;> simp [behind, Writer.push_push]

theorem appendOnly_ofExcept (e : Except Error α) : (ofExcept e).AppendOnly := by
  intro w
  cases e <;> simp [ofExcept, behind]

theorem appendOnly_write (bs : List UInt8) : (Writer.write bs).AppendOnly := by
  intro w
  simp [Writer.write, behind]

theorem AppendOnly.bind {x : Encoding α} (hx : x.AppendOnly) {f : α → Encoding β}
    (hf : ∀ a, (f a).AppendOnly) : (x >>= f).AppendOnly := by
  intro w
  have hxw := hx w
  simp only [Bind.bind, EStateM.bind]
  cases h : x .empty with
  | error e t =>
    rw [hxw, h]
    rfl
  | ok a t =>
    rw [hxw, h]
    -- the second run starts on what the first one wrote, in front of which the content stays
    show f a (w.push t.bytes) = behind w (f a t)
    rw [hf a (w.push t.bytes), hf a t, behind_behind]

end Encoding

/-! ## What an encoder writes on its own -/

namespace Writer

theorem collect_ofExcept (e : Except Error Unit) :
    collect (Encoding.ofExcept e) = e.map fun _ => [] := by
  cases e <;> rfl

@[simp] theorem collect_write (bs : List UInt8) : collect (write bs) = .ok bs := by
  simp [collect, write]

/-- A check or a conversion in front of an encoder writes nothing. -/
theorem collect_ofExcept_bind (e : Except Error α) (f : α → Encoding Unit) :
    collect (Encoding.ofExcept e >>= f) = e >>= fun a => collect (f a) := by
  cases e <;> rfl

/-- Two encoders one after the other write one after the other. -/
theorem collect_seq (x : Encoding Unit) {y : Encoding Unit} (hy : y.AppendOnly) :
    collect (x >>= fun _ => y) = (do
      let first ← collect x
      let second ← collect y
      return first ++ second) := by
  simp only [collect, bind, EStateM.bind]
  cases x .empty with
  | error e t => rfl
  | ok a t =>
    -- the second encoder runs behind the first; on its own it writes the same
    simp only [hy t]
    cases y .empty <;> simp [Encoding.behind, Except.bind, pure, Except.pure]

end Writer

open Encoding Writer

theorem appendOnly_writeConstant (expected : Value) (content : List UInt8) (v : Value) :
    (writeConstant expected content v).AppendOnly := by
  unfold writeConstant
  split
  · exact appendOnly_write content
  · split
    · exact appendOnly_write content
    · exact appendOnly_ofExcept _

theorem appendOnly_writeFramed (framing : Framing) (payload : List UInt8) :
    (writeFramed framing payload).AppendOnly := by
  cases framing with
  | fixed size => exact (appendOnly_ofExcept _).bind fun content => appendOnly_write content
  | counted width =>
    exact (appendOnly_ofExcept _).bind fun count =>
      (appendOnly_write count).bind fun _ => appendOnly_write payload
  | unframed => exact appendOnly_write payload

theorem appendOnly_writeCount (framing : Framing) (count : Nat) :
    (writeCount framing count).AppendOnly := by
  cases framing with
  | fixed n => exact appendOnly_ofExcept _
  | counted width => exact (appendOnly_ofExcept _).bind fun content => appendOnly_write content
  | unframed => exact appendOnly_ofExcept (.ok ())

theorem appendOnly_writeEach {element : Value → Encoding Unit} (h : ∀ v, (element v).AppendOnly)
    (items : List Value) : (writeEach element items).AppendOnly := by
  induction items with
  | nil => exact appendOnly_ofExcept _
  | cons v items ih => exact (h v).bind fun _ => ih

namespace Layout

theorem appendOnly_encodeFields {fields : List Field}
    (h : ∀ f ∈ fields, ∀ v, (f.item.encode v).AppendOnly) (entries : List (Label × Value)) :
    (encodeFields fields entries).AppendOnly := by
  induction fields with
  | nil => exact appendOnly_ofExcept _
  | cons f fields ih =>
    rcases f with ⟨name, item⟩
    rcases List.forall_mem_cons.1 h with ⟨hitem, hfields⟩
    exact (appendOnly_ofExcept _).bind fun v => (hitem v).bind fun _ => ih hfields

theorem appendOnly_encodeCase (idSize : Numeral) {cases : List Case}
    (h : ∀ c ∈ cases, ∀ f ∈ c.fields, ∀ v, (f.item.encode v).AppendOnly) (name v : Value) :
    (encodeCase idSize cases name v).AppendOnly := by
  induction cases with
  | nil => exact appendOnly_ofExcept _
  | cons c cases ih =>
    rcases c with ⟨id, caseName, fields⟩
    rcases List.forall_mem_cons.1 h with ⟨hfields, hcases⟩
    unfold encodeCase
    split
    · exact (appendOnly_ofExcept _).bind fun tag => (appendOnly_write tag).bind fun _ =>
        (appendOnly_ofExcept _).bind fun entries => appendOnly_encodeFields hfields entries
    · exact ih hcases

/-- Encoding a layout never depends on what was written before. -/
theorem appendOnly_encode (l : Layout) (v : Value) : (l.encode v).AppendOnly := by
  -- the term follows the steps of the encoder one by one
  induction l generalizing v with
  | uint size custom omission =>
    cases custom with
    | constant n =>
      exact (appendOnly_ofExcept _).bind fun content => appendOnly_writeConstant _ content v
    | _ =>
      exact (appendOnly_ofExcept _).bind fun raw => (appendOnly_ofExcept _).bind fun content =>
        appendOnly_write content
  | blob framing custom omission =>
    cases custom with
    | constant content => exact appendOnly_writeConstant _ content v
    | _ =>
      exact (appendOnly_ofExcept _).bind fun raw => (appendOnly_ofExcept _).bind fun payload =>
        appendOnly_writeFramed framing payload
  | nested framing inner custom omission ih =>
    cases framing with
    | unframed => exact (appendOnly_ofExcept _).bind fun raw => ih raw
    | _ =>
      exact (appendOnly_ofExcept _).bind fun raw => (appendOnly_ofExcept _).bind fun payload =>
        appendOnly_writeFramed _ payload
  | array framing element custom ih =>
    exact (appendOnly_ofExcept _).bind fun raw => (appendOnly_ofExcept _).bind fun items =>
      (appendOnly_writeCount framing _).bind fun _ => appendOnly_writeEach ih items
  | switch idSize idTag cases custom ih =>
    exact (appendOnly_ofExcept _).bind fun raw => (appendOnly_ofExcept _).bind fun name =>
      appendOnly_encodeCase idSize ih name raw
  | record fields ih =>
    exact (appendOnly_ofExcept _).bind fun entries => appendOnly_encodeFields ih entries
  | _ => exact appendOnly_ofExcept _

/-! ## The bytes of a value -/

/-- The bytes of a value in a layout. -/
def bytesOf (l : Layout) (v : Value) : Except Error (List UInt8) := collect (l.encode v)

/-- The bytes of the fields of a record. -/
def fieldBytes (fields : List Field) (entries : List (Label × Value)) : Except Error (List UInt8) :=
  collect (encodeFields fields entries)

/-- The bytes of the case with a name. -/
def caseBytes (idSize : Numeral) (cases : List Case) (name v : Value) :
    Except Error (List UInt8) :=
  collect (encodeCase idSize cases name v)

end Layout

theorem Codec.encode_eq (c : Codec) (v : Value) : c.encode v = c.layout.bytesOf v := rfl

theorem collect_writeConstant_ok_iff {expected v : Value} {content b : List UInt8} :
    collect (writeConstant expected content v) = .ok b ↔
      b = content ∧ (v = .none ∨ v.same expected = true) := by
  unfold writeConstant
  split
  · rw [collect_write, Except.ok.injEq]
    exact ⟨fun h => ⟨h.symm, .inl rfl⟩, fun h => h.1.symm⟩
  · rename_i hnone
    split
    · rename_i hsame
      rw [collect_write, Except.ok.injEq]
      exact ⟨fun h => ⟨h.symm, .inr hsame⟩, fun h => h.1.symm⟩
    · rename_i hsame
      constructor
      · intro h
        cases h
      · intro h
        rcases h with ⟨_, h | h⟩
        · exact absurd h hnone
        · exact absurd h hsame

namespace Framing

/-- What is written before a payload of a size, or before a number of elements. -/
def Announces : Framing → (head : List UInt8) → (count : Nat) → Prop
  | .fixed n, head, count => head = [] ∧ (count : Int) = n.value
  | .counted width, head, count => Uint.bytesOf count width = .ok head
  | .unframed, head, _ => head = []

end Framing

theorem collect_writeFramed_ok_iff {framing : Framing} {payload b : List UInt8} :
    collect (writeFramed framing payload) = .ok b ↔
      ∃ head, framing.Announces head payload.length ∧ b = head ++ payload := by
  cases framing with
  | fixed size =>
    simp only [writeFramed, collect_ofExcept_bind, collect_write, Except.bind_ok_iff, Block.exactly,
      Framing.Announces]
    by_cases hsize : (payload.length : Int) = size.value <;> simp [hsize, eq_comm]
  | counted width =>
    simp only [writeFramed, collect_ofExcept_bind, Except.bind_ok_iff, Framing.Announces,
      collect_seq _ (appendOnly_write payload), collect_write, Except.pure_ok_iff]
    constructor
    · intro h
      rcases h with ⟨head, hhead, _, ⟨⟩, _, ⟨⟩, rfl⟩
      exact ⟨head, hhead, rfl⟩
    · intro h
      rcases h with ⟨head, hhead, rfl⟩
      exact ⟨head, hhead, head, rfl, payload, rfl, rfl⟩
  | unframed => simp [writeFramed, Framing.Announces, eq_comm]

theorem arrayItems_ok_iff {v : Value} {items : List Value} :
    arrayItems v = .ok items ↔ v = .list items ∨ v = .tuple items := by
  cases v <;> simp [arrayItems]

theorem arrayItems_error_iff {v : Value} {e : Error} :
    arrayItems v = .error e ↔ (∀ items, v ≠ .list items) ∧ (∀ items, v ≠ .tuple items) ∧
      e = .unexpected .arrayItems v.typeName := by
  cases v <;> simp [arrayItems, eq_comm]

theorem collect_writeCount_ok_iff {framing : Framing} {count : Nat} {head : List UInt8} :
    collect (writeCount framing count) = .ok head ↔ framing.Announces head count := by
  cases framing with
  | fixed n =>
    simp only [writeCount, collect_ofExcept, Framing.Announces]
    by_cases hn : (count : Int) = n.value <;> simp [hn, Except.map, eq_comm]
  | counted width =>
    simp [writeCount, collect_ofExcept_bind, Framing.Announces]
  | unframed =>
    simp [writeCount, collect_ofExcept, Except.map, Framing.Announces, eq_comm]

theorem collect_writeEach_cons {element : Value → Encoding Unit} (h : ∀ v, (element v).AppendOnly)
    (v : Value) (items : List Value) :
    collect (writeEach element (v :: items)) = (do
      let first ← collect (element v)
      let later ← collect (writeEach element items)
      return first ++ later) :=
  collect_seq _ (appendOnly_writeEach h items)

theorem collect_writeEach_cons_ok_iff {element : Value → Encoding Unit}
    (h : ∀ v, (element v).AppendOnly) {v : Value} {items : List Value} {b : List UInt8} :
    collect (writeEach element (v :: items)) = .ok b ↔
      ∃ first later, collect (element v) = .ok first ∧
        collect (writeEach element items) = .ok later ∧ b = first ++ later := by
  rw [collect_writeEach_cons h]
  exact Except.append_ok_iff

/-- Elements are written one behind the other. -/
theorem collect_writeEach_ok_iff {element : Value → Encoding Unit}
    (h : ∀ v, (element v).AppendOnly) {items : List Value} {b : List UInt8} :
    collect (writeEach element items) = .ok b ↔
      ∃ parts, List.Forall₂ (fun v part => collect (element v) = .ok part) items parts ∧
        b = parts.flatten := by
  induction items generalizing b with
  | nil =>
    constructor
    · intro hb
      cases hb
      exact ⟨[], .nil, rfl⟩
    · intro hb
      rcases hb with ⟨_, ⟨⟩, rfl⟩
      rfl
  | cons v items ih =>
    rw [collect_writeEach_cons_ok_iff h]
    constructor
    · intro hb
      rcases hb with ⟨first, later, hfirst, hlater, rfl⟩
      rcases ih.1 hlater with ⟨parts, hparts, rfl⟩
      exact ⟨first :: parts, .cons hfirst hparts, rfl⟩
    · intro hb
      rcases hb with ⟨_, _ | ⟨hfirst, hparts⟩, rfl⟩
      exact ⟨_, _, hfirst, ih.2 ⟨_, hparts, rfl⟩, rfl⟩

namespace Layout

variable {framing : Framing} {omission : Omission}

/-! ### Items -/

theorem bytesOf_uint_constant_ok_iff {size n : Numeral} {v : Value} {b : List UInt8} :
    bytesOf (.uint size (.constant n) omission) v = .ok b ↔
      Uint.encode (.ofNumeral n) size = .ok b ∧ (v = .none ∨ v.same (.ofNumeral n) = true) := by
  simp only [bytesOf, encode, writeUint, collect_ofExcept_bind, Except.bind_ok_iff,
    collect_writeConstant_ok_iff]
  constructor
  · intro h
    rcases h with ⟨_, hcontent, rfl, hv⟩
    exact ⟨hcontent, hv⟩
  · intro h
    exact ⟨b, h.1, rfl, h.2⟩

theorem bytesOf_uint {size : Numeral} {custom : Custom Numeral}
    (h : ∀ n, custom ≠ .constant n) (v : Value) :
    bytesOf (.uint size custom omission) v = (do
      let raw ← custom.beforeEncode v
      Uint.encode raw size) := by
  cases custom with
  | constant n => exact absurd rfl (h n)
  | _ => simp only [bytesOf, encode, writeUint, collect_ofExcept_bind, collect_write,
      Except.bind_ok_eq]

theorem bytesOf_uint_ok_iff {size : Numeral} {custom : Custom Numeral}
    (h : ∀ n, custom ≠ .constant n) {v : Value} {b : List UInt8} :
    bytesOf (.uint size custom omission) v = .ok b ↔
      ∃ raw, custom.beforeEncode v = .ok raw ∧ Uint.encode raw size = .ok b := by
  rw [bytesOf_uint h, Except.bind_ok_iff]

theorem bytesOf_blob_constant_ok_iff {content : List UInt8} {v : Value} {b : List UInt8} :
    bytesOf (.blob framing (.constant content) omission) v = .ok b ↔
      b = content ∧ (v = .none ∨ v.same (.raw content) = true) :=
  collect_writeConstant_ok_iff

theorem bytesOf_blob {custom : Custom (List UInt8)} (h : ∀ content, custom ≠ .constant content)
    (v : Value) :
    bytesOf (.blob framing custom omission) v = (do
      let raw ← custom.beforeEncode v
      let payload ← Block.content raw
      collect (writeFramed framing payload)) := by
  cases custom with
  | constant content => exact absurd rfl (h content)
  | _ => simp only [bytesOf, encode, writeBlob, collect_ofExcept_bind]

theorem bytesOf_blob_ok_iff {custom : Custom (List UInt8)}
    (h : ∀ content, custom ≠ .constant content) {v : Value} {b : List UInt8} :
    bytesOf (.blob framing custom omission) v = .ok b ↔
      ∃ raw payload head, custom.beforeEncode v = .ok raw ∧ Block.content raw = .ok payload ∧
        framing.Announces head payload.length ∧ b = head ++ payload := by
  simp only [bytesOf_blob h, Except.bind_ok_iff, collect_writeFramed_ok_iff]
  constructor
  · intro hb
    rcases hb with ⟨raw, hraw, payload, hpayload, head, hhead, rfl⟩
    exact ⟨raw, payload, head, hraw, hpayload, hhead, rfl⟩
  · intro hb
    rcases hb with ⟨raw, payload, head, hraw, hpayload, hhead, rfl⟩
    exact ⟨raw, hraw, payload, hpayload, head, hhead, rfl⟩

theorem bytesOf_nested (inner : Layout) (custom : Custom Empty) (v : Value) :
    bytesOf (.nested framing inner custom omission) v = (do
      let raw ← custom.beforeEncode v
      let payload ← bytesOf inner raw
      collect (writeFramed framing payload)) := by
  cases framing with
  | unframed => simp only [bytesOf, encode, writeFramed, collect_ofExcept_bind, collect_write,
      Except.bind_ok_eq]
  | _ => simp only [bytesOf, encode, collect_ofExcept_bind]

theorem bytesOf_nested_ok_iff {inner : Layout} {custom : Custom Empty} {v : Value}
    {b : List UInt8} :
    bytesOf (.nested framing inner custom omission) v = .ok b ↔
      ∃ raw payload head, custom.beforeEncode v = .ok raw ∧ bytesOf inner raw = .ok payload ∧
        framing.Announces head payload.length ∧ b = head ++ payload := by
  simp only [bytesOf_nested, Except.bind_ok_iff, collect_writeFramed_ok_iff]
  constructor
  · intro hb
    rcases hb with ⟨raw, hraw, payload, hpayload, head, hhead, rfl⟩
    exact ⟨raw, payload, head, hraw, hpayload, hhead, rfl⟩
  · intro hb
    rcases hb with ⟨raw, payload, head, hraw, hpayload, hhead, rfl⟩
    exact ⟨raw, hraw, payload, hpayload, head, hhead, rfl⟩

theorem bytesOf_array (element : Layout) (custom : Custom Empty) (v : Value) :
    bytesOf (.array framing element custom) v = (do
      let raw ← custom.beforeEncode v
      let items ← arrayItems raw
      let head ← collect (writeCount framing items.length)
      let body ← collect (writeEach element.encode items)
      return head ++ body) := by
  simp only [bytesOf, encode, collect_ofExcept_bind,
    collect_seq _ (appendOnly_writeEach element.appendOnly_encode _)]

theorem bytesOf_array_ok_iff {element : Layout} {custom : Custom Empty} {v : Value}
    {b : List UInt8} :
    bytesOf (.array framing element custom) v = .ok b ↔
      ∃ raw items head body, custom.beforeEncode v = .ok raw ∧ arrayItems raw = .ok items ∧
        framing.Announces head items.length ∧ collect (writeEach element.encode items) = .ok body ∧
        b = head ++ body := by
  simp only [bytesOf_array, Except.bind_ok_iff, collect_writeCount_ok_iff, Except.pure_ok_iff]
  constructor
  · intro hb
    rcases hb with ⟨raw, hraw, items, hitems, head, hhead, body, hbody, rfl⟩
    exact ⟨raw, items, head, body, hraw, hitems, hhead, hbody, rfl⟩
  · intro hb
    rcases hb with ⟨raw, items, head, body, hraw, hitems, hhead, hbody, rfl⟩
    exact ⟨raw, hraw, items, hitems, head, hhead, body, hbody, rfl⟩

/-! ### Records and switches -/

theorem bytesOf_record (fields : List Field) (v : Value) :
    bytesOf (.record fields) v = recordEntries v >>= fieldBytes fields := by
  simp only [bytesOf, encode, collect_ofExcept_bind]
  rfl

theorem input_of_isOmitted {item : Layout} (h : item.isOmitted = true) (name : Label)
    (entries : List (Label × Value)) : item.input name entries = .ok .none := by
  cases item with
  | uint size custom omission => cases custom <;> simp_all [isOmitted, input, constancy]
  | blob framing custom omission => cases custom <;> simp_all [isOmitted, input, constancy]
  | _ => simp [isOmitted] at h

theorem input_of_entry {item : Layout} (h : item.isOmitted = false) {name : Label}
    {entries : List (Label × Value)} {v : Value} (hv : Value.entry? name entries = some v) :
    item.input name entries = .ok v := by
  cases item with
  | uint size custom omission => cases custom <;> simp_all [isOmitted, input, constancy]
  | blob framing custom omission => cases custom <;> simp_all [isOmitted, input, constancy]
  | _ => simp [input, constancy, hv]

theorem fieldBytes_nil (entries : List (Label × Value)) : fieldBytes [] entries = .ok [] := rfl

theorem fieldBytes_cons (name : Label) (item : Layout) (fields : List Field)
    (entries : List (Label × Value)) :
    fieldBytes (.mk name item :: fields) entries = (do
      let v ← item.input name entries
      let first ← bytesOf item v
      let later ← fieldBytes fields entries
      return first ++ later) := by
  have hfields :=
    appendOnly_encodeFields (fun f (_ : f ∈ fields) => f.item.appendOnly_encode) entries
  simp only [fieldBytes, bytesOf, encodeFields, collect_ofExcept_bind, collect_seq _ hfields]

theorem fieldBytes_cons_ok_iff {name : Label} {item : Layout} {fields : List Field}
    {entries : List (Label × Value)} {b : List UInt8} :
    fieldBytes (.mk name item :: fields) entries = .ok b ↔
      ∃ v first later, item.input name entries = .ok v ∧ bytesOf item v = .ok first ∧
        fieldBytes fields entries = .ok later ∧ b = first ++ later := by
  rw [fieldBytes_cons, Except.bind_ok_iff]
  constructor
  · intro hb
    rcases hb with ⟨v, hv, hb⟩
    rcases Except.append_ok_iff.1 hb with ⟨first, later, hfirst, hlater, rfl⟩
    exact ⟨v, first, later, hv, hfirst, hlater, rfl⟩
  · intro hb
    rcases hb with ⟨v, first, later, hv, hfirst, hlater, rfl⟩
    exact ⟨v, hv, Except.append_ok_iff.2 ⟨first, later, hfirst, hlater, rfl⟩⟩

theorem bytesOf_record_ok_iff {fields : List Field} {v : Value} {b : List UInt8} :
    bytesOf (.record fields) v = .ok b ↔
      ∃ entries, v = .dict entries ∧ fieldBytes fields entries = .ok b := by
  rw [bytesOf_record, Except.bind_ok_iff]
  refine exists_congr fun entries => and_congr_left fun _ => ?_
  cases v <;> simp [recordEntries]

theorem bytesOf_switch (idSize : Numeral) (idTag : Label) (cases : List Case)
    (custom : Custom Empty) (v : Value) :
    bytesOf (.switch idSize idTag cases custom) v = (do
      let raw ← custom.beforeEncode v
      let name ← caseName idTag raw
      caseBytes idSize cases name raw) := by
  simp only [bytesOf, encode, collect_ofExcept_bind, caseBytes]

theorem bytesOf_switch_ok_iff {idSize : Numeral} {idTag : Label} {cases : List Case}
    {custom : Custom Empty} {v : Value} {b : List UInt8} :
    bytesOf (.switch idSize idTag cases custom) v = .ok b ↔
      ∃ raw name, custom.beforeEncode v = .ok raw ∧ caseName idTag raw = .ok name ∧
        caseBytes idSize cases name raw = .ok b := by
  simp only [bytesOf_switch, Except.bind_ok_iff]
  constructor
  · intro hb
    rcases hb with ⟨raw, hraw, name, hname, hb⟩
    exact ⟨raw, name, hraw, hname, hb⟩
  · intro hb
    rcases hb with ⟨raw, name, hraw, hname, hb⟩
    exact ⟨raw, hraw, name, hname, hb⟩

theorem caseBytes_cons (idSize id : Numeral) (caseName : Label) (fields : List Field)
    (cases : List Case) (name v : Value) :
    caseBytes idSize (.mk id caseName fields :: cases) name v =
      if name.same (.ofLabel caseName) then do
        let tag ← Uint.encode (.ofNumeral id) idSize
        let body ← bytesOf (.record fields) v
        return tag ++ body
      else caseBytes idSize cases name v := by
  have hfields := fun entries =>
    appendOnly_encodeFields (fun f (_ : f ∈ fields) => f.item.appendOnly_encode) entries
  have hrecord := (appendOnly_ofExcept (recordEntries v)).bind hfields
  unfold caseBytes
  rw [encodeCase]
  split
  · simp only [collect_ofExcept_bind, collect_seq _ hrecord, collect_write, bytesOf_record]
    rfl
  · rfl

/-- What a switch wrote was written by a case with the given name. -/
theorem mem_of_caseBytes {idSize : Numeral} {cases : List Case} {name v : Value} {b : List UInt8}
    (h : caseBytes idSize cases name v = .ok b) :
    ∃ c ∈ cases, name.same (.ofLabel c.name) = true ∧ ∃ tag body,
      Uint.encode (.ofNumeral c.id) idSize = .ok tag ∧
        bytesOf (.record c.fields) v = .ok body ∧ b = tag ++ body := by
  induction cases with
  | nil => cases h
  | cons c cases ih =>
    rcases c with ⟨id, caseName, fields⟩
    rw [caseBytes_cons] at h
    by_cases hname : name.same (.ofLabel caseName) = true
    · rw [if_pos hname] at h
      rcases Except.append_ok_iff.1 h with ⟨tag, body, htag, hbody, rfl⟩
      exact ⟨_, List.mem_cons_self, hname, tag, body, htag, hbody, rfl⟩
    · rw [if_neg hname] at h
      rcases ih h with ⟨c, hc, hcase⟩
      exact ⟨c, List.mem_cons_of_mem _ hc, hcase⟩

end Layout

end WireLayout
