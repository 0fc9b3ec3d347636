import WireLayout.Proofs.PriceUpdate.Padding
import WireLayout.Proofs.PriceUpdate.Slot

/-!
# Schema — schemas built from records of plain integers

The slots of a schema may hold the parameters in any order and in any number of bytes.  Whatever
record of plain integers a schema was built from, it unpacks what it packed, and packs what it
unpacked but for the bytes behind the parameters.

* `FeeSchema.BuiltFrom` — the schemas that are built from plain integers of given names and sizes;
* `FeeSchema.BuiltFrom.holds` — their slots hold these integers;
* `FeeSchema.Holds.unpack_pack`, `FeeSchema.Holds.pack_unpack` — packing and unpacking are inverses.
-/

namespace WireLayout

open PriceUpdate

/-! ## Records of plain integers -/

namespace PriceUpdate

/-- A field with a plain integer of a given name and size. -/
def IsPlainField (param : Label × Int) (f : Field) : Prop :=
  ∃ (size : Numeral) (omission : Omission),
    f = .mk param.1 (.uint size .plain omission) ∧ size.value = param.2

variable {params : List (Label × Int)} {fields : List Field}

theorem recordSize_of_plain (plain : List.Forall₂ IsPlainField params fields) (total : Int) :
    Layout.recordSize total fields = .ok (some (.plain (total + totalSize params))) := by
  induction plain generalizing total with
  | nil =>
    rw [totalSize, Int.add_zero]
    rfl
  | cons hfirst _ ih =>
    rcases hfirst with ⟨size, omission, rfl, hsize⟩
    rw [Layout.recordSize, Layout.staticSize, Except.ok_bind, totalSize, ← Int.add_assoc, ← hsize]
    exact ih _

theorem holdsParameters_padded (plain : List.Forall₂ IsPlainField params fields) (count : Nat) :
    HoldsParameters count params (fields ++ [Layout.padding count]) := by
  induction plain with
  | nil => exact .reserved rfl
  | @cons param _ _ _ hfirst _ ih =>
    rcases param with ⟨name, n⟩
    rcases hfirst with ⟨size, omission, rfl, rfl⟩
    exact .integer ih

/-- Only padding makes a slot from a record of plain integers. -/
theorem padded_of_padToSlot {l filled : Layout} {slotSize : Option Numeral}
    (record : l.settle = .record fields) (plain : List.Forall₂ IsPlainField params fields)
    (h : padToSlot l slotSize = .ok filled) : ∃ count, filled = .padded fields count := by
  have hmeasure : l.measure = .ok (some (.plain (0 + totalSize params))) := by
    rw [Layout.measure, record, Layout.staticSize]
    exact recordSize_of_plain plain 0
  cases slotSize with
  | none =>
    rw [padToSlot, hmeasure] at h
    cases h
  | some slot =>
    rw [padToSlot_record record hmeasure, padFields] at h
    split at h
    · cases h
    · split at h
      · cases h
      · cases h
        exact ⟨_, rfl⟩

/-- Bytes with zeros in the place of all but the leading ones. -/
def zeroedBehind (size : Nat) (content : List UInt8) : List UInt8 :=
  content.take size ++ List.replicate (content.length - size) 0

end PriceUpdate

/-! ## Schemas -/

namespace FeeSchema

/-- A schema is built by padding a layout and compiling what results. -/
theorem build_ok_iff {platform : Platform} {kind : FeeKind} {l : Layout}
    {slotSize : Option Numeral} {s s' : Registry} {schema : FeeSchema} :
    FeeSchema.build platform kind l slotSize s = .ok schema s' ↔
      ∃ filled c, padToSlot l slotSize = .ok filled ∧ Registry.compile filled s = .ok c s' ∧
        schema = ⟨platform, kind, c, fieldNames l⟩ := by
  unfold build
  simp only [EStateM.bind_ok_iff, Building.ofExcept_ok_iff]
  constructor
  · rintro ⟨filled, _, ⟨hfilled, rfl⟩, c, _, hcompile, ⟨⟩⟩
    exact ⟨filled, c, hfilled, hcompile, rfl⟩
  · rintro ⟨filled, c, hfilled, hcompile, rfl⟩
    exact ⟨filled, s, ⟨hfilled, rfl⟩, c, s', hcompile, rfl⟩

/-- A schema that was built, in any registry and for a slot of any size, from a record of plain
integers of positive sizes that are named like the parameters of its kind. -/
inductive BuiltFrom (params : List (Label × Int)) : FeeSchema → Prop where
  | intro {platform : Platform} {kind : FeeKind} {l : Layout} {fields : List Field}
      {slotSize : Option Numeral} {s s' : Registry} {schema : FeeSchema}
      (record : l.settle = .record fields) (plain : List.Forall₂ IsPlainField params fields)
      (positive : ∀ p ∈ params, 0 < p.2) (names : (params.map Prod.fst).Perm kind.parameterNames)
      (built : FeeSchema.build platform kind l slotSize s = .ok schema s') :
    BuiltFrom params schema

variable {schema : FeeSchema} {padding : Nat} {params : List (Label × Int)}

theorem BuiltFrom.holds (h : schema.BuiltFrom params) : ∃ padding, schema.Holds padding params := by
  rcases h with ⟨record, plain, positive, names, built⟩
  rcases build_ok_iff.1 built with ⟨filled, c, hfilled, hcompile, rfl⟩
  rcases padded_of_padToSlot record plain hfilled with ⟨count, rfl⟩
  have hholds := holdsParameters_padded plain count
  refine ⟨count, names, fun p hp => Int.le_of_lt (positive p hp), ?_⟩
  -- the codec is new, or one of an equal description that the registry had
  rcases Registry.compile_ok hcompile with ⟨frozen, hform, hlayout⟩
  cases Codec.eq_settle_of_lookUpForm hform
  rcases hlayout with hlayout | hlayout
  · exact ⟨_, hlayout, hholds⟩
  · exact hholds.of_same (fun p => exists_text names) hlayout c.everywhere_checked

/-! ## Packing and unpacking -/

variable {u v w fees : Value} {content bs : List UInt8}

/-- Parameters that were packed are unpacked as equal ones. -/
theorem Holds.unpack_pack (h : schema.Holds padding params)
    (hpack : schema.pack (schema.kind.build u v w) = .ok bs) :
    ∃ fees, schema.unpack (.raw bs) = .ok fees ∧ fees.same (schema.kind.build u v w) = true := by
  rcases h.pack_ok_iff.1 hpack with ⟨parts, hparts, rfl⟩
  have hmeasures : List.Forall₂ Measures params parts := hparts.imp fun p part hpart => by
    rcases hpart with ⟨_, _, hencode⟩
    exact Uint.length_of_encode hencode
  rcases exists_readsParameter h.names hmeasures with ⟨u', v', w', hread⟩
  refine ⟨_, h.unpack_ok_iff.2 ⟨u', v', w', parts, _, rfl, rfl, List.length_replicate, hread⟩, ?_⟩
  -- under each name stands the number that was read from the bytes written for it
  have hsame : ∀ name ∈ schema.kind.parameterNames, ∃ found value,
      Value.entry? name (schema.kind.named u' v' w') = some found ∧
        Value.entry? name (schema.kind.named u v w) = some value ∧ found.same value = true := by
    intro name hname
    rcases exists_part hparts (h.names.mem_iff.2 hname) with
      ⟨p, part, rfl, hmem, value, hvalue, hencode⟩
    exact ⟨_, value, ((List.forall₂_iff_zip.1 hread).2 hmem).1, hvalue, Uint.same_of_encode hencode⟩
  rcases exists_parameterNames schema.kind with ⟨x, y, z, names⟩
  rcases entry?_named names u v w with ⟨hx, hy, hz⟩
  rcases entry?_named names u' v' w' with ⟨hx', hy', hz'⟩
  simp only [names, List.forall_mem_cons, hx, hy, hz, hx', hy', hz', Option.some.injEq] at hsame
  rcases hsame with ⟨⟨_, _, rfl, rfl, hu⟩, ⟨_, _, rfl, rfl, hv⟩, ⟨_, _, rfl, rfl, hw⟩, _⟩
  rw [same_build, hu, hv, hw]
  rfl

/-- Bytes that were unpacked are packed again, with zeros behind the parameters. -/
theorem Holds.pack_unpack (h : schema.Holds padding params) {form : BytesForm}
    (hlimit : (content.length : Int) < widthLimit)
    (hunpack : schema.unpack (.bytes form content) = .ok fees) :
    (∃ u v w, fees = schema.kind.build u v w) ∧
      schema.pack fees = .ok (zeroedBehind (totalSize params).toNat content) := by
  rcases h.unpack_ok_iff.1 hunpack with ⟨u, v, w, parts, tail, rfl, rfl, rfl, hread⟩
  refine ⟨⟨u, v, w, rfl⟩, h.pack_ok_iff.2 ⟨parts, ?_, ?_⟩⟩
  · refine List.forall₂_iff_zip.2 ⟨hread.length_eq, fun {p part} hmem => ?_⟩
    rcases (List.forall₂_iff_zip.1 hread).2 hmem with ⟨hentry, hpart⟩
    have hle : part.length ≤ parts.flatten.length :=
      (List.sublist_flatten_of_mem (List.of_mem_zip hmem).2).length_le
    have hpartLimit : (part.length : Int) < widthLimit := by
      rw [List.length_append] at hlimit
      omega
    exact ⟨_, hentry, Uint.encode_ok_iff.2 ⟨_, rfl, Uint.bytesOf_decode hpart hpartLimit⟩⟩
  · have hsize := length_flatten_of_measures (hread.imp fun _ _ hpart => hpart.2)
    rw [← hsize, Int.toNat_natCast, zeroedBehind, List.take_left, List.length_append,
      Nat.add_sub_cancel_left]

end FeeSchema

end WireLayout
