import WireLayout.PriceUpdate.Schema
import WireLayout.Proofs.PriceUpdate.Parameters

/-!
# Slot — the bytes of fee parameters

A slot holds three integers, and zero bytes up to its size.  The codec of a slot may have been
compiled earlier from an equal description, so its attributes may be spelt in other ways; what
counts is that it writes and reads the parameters under their names.

* `FeeKind.named` — three values under the names of the parameters;
* `FeeSchema.Holds` — the slots of a schema hold the parameters of its kind, in some order;
* `FeeSchema.Holds.pack_ok_iff`, `FeeSchema.Holds.unpack_ok_iff` — how these are written and read;
* `PriceUpdate.IsSlot` — the descriptions of slots for messages, with integers of four, four and six
  bytes;
* `FeeSchema.unpack_ok_iff` — what such a slot holds: the bytes at its end do not matter;
* `FeeSchema.pack_ok_iff` — how parameters are written in it: the bytes at the end are zero.
-/

namespace WireLayout

open Piece

/-! ## Copies of integers -/

namespace Value

theorem integer?_of_plainCopy {v copy : Value} (h : v.plainCopy = .ok copy) :
    Uint.integer? copy = Uint.integer? v := by
  cases v with
  | bytes form content => cases form <;> cases h <;> rfl
  | list items =>
    rcases Except.bind_ok_iff.1 h with ⟨copies, _, hcopy⟩
    cases hcopy
    rfl
  | tuple items =>
    rcases Except.bind_ok_iff.1 h with ⟨copies, _, hcopy⟩
    cases hcopy
    rfl
  | dict entries =>
    rcases Except.bind_ok_iff.1 h with ⟨copies, _, hcopy⟩
    cases hcopy
    rfl
  | evmFees a b c =>
    simp only [Value.plainCopy, Except.bind_ok_iff, Except.pure_ok_iff] at h
    rcases h with ⟨_, _, _, _, _, _, rfl⟩
    rfl
  | solanaFees a b c =>
    simp only [Value.plainCopy, Except.bind_ok_iff, Except.pure_ok_iff] at h
    rcases h with ⟨_, _, _, _, _, _, rfl⟩
    rfl
  | command a b =>
    simp only [Value.plainCopy, Except.bind_ok_iff, Except.pure_ok_iff] at h
    rcases h with ⟨_, _, _, _, rfl⟩
    rfl
  | chainCommand a b =>
    simp only [Value.plainCopy, Except.bind_ok_iff, Except.pure_ok_iff] at h
    rcases h with ⟨_, _, _, _, rfl⟩
    rfl
  | _ =>
    cases h
    rfl

variable {v copy : Value} {width : Numeral} {bs : List UInt8}

/-- Values that spell integers have no parts, so they are their own copies. -/
theorem plainCopy_of_encode (h : Uint.encode v width = .ok bs) : v.plainCopy = .ok v := by
  rcases Uint.encode_ok_iff.1 h with ⟨n, hn, _⟩
  cases v with
  | int n => rfl
  | chain c => rfl
  | _ => cases hn

/-- A copy that is written as an integer is what was copied. -/
theorem eq_of_plainCopy (hcopy : v.plainCopy = .ok copy) (h : Uint.encode copy width = .ok bs) :
    copy = v := by
  have hencode : Uint.encode v width = .ok bs := by
    rw [Uint.encode_ok_iff, integer?_of_plainCopy hcopy] at h
    exact Uint.encode_ok_iff.2 h
  rw [plainCopy_of_encode hencode, Except.ok.injEq] at hcopy
  exact hcopy.symm

end Value

/-! ## Fee parameters under their names -/

/-- Three values under the names of the parameters. -/
def FeeKind.named (kind : FeeKind) (u v w : Value) : List (Label × Value) :=
  kind.parameterNames.zip [u, v, w]

namespace PriceUpdate

variable {kind : FeeKind} {u v w : Value} {entries : List (Label × Value)}
  {params : List (Label × Int)} {parts : List (List UInt8)}

theorem exists_parameterNames (kind : FeeKind) : ∃ x y z, kind.parameterNames = [x, y, z] := by
  cases kind <;> exact ⟨_, _, _, rfl⟩

theorem entry?_named {x y z : Label} (names : kind.parameterNames = [x, y, z]) (u v w : Value) :
    Value.entry? x (kind.named u v w) = some u ∧ Value.entry? y (kind.named u v w) = some v ∧
      Value.entry? z (kind.named u v w) = some w := by
  cases kind <;> cases names <;> exact ⟨rfl, rfl, rfl⟩

/-- What holds of the value under each name holds of the three values. -/
theorem forall_named {P : Value → Prop}
    (h : ∀ name ∈ kind.parameterNames, ∃ value,
      Value.entry? name (kind.named u v w) = some value ∧ P value) : P u ∧ P v ∧ P w := by
  rcases exists_parameterNames kind with ⟨x, y, z, names⟩
  rcases entry?_named names u v w with ⟨hx, hy, hz⟩
  simp only [names, List.forall_mem_cons, hx, hy, hz, Option.some.injEq, exists_eq_left'] at h
  exact ⟨h.1, h.2.1, h.2.2.1⟩

theorem toDict_build_ok_iff {dict : Value} :
    (kind.build u v w).toDict = .ok dict ↔
      ∃ u' v' w', u.plainCopy = .ok u' ∧ v.plainCopy = .ok v' ∧ w.plainCopy = .ok w' ∧
        dict = .dict (kind.named u' v' w') := by
  have hsteps : (kind.build u v w).toDict = (do
      let u' ← u.plainCopy
      let v' ← v.plainCopy
      let w' ← w.plainCopy
      return .dict (kind.named u' v' w')) := by
    cases kind <;> rfl
  simp only [hsteps, Except.bind_ok_iff, Except.pure_ok_iff]
  constructor
  · intro h
    rcases h with ⟨u', hu, v', hv, w', hw, rfl⟩
    exact ⟨u', v', w', hu, hv, hw, rfl⟩
  · intro h
    rcases h with ⟨u', v', w', hu, hv, hw, rfl⟩
    exact ⟨u', hu, v', hv, w', hw, rfl⟩

/-- The parameters are found by name, wherever they stand. -/
theorem ofEntries_of_entry? (hlength : entries.length = 3)
    (hfound : ∀ name ∈ kind.parameterNames,
      Value.entry? name entries = Value.entry? name (kind.named u v w)) :
    kind.ofEntries entries = .ok (kind.build u v w) := by
  have hnamed : (kind.parameterNames.map fun name => Value.entry? name (kind.named u v w)) =
      [some u, some v, some w] := by
    cases kind <;> rfl
  rw [FeeKind.ofEntries, List.map_congr_left hfound, hnamed]
  exact if_pos hlength

theorem same_build (kind : FeeKind) (a b c x y z : Value) :
    (kind.build a b c).same (kind.build x y z) = (a.same x && b.same y && c.same z) := by
  cases kind <;> rfl

section

variable (names : (params.map Prod.fst).Perm kind.parameterNames)

include names

theorem distinct_names : (params.map Prod.fst).Pairwise fun a b => a.same b = false := by
  have hkind : kind.parameterNames.Pairwise fun a b => a.same b = false := by
    cases kind <;> decide
  refine (names.pairwise_iff fun h => ?_).2 hkind
  rw [Label.same_comm]
  exact h

theorem exists_text {p : Label × Int} (hp : p ∈ params) : ∃ s, p.1 = .text s := by
  have hkind : ∀ name ∈ kind.parameterNames, ∃ s, name = .text s := by
    cases kind <;> simp [FeeKind.parameterNames]
  exact hkind _ (names.mem_iff.1 (List.mem_map_of_mem hp))

/-- Bytes of the sizes of the parameters denote three integers. -/
theorem exists_readsParameter (hparts : List.Forall₂ Measures params parts) :
    ∃ u v w, List.Forall₂ (ReadsParameter (kind.named u v w)) params parts := by
  have hfound : ∀ name ∈ kind.parameterNames,
      ∃ v, Value.entry? name (readings params parts) = some v := by
    intro name hname
    rcases exists_part hparts (names.mem_iff.2 hname) with ⟨p, part, rfl, hmem, _⟩
    exact ⟨_, entry?_readings (distinct_names names) hmem⟩
  rcases exists_parameterNames kind with ⟨x, y, z, hnames⟩
  rw [hnames] at hfound
  rcases hfound x (by simp) with ⟨u, hu⟩
  rcases hfound y (by simp) with ⟨v, hv⟩
  rcases hfound z (by simp) with ⟨w, hw⟩
  rcases entry?_named hnames u v w with ⟨hx, hy, hz⟩
  refine ⟨u, v, w, List.forall₂_iff_zip.2 ⟨hparts.length_eq, fun {p part} hmem => ?_⟩⟩
  have hread := entry?_readings (distinct_names names) hmem
  have hp : p.1 ∈ kind.parameterNames :=
    names.mem_iff.1 (List.mem_map_of_mem (List.of_mem_zip hmem).1)
  refine ⟨?_, (List.forall₂_iff_zip.1 hparts).2 hmem⟩
  rw [hnames] at hp
  simp only [List.mem_cons, List.not_mem_nil, or_false] at hp
  rcases hp with hp | hp | hp <;> rw [hp] at hread ⊢
  · rwa [hx, ← hu]
  · rwa [hy, ← hv]
  · rwa [hz, ← hw]

/-- These integers are the parameters that are built from the names and the bytes. -/
theorem ofEntries_readings
    (hparts : List.Forall₂ (ReadsParameter (kind.named u v w)) params parts) :
    kind.ofEntries (readings params parts) = .ok (kind.build u v w) := by
  refine ofEntries_of_entry? ?_ fun name hname => ?_
  · rw [length_readings hparts, ← List.length_map Prod.fst, names.length_eq]
    cases kind <;> rfl
  · rcases exists_part hparts (names.mem_iff.2 hname) with ⟨p, part, rfl, hmem, hread, _⟩
    rw [hread, entry?_readings (distinct_names names) hmem]

end

end PriceUpdate

open PriceUpdate

/-! ## Schemas that hold parameters -/

namespace FeeSchema

/-- The slots of a schema hold the parameters of its kind under their names, in some order. -/
structure Holds (schema : FeeSchema) (padding : Nat) (params : List (Label × Int)) : Prop where
  names : (params.map Prod.fst).Perm schema.kind.parameterNames
  sizes : ∀ p ∈ params, 0 ≤ p.2
  record : ∃ fields, schema.codec.layout = .record fields ∧ HoldsParameters padding params fields

variable {schema : FeeSchema} {padding : Nat} {params : List (Label × Int)} {u v w fees : Value}
  {content bs : List UInt8}

/-- Parameters are packed in the order of the fields, with zero bytes behind them. -/
theorem Holds.pack_ok_iff (h : schema.Holds padding params) :
    schema.pack (schema.kind.build u v w) = .ok bs ↔
      ∃ parts, List.Forall₂ (WritesParameter (schema.kind.named u v w)) params parts ∧
        bs = parts.flatten ++ List.replicate padding 0 := by
  rcases h.record with ⟨fields, hlayout, hholds⟩
  have hencode : ∀ entries,
      schema.codec.encode (.dict entries) = Layout.fieldBytes fields entries := by
    intro entries
    rw [Codec.encode_eq, hlayout, Layout.bytesOf_record, recordEntries, Except.ok_bind]
  -- each of the three values is written somewhere
  have hwritten : ∀ {u v w parts},
      List.Forall₂ (WritesParameter (schema.kind.named u v w)) params parts →
        (∃ width part, Uint.encode u width = .ok part) ∧
          (∃ width part, Uint.encode v width = .ok part) ∧
            ∃ width part, Uint.encode w width = .ok part := by
    intro u v w parts hparts
    refine @forall_named schema.kind u v w (fun v => ∃ width part, Uint.encode v width = .ok part)
      fun name hname => ?_
    rcases exists_part hparts (h.names.mem_iff.2 hname) with ⟨p, part, rfl, _, value, hvalue, hpart⟩
    exact ⟨value, hvalue, _, part, hpart⟩
  unfold pack
  rw [Except.bind_ok_iff]
  constructor
  · intro hpack
    rcases hpack with ⟨dict, hdict, hbs⟩
    rcases toDict_build_ok_iff.1 hdict with ⟨u', v', w', hu, hv, hw, rfl⟩
    rw [hencode, hholds.fieldBytes_ok_iff] at hbs
    rcases hbs with ⟨parts, hparts, rfl⟩
    rcases hwritten hparts with ⟨⟨_, _, hu'⟩, ⟨_, _, hv'⟩, ⟨_, _, hw'⟩⟩
    cases Value.eq_of_plainCopy hu hu'
    cases Value.eq_of_plainCopy hv hv'
    cases Value.eq_of_plainCopy hw hw'
    exact ⟨parts, hparts, rfl⟩
  · intro hpack
    rcases hpack with ⟨parts, hparts, rfl⟩
    rcases hwritten hparts with ⟨⟨_, _, hu⟩, ⟨_, _, hv⟩, ⟨_, _, hw⟩⟩
    refine ⟨_, toDict_build_ok_iff.2 ⟨_, _, _, Value.plainCopy_of_encode hu,
      Value.plainCopy_of_encode hv, Value.plainCopy_of_encode hw, rfl⟩, ?_⟩
    rw [hencode]
    exact hholds.fieldBytes_ok_iff.2 ⟨parts, hparts, rfl⟩

/-- Parameters are unpacked from the leading bytes of a slot. -/
theorem Holds.unpack_ok_iff (h : schema.Holds padding params) {form : BytesForm} :
    schema.unpack (.bytes form content) = .ok fees ↔
      ∃ u v w parts tail, fees = schema.kind.build u v w ∧ content = parts.flatten ++ tail ∧
        tail.length = padding ∧
        List.Forall₂ (ReadsParameter (schema.kind.named u v w)) params parts := by
  rcases h.record with ⟨fields, hlayout, hholds⟩
  have hdecode : ∀ value, schema.codec.decode content true = .ok value ↔
      ∃ parts tail, content = parts.flatten ++ tail ∧ tail.length = padding ∧
        List.Forall₂ Measures params parts ∧ value = .dict (readings params parts) := by
    intro value
    have hsizes : schema.codec.layout.Everywhere Layout.NonNegative := by
      rw [hlayout]
      exact hholds.nonNegative h.sizes
    rw [Codec.decode_whole_iff hsizes, hlayout]
    constructor
    · rintro ⟨ps, hps, entries, hread, rfl⟩
      rcases hholds.reads_iff.1 ⟨ps, hps, hread⟩ with ⟨parts, tail, hcontent, htail, hparts, rfl⟩
      exact ⟨parts, tail, hcontent, htail, hparts, rfl⟩
    · rintro ⟨parts, tail, hcontent, htail, hparts, rfl⟩
      rcases hholds.reads_iff.2 ⟨parts, tail, hcontent, htail, hparts, rfl⟩ with ⟨ps, hps, hread⟩
      exact ⟨ps, hps, _, hread, rfl⟩
  have hbytes : (Value.bytes form content).toBytes = .ok content := rfl
  unfold unpack
  rw [hbytes, Except.ok_bind, Except.bind_ok_iff]
  constructor
  · intro hfees
    rcases hfees with ⟨value, hvalue, hfees⟩
    rcases (hdecode value).1 hvalue with ⟨parts, tail, hcontent, htail, hparts, rfl⟩
    rcases exists_readsParameter h.names hparts with ⟨u, v, w, hread⟩
    simp only [ofEntries_readings h.names hread, Except.ok.injEq] at hfees
    exact ⟨u, v, w, parts, tail, hfees.symm, hcontent, htail, hread⟩
  · intro hfees
    rcases hfees with ⟨u, v, w, parts, tail, rfl, hcontent, htail, hread⟩
    have hparts : List.Forall₂ Measures params parts := hread.imp fun _ _ hpart => hpart.2
    exact ⟨_, (hdecode _).2 ⟨parts, tail, hcontent, htail, hparts, rfl⟩,
      ofEntries_readings h.names hread⟩

end FeeSchema

/-! ## Slots for messages -/

namespace PriceUpdate

/-- A record of three parameters and of zero bytes that are skipped. -/
inductive IsSlot : FeeKind → (padding : Nat) → Layout → Prop where
  | intro {kind : FeeKind} {padding : Nat} {x y z : String} {a b c : Numeral}
      {o₁ o₂ o₃ o₄ : Omission} (names : kind.parameterNames = [.text x, .text y, .text z])
      (ha : a.value = 4) (hb : b.value = 4) (hc : c.value = 6) (hon : o₄.isOn = true) :
    IsSlot kind padding (.record [.mk (.text x) (.uint a .plain o₁),
      .mk (.text y) (.uint b .plain o₂), .mk (.text z) (.uint c .plain o₃),
      .mk "reserved" (.blob .unframed (.constant (List.replicate padding 0)) o₄)])

/-- The bytes of three integers and what stands behind them in a slot. -/
structure SlotBytes (padding : Nat) (content p q r : List UInt8) : Prop where
  split : ∃ s, content = p ++ (q ++ (r ++ s)) ∧ s.length = padding
  first : p.length = 4
  second : q.length = 4
  third : r.length = 6

/-- The parameters have four, four and six bytes. -/
theorem isSlot_iff {l : Layout} {padding : Nat} :
    IsSlot kind padding l ↔ ∃ x y z fields, kind.parameterNames = [.text x, .text y, .text z] ∧
      l = .record fields ∧
        HoldsParameters padding [(.text x, 4), (.text y, 4), (.text z, 6)] fields := by
  constructor
  · intro h
    cases h with
    | @intro x y z a b c o₁ o₂ o₃ o₄ names ha hb hc hon =>
      have hholds : HoldsParameters padding
          [(.text x, a.value), (.text y, b.value), (.text z, c.value)]
          [.mk (.text x) (.uint a .plain o₁), .mk (.text y) (.uint b .plain o₂),
            .mk (.text z) (.uint c .plain o₃),
            .mk "reserved" (.blob .unframed (.constant (List.replicate padding 0)) o₄)] :=
        .integer (.integer (.integer (.reserved hon)))
      rw [ha, hb, hc] at hholds
      exact ⟨x, y, z, _, names, rfl, hholds⟩
  · rintro ⟨x, y, z, fields, names, rfl, hholds⟩
    generalize hparams : [(Label.text x, (4 : Int)), (.text y, 4), (.text z, 6)] = params at hholds
    rcases hholds with _ | ⟨_ | ⟨_ | ⟨hon | _⟩⟩⟩ <;> simp at hparams
    rcases hparams with ⟨⟨rfl, ha⟩, ⟨rfl, hb⟩, rfl, hc⟩
    exact .intro names ha.symm hb.symm hc.symm hon

theorem IsSlot.holds {schema : FeeSchema} {padding : Nat}
    (h : IsSlot schema.kind padding schema.codec.layout) :
    ∃ x y z, schema.kind.parameterNames = [x, y, z] ∧
      schema.Holds padding [(x, 4), (y, 4), (z, 6)] := by
  rcases isSlot_iff.1 h with ⟨x, y, z, fields, names, hlayout, hholds⟩
  refine ⟨_, _, _, names, ?_, by simp, fields, hlayout, hholds⟩
  rw [names]
  exact .refl _

end PriceUpdate

/-- A slot is unpacked by its leading bytes. -/
theorem FeeSchema.unpack_ok_iff {schema : FeeSchema} {padding : Nat}
    (h : IsSlot schema.kind padding schema.codec.layout) {content : List UInt8} {fees : Value} :
    schema.unpack (.raw content) = .ok fees ↔
      ∃ p q r, SlotBytes padding content p q r ∧
        fees = schema.kind.build (.int (BigEndian.decode p)) (.int (BigEndian.decode q))
          (.int (BigEndian.decode r)) := by
  rcases h.holds with ⟨x, y, z, names, hholds⟩
  rw [hholds.unpack_ok_iff]
  constructor
  · rintro ⟨u, v, w, _, tail, rfl, rfl, htail, hparts⟩
    rcases entry?_named names u v w with ⟨hx, hy, hz⟩
    rcases hparts with _ | ⟨⟨hu, hp⟩, _ | ⟨⟨hv, hq⟩, _ | ⟨⟨hw, hr⟩, _ | _⟩⟩⟩
    cases hx.symm.trans hu
    cases hy.symm.trans hv
    cases hz.symm.trans hw
    exact ⟨_, _, _, ⟨⟨tail, by simp, htail⟩, Int.ofNat_inj.1 hp, Int.ofNat_inj.1 hq,
      Int.ofNat_inj.1 hr⟩, rfl⟩
  · rintro ⟨p, q, r, ⟨⟨tail, rfl, htail⟩, hp, hq, hr⟩, rfl⟩
    rcases entry?_named names (.int (BigEndian.decode p)) (.int (BigEndian.decode q))
      (.int (BigEndian.decode r)) with ⟨hx, hy, hz⟩
    exact ⟨_, _, _, [p, q, r], tail, rfl, by simp, htail, .cons ⟨hx, congrArg Int.ofNat hp⟩
      (.cons ⟨hy, congrArg Int.ofNat hq⟩ (.cons ⟨hz, congrArg Int.ofNat hr⟩ .nil))⟩

/-- Parameters are packed as three integers, and zero bytes behind them. -/
theorem FeeSchema.pack_ok_iff {schema : FeeSchema} {padding : Nat}
    (h : IsSlot schema.kind padding schema.codec.layout) {u v w : Value} {bs : List UInt8} :
    schema.pack (schema.kind.build u v w) = .ok bs ↔
      ∃ p q r, Uint.encode u 4 = .ok p ∧ Uint.encode v 4 = .ok q ∧ Uint.encode w 6 = .ok r ∧
        bs = p ++ (q ++ (r ++ List.replicate padding 0)) := by
  rcases h.holds with ⟨x, y, z, names, hholds⟩
  rcases entry?_named names u v w with ⟨hx, hy, hz⟩
  rw [hholds.pack_ok_iff]
  constructor
  · rintro ⟨_, hparts, rfl⟩
    rcases hparts with _ | ⟨⟨_, hu, hp⟩, _ | ⟨⟨_, hv, hq⟩, _ | ⟨⟨_, hw, hr⟩, _ | _⟩⟩⟩
    cases hx.symm.trans hu
    cases hy.symm.trans hv
    cases hz.symm.trans hw
    exact ⟨_, _, _, hp, hq, hr, by simp⟩
  · rintro ⟨p, q, r, hp, hq, hr, rfl⟩
    exact ⟨[p, q, r], .cons ⟨u, hx, hp⟩ (.cons ⟨v, hy, hq⟩ (.cons ⟨w, hz, hr⟩ .nil)), by simp⟩

end WireLayout
