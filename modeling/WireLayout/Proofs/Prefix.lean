import WireLayout.Proofs.Construction
import WireLayout.Proofs.Emission
import WireLayout.Proofs.Digits
import WireLayout.Proofs.Registration

/-!
# Prefix — blocks behind their lengths

A block may be framed by its length, which is written in front of it in a number of bytes.

* `Prefixed` — a payload behind its length;
* `Codec.encode_bytes_counted` — what is written for a block that is framed in this way.

A block that is constant is written as it is, whatever its frame: its length is not.
-/

namespace WireLayout

/-- A payload behind its length, which stands in a number of bytes below the limit of widths. -/
structure Prefixed (width : Numeral) (payload b : List UInt8) : Prop where
  limited : width.value < widthLimit
  split : ∃ head, b = head ++ payload ∧ (head.length : Int) = width.value ∧
    BigEndian.decode head = payload.length

theorem prefixed_iff {width : Numeral} {payload b : List UInt8} :
    Prefixed width payload b ↔
      ∃ head, (Framing.counted width).Announces head payload.length ∧ b = head ++ payload := by
  constructor
  · rintro ⟨hlimit, head, rfl, hwidth, hcount⟩
    refine ⟨head, ?_, rfl⟩
    rw [Framing.Announces, ← hcount]
    exact Uint.bytesOf_decode hwidth (by omega)
  · rintro ⟨head, hhead, rfl⟩
    rcases Uint.of_bytesOf_ok hhead with ⟨hwidth, hcount⟩
    rcases Uint.bytesOf_ok_iff.1 hhead with ⟨_, _, hfits, _⟩
    exact ⟨hfits.2.1, head, rfl, hwidth, Int.natCast_inj.1 hcount⟩

/-! ## Blocks that declare a prefix -/

namespace Layout

variable {width : Numeral} {inner : Option Layout} {spec : CustomSpec} {omission : Omission}
  {l : Layout}

theorem eq_blob_of_constant (h : bytes? none (some width) inner spec omission = .ok l)
    {content : List UInt8} (hcontent : constantBytes? spec = some content) :
    l = .blob (.counted width) (.constant content) omission := by
  unfold bytes? at h
  simp only [framing?, hcontent, Except.ok_bind] at h
  split at h
  · cases h
  · rename_i hconstant _
    cases hconstant
    cases h
    rfl
  · rename_i hnone
    cases hnone

/-- Without a constant the block frames a layout, or bytes if there is none. -/
theorem eq_frame_of_variable (h : bytes? none (some width) inner spec omission = .ok l)
    (hvariable : constantBytes? spec = none) :
    l = match innerOf? inner with
      | some i => .nested (.counted width) i (customOf spec) omission
      | none => .blob (.counted width) (customOf spec) omission := by
  unfold bytes? at h
  simp only [framing?, hvariable, Except.ok_bind] at h
  split at h
  · cases h
  · cases hinner : innerOf? inner with
    | some i =>
      rw [hinner] at h
      cases h
      rfl
    | none =>
      rw [hinner] at h
      cases h
      rfl

/-- An attribute that is accepted without being a conversion is none at all. -/
theorem customOf_eq_plain {α : Type} (hspec : ∀ conversion, spec ≠ .conversion conversion)
    (hcheck : (customOf spec : Custom α).check = .ok ()) : (customOf spec : Custom α) = .plain := by
  cases spec with
  | none => rfl
  | conversion conversion => exact absurd rfl (hspec conversion)
  | value v => cases hcheck

end Layout

/-! ## What is written for them -/

namespace Codec

variable {width : Numeral} {omission : Omission} {c : Codec} {v : Value} {b : List UInt8}

/-- What is accepted inside a description is accepted on its own. -/
theorem exists_ofLayout_of_checked {l : Layout} (h : l.Everywhere Layout.Checked) :
    ∃ c, ofLayout l = .ok c := by
  rcases Layout.exists_staticSize (h.mono fun _ => Layout.proper_of_checked) with ⟨size, hsize⟩
  have haccept : l.accept = .ok size :=
    Except.seq_ok_iff.2 ⟨Layout.check_ok_iff.2 h, hsize⟩
  rcases exists_ofLayout haccept with ⟨c, hc, _⟩
  exact ⟨c, hc⟩

theorem encode_blob_counted (hlayout : c.layout = .blob (.counted width) .plain omission) :
    c.encode v = .ok b ↔ ∃ payload, Block.content v = .ok payload ∧ Prefixed width payload b := by
  have hplain : ∀ content, (.plain : Custom (List UInt8)) ≠ .constant content := nofun
  rw [encode_eq, hlayout, Layout.bytesOf_blob_ok_iff hplain]
  simp only [prefixed_iff]
  constructor
  · rintro ⟨_, payload, head, ⟨⟩, hpayload, hhead, rfl⟩
    exact ⟨payload, hpayload, head, hhead, rfl⟩
  · rintro ⟨payload, hpayload, head, hhead, rfl⟩
    exact ⟨v, payload, head, rfl, hpayload, hhead, rfl⟩

theorem encode_nested_counted {inner : Layout}
    (hlayout : c.layout = .nested (.counted width) inner .plain omission) :
    ∃ ci, ofLayout inner = .ok ci ∧ ∀ v b, c.encode v = .ok b ↔
      ∃ payload, ci.encode v = .ok payload ∧ Prefixed width payload b := by
  have hchecked := c.everywhere_checked
  rw [hlayout] at hchecked
  rcases exists_ofLayout_of_checked (Layout.everywhere_nested.1 hchecked).2 with ⟨ci, hci⟩
  refine ⟨ci, hci, fun v b => ?_⟩
  rw [encode_eq, encode_eq, hlayout, layout_of_ofLayout hci, Layout.bytesOf_nested_ok_iff]
  simp only [prefixed_iff]
  constructor
  · rintro ⟨_, payload, head, ⟨⟩, hpayload, hhead, rfl⟩
    exact ⟨payload, hpayload, head, hhead, rfl⟩
  · rintro ⟨payload, hpayload, head, hhead, rfl⟩
    exact ⟨v, payload, head, rfl, hpayload, hhead, rfl⟩

/-- A block that declares a prefix is written behind its length if it holds plain bytes, or a
layout, which is encoded as on its own.  A constant is written without its length. -/
theorem encode_bytes_counted {inner : Option Layout} {spec : CustomSpec} {l : Layout}
    (hspec : ∀ conversion, spec ≠ .conversion conversion)
    (hl : Layout.bytes? none (some width) inner spec omission = .ok l) (hc : compile l = .ok c) :
    (∀ content, Layout.constantBytes? spec = some content → ∀ v b,
      c.encode v = .ok b ↔ b = content ∧ (v = .none ∨ v.same (.raw content) = true)) ∧
    (Layout.constantBytes? spec = none → Layout.innerOf? inner = none → ∀ v b,
      c.encode v = .ok b ↔
        ∃ payload, Block.content v = .ok payload ∧ Prefixed width payload b) ∧
    (Layout.constantBytes? spec = none → ∀ i, Layout.innerOf? inner = some i →
      ∃ ci, ofLayout i = .ok ci ∧ ∀ v b, c.encode v = .ok b ↔
        ∃ payload, ci.encode v = .ok payload ∧ Prefixed width payload b) := by
  have hsettled : c.layout = l.settle := layout_of_ofLayout (compile_ok_iff.1 hc).2.1
  have hchecked := c.everywhere_checked.here
  refine ⟨fun content hcontent v b => ?_, fun hvariable hinner v b => ?_,
    fun hvariable i hinner => ?_⟩
  · rw [Layout.eq_blob_of_constant hl hcontent] at hsettled
    rw [encode_eq, hsettled]
    exact Layout.bytesOf_blob_constant_ok_iff
  · have hblob : l = .blob (.counted width) (Layout.customOf spec) omission := by
      rw [Layout.eq_frame_of_variable hl hvariable, hinner]
    have hlayout : c.layout = .blob (.counted width) (Layout.customOf spec) omission := by
      rw [hsettled, hblob, Layout.settle]
      nofun
    rw [hlayout] at hchecked
    rw [Layout.customOf_eq_plain hspec hchecked] at hlayout
    exact encode_blob_counted hlayout
  · have hnested : l = .nested (.counted width) i (Layout.customOf spec) omission := by
      rw [Layout.eq_frame_of_variable hl hvariable, hinner]
    have hlayout : c.layout = .nested (.counted width) i (Layout.customOf spec) omission := by
      rw [hsettled, hnested, Layout.settle]
      nofun
    rw [hlayout] at hchecked
    rw [Layout.customOf_eq_plain hspec hchecked] at hlayout
    exact encode_nested_counted hlayout

end Codec

/-- An integer of two bytes behind its length, which takes two bytes as well. -/
def Layout.prefixedWord : Layout := .nested (.counted 2) (.uint 2 .plain .off) .plain .off

def Codec.prefixedWord : Codec := ⟨.prefixedWord, none, rfl⟩

/-- The bytes of the integer stand behind their number. -/
theorem Codec.encode_bytes_counted_word :
    ∃ ci payload, ofLayout (.uint 2 .plain .off) = .ok ci ∧ ci.encode (.int 258) = .ok payload ∧
      Prefixed 2 payload [0, 2, 1, 2] := by
  have hcompile : compile .prefixedWord = .ok .prefixedWord := compile_ok_iff.2 ⟨rfl, rfl, rfl⟩
  have hcounted := @encode_bytes_counted 2 .off .prefixedWord (some (.uint 2 .plain .off)) .none
    .prefixedWord nofun rfl hcompile
  rcases hcounted.2.2 rfl _ rfl with ⟨ci, hci, hencode⟩
  have hword : Codec.prefixedWord.encode (.int 258) = .ok [0, 2, 1, 2] := rfl
  rcases (hencode _ _).1 hword with ⟨payload, hpayload, hprefixed⟩
  exact ⟨ci, payload, hci, hpayload, hprefixed⟩

/-- Two constant bytes that declare a prefix. -/
def Layout.bareConstant : Layout := .blob (.counted 1) (.constant [1, 2]) .off

def Codec.bareConstant : Codec := ⟨.bareConstant, some (.plain 2), rfl⟩

/-- The constant is written without the length that was declared. -/
theorem Codec.encode_bareConstant :
    Layout.bytes? none (some 1) none (.value (.raw [1, 2])) .off = .ok .bareConstant ∧
      compile .bareConstant = .ok .bareConstant ∧ bareConstant.encode .none = .ok [1, 2] ∧
      ¬ Prefixed 1 [1, 2] [1, 2] := by
  have hreport : bareConstant.report = .ok () :=
    report_ok_iff.2 (optionSpellable_of_lt (n := 2) (by decide))
  refine ⟨rfl, compile_ok_iff.2 ⟨rfl, rfl, hreport⟩, rfl, ?_⟩
  rintro ⟨_, head, hsplit, hwidth, _⟩
  have hlength := congrArg List.length hsplit
  have hone : (1 : Numeral).value = 1 := rfl
  simp only [List.length_append, List.length_cons, List.length_nil] at hlength
  omega

end WireLayout
