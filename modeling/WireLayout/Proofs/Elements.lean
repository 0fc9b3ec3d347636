import WireLayout.Proofs.Extent
import WireLayout.Proofs.Locality
import WireLayout.Proofs.Totality

/-!
# Elements — what an unframed array keeps of its elements

An array without a count is read until its input is used up.  Its elements are written one behind
the other, and one that takes no bytes leaves no trace.

* `Layout.LastInFrame` — items without a frame stand last in the frame that holds them;
* `Framing.lasting` — the encoded elements that can be found again;
* `Layout.legible` — what was encoded can be decoded, though elements without bytes are gone;
* `Codec.decode_elements` — an unframed array keeps exactly the elements that took bytes.

The check refuses elements of static size zero.  Elements whose size is not static may still take no
bytes, and are lost.
-/

namespace WireLayout

open Piece

/-! ## Encoded elements one behind the other -/

/-- The encoded elements that can be found again: all of them if their number is known. -/
def Framing.lasting : Framing → List (List UInt8) → List (List UInt8)
  | .unframed, parts => parts.filter (· ≠ [])
  | _, parts => parts

namespace Framing

variable {framing : Framing} {parts : List (List UInt8)}

theorem flatten_lasting : (framing.lasting parts).flatten = parts.flatten := by
  cases framing with
  | unframed => exact List.flatten_filter_ne_nil
  | _ => rfl

theorem lasting_of_ne (h : framing ≠ .unframed) : framing.lasting parts = parts := by
  cases framing with
  | unframed => exact absurd rfl h
  | _ => rfl

theorem mem_of_mem_lasting {part : List UInt8} (h : part ∈ framing.lasting parts) :
    part ∈ parts := by
  cases framing with
  | unframed => exact (List.mem_filter.1 h).1
  | _ => exact h

theorem ne_nil_of_mem_lasting {part : List UInt8} (h : part ∈ framing.lasting parts)
    (hframing : framing = .unframed) : part ≠ [] := by
  subst hframing
  simpa using (List.mem_filter.1 h).2

end Framing

namespace Layout

/-! ## Reading what was written -/

/-- Items without a frame stand last in the frame that holds them: fields in front of others are
self-delimiting, and so are elements. -/
def LastInFrame : Layout → Prop
  | .array _ element _ => element.SelfDelimiting
  | .switch _ _ cases _ => ∀ c ∈ cases, ∀ f ∈ c.fields.dropLast, f.item.SelfDelimiting
  | .record fields => ∀ f ∈ fields.dropLast, f.item.SelfDelimiting
  | _ => True

/-- What was written for a value can be read, also in front of other bytes unless the layout needs
the end of a frame. -/
def Legible (l : Layout) : Prop :=
  ∀ ⦃v b rest⦄, l.bytesOf v = .ok b → (l.SelfDelimiting ∨ rest = []) →
    ∃ ps w, source ps = b ∧ l.Reads ps rest w

theorem written_of_mem {element : Layout} {items : List Value} {parts : List (List UInt8)}
    (h : List.Forall₂ (fun v part => element.bytesOf v = .ok part) items parts) :
    ∀ part ∈ parts, ∃ v, element.bytesOf v = .ok part := by
  induction h with
  | nil => simp
  | cons hv _ ih => exact List.forall_mem_cons.2 ⟨⟨_, hv⟩, ih⟩

theorem exists_forms {element : Layout} (h : element.Legible) {parts : List (List UInt8)}
    (hparts : ∀ part ∈ parts, ∃ v, element.bytesOf v = .ok part) :
    ∃ forms, List.Forall₂ (fun part w => ∃ ps, source ps = part ∧ element.Reads ps [] w)
      parts forms := by
  induction parts with
  | nil => exact ⟨[], .nil⟩
  | cons part parts ih =>
    rcases List.forall_mem_cons.1 hparts with ⟨⟨v, hv⟩, hlater⟩
    rcases ih hlater with ⟨forms, hforms⟩
    rcases @h _ _ [] hv (.inr rfl) with ⟨ps, w, hps, hw⟩
    exact ⟨w :: forms, .cons ⟨ps, hps, hw⟩ hforms⟩

/-- Elements that were written are read one by one, those without bytes only if they are counted. -/
theorem readsEach_of_parts {framing : Framing} {element : Layout}
    (delimits : element.SelfDelimiting) {parts : List (List UInt8)} {forms : List Value}
    (h : List.Forall₂ (fun part w => ∃ ps, source ps = part ∧ element.Reads ps [] w)
      (framing.lasting parts) forms) (rest : List UInt8) :
    ∃ ps, source ps = parts.flatten ∧
      ReadsEach (fun p tail w => (framing = .unframed → source p ≠ []) ∧ element.Reads p tail w)
        ps rest forms := by
  have hmoves : ∀ part ∈ framing.lasting parts, framing = .unframed → part ≠ [] :=
    fun part hpart => Framing.ne_nil_of_mem_lasting hpart
  -- a self-delimiting element is read alike whatever stands behind it
  have hread : ∀ part w, ((framing = .unframed → part ≠ []) ∧
      ∃ ps, source ps = part ∧ element.Reads ps [] w) → ∃ ps, source ps = part ∧ ∀ tail,
        ((framing = .unframed → source ps ≠ []) ∧ element.Reads ps tail w) := by
    rintro _ w ⟨hne, ps, rfl, hw⟩
    exact ⟨ps, rfl, fun tail => ⟨hne, blind_reads delimits hw tail⟩⟩
  rcases readsEach_of_forall₂ hread ((List.forall₂_and_left _ _).2 ⟨hmoves, h⟩) rest with
    ⟨ps, hps, heach⟩
  exact ⟨ps, hps.trans Framing.flatten_lasting, heach⟩

theorem exists_readsFields {fields : List Field} (h : ∀ f ∈ fields, f.item.Legible)
    (last : ∀ f ∈ fields.dropLast, f.item.SelfDelimiting) {entries : List (Label × Value)}
    {b rest : List UInt8} (hend : FieldsSelfDelimiting fields ∨ rest = [])
    (hb : fieldBytes fields entries = .ok b) :
    ∃ ps forms, source ps = b ∧ ReadsFields fields ps rest forms := by
  -- the later fields come first: the first one needs to know what stands behind it
  induction fields generalizing b with
  | nil =>
    cases hb
    exact ⟨[], [], rfl, rfl, rfl⟩
  | cons f fields ih =>
    rcases f with ⟨name, item⟩
    rcases List.forall_mem_cons.1 h with ⟨hitem, hlater⟩
    rcases fieldBytes_cons_ok_iff.1 hb with ⟨v, first, later, hv, hfirst, hrest, rfl⟩
    have hsplit : fields ≠ [] →
        item.SelfDelimiting ∧ ∀ f ∈ fields.dropLast, f.item.SelfDelimiting := by
      intro hne
      rw [List.dropLast_cons_of_ne_nil hne] at last
      exact List.forall_mem_cons.1 last
    have hlast : ∀ f ∈ fields.dropLast, f.item.SelfDelimiting := by
      intro f hf
      exact (hsplit (List.ne_nil_of_mem (List.dropLast_subset fields hf))).2 f hf
    rcases ih hlater hlast (hend.imp_left fun hd => hd.2) hrest with ⟨q, forms, rfl, hq⟩
    have hendFirst : item.SelfDelimiting ∨ source q ++ rest = [] := by
      by_cases hnone : fields = []
      -- the last field ends where the record ends
      · subst hnone
        rcases hq with ⟨rfl, _⟩
        exact hend.imp (fun hd => hd.1) fun hr => hr
      · exact .inl (hsplit hnone).1
    rcases hitem hfirst hendFirst with ⟨p, w, rfl, hp⟩
    exact ⟨p ++ q, _, source_append p q, p, q, w, forms, rfl, hp, hq, rfl⟩

/-- What was encoded without conversions can be read. -/
theorem legible {l : Layout} (made : l.Everywhere WellMade) (checked : l.Everywhere Checked)
    (unconverted : l.Everywhere Unconverted) (last : l.Everywhere LastInFrame) : l.Legible := by
  induction l with
  | uint size custom omission =>
    intro v b rest hb hend
    have hconvert := convert_of_checked checked.here unconverted.here
    by_cases hconstant : ∃ n, custom = .constant n
    · rcases hconstant with ⟨n, rfl⟩
      rcases bytesOf_uint_constant_ok_iff.1 hb with ⟨hcontent, _⟩
      rcases readsConstant_canonical (.ofNumeral n) b omission with ⟨ps, hps, hreads⟩
      exact ⟨ps, _, hps, b, hcontent, hreads⟩
    · have hplain : ∀ n, custom ≠ .constant n := fun n hn => hconstant ⟨n, hn⟩
      rcases (bytesOf_uint_ok_iff hplain).1 hb with ⟨raw, _, hb⟩
      have hwidth := Uint.length_of_encode hb
      exact ⟨[plain b], _, by simp, (reads_uint_iff hplain).2 ⟨b, rfl, hwidth, hconvert _⟩⟩
  | blob framing custom omission =>
    intro v b rest hb hend
    have hconvert := convert_of_checked checked.here unconverted.here
    by_cases hconstant : ∃ content, custom = .constant content
    · rcases hconstant with ⟨content, rfl⟩
      rcases bytesOf_blob_constant_ok_iff.1 hb with ⟨rfl, _⟩
      rcases readsConstant_canonical (.raw b) b omission with ⟨ps, hps, hreads⟩
      exact ⟨ps, _, hps, hreads⟩
    · have hplain : ∀ content, custom ≠ .constant content := fun n hn => hconstant ⟨n, hn⟩
      rcases (bytesOf_blob_ok_iff hplain).1 hb with ⟨_, payload, head, _, _, hhead, rfl⟩
      have hrest : framing = .unframed → rest = [] :=
        fun hu => hend.resolve_left fun hd => hconstant (hd hu)
      rcases opens_of_announces hhead rest hrest with ⟨ps, rfl, hopens⟩
      exact ⟨ps ++ [plain payload], _, by simp,
        (reads_blob_iff hplain).2 ⟨ps, payload, rfl, hopens, hconvert _⟩⟩
  | nested framing inner custom omission ih =>
    intro v b rest hb hend
    have hconvert := convert_of_checked checked.here unconverted.here
    have hinner := ih (everywhere_nested.1 made).2 (everywhere_nested.1 checked).2
      (everywhere_nested.1 unconverted).2 (everywhere_nested.1 last).2
    rcases bytesOf_nested_ok_iff.1 hb with ⟨_, payload, head, _, hpayload, hhead, rfl⟩
    cases framing with
    | unframed =>
      cases hhead
      rcases hinner hpayload (hend.imp_left fun hd => hd rfl) with ⟨ps, form, rfl, hps⟩
      exact ⟨ps, _, rfl, form, hps, hconvert _⟩
    | _ =>
      -- inside its frame the layout has nothing behind it
      rcases @hinner _ _ [] hpayload (.inr rfl) with ⟨body, form, rfl, hbody⟩
      rcases opens_of_announces hhead rest nofun with ⟨ps, rfl, hopens⟩
      exact ⟨ps ++ body, _, source_append ps body, form, ⟨ps, body, rfl, hopens, hbody⟩,
        hconvert _⟩
  | array framing element custom ih =>
    intro v b rest hb hend
    have hconvert := convert_of_checked checked.here unconverted.here
    rcases everywhere_array.1 last with ⟨hdelimits, hlast⟩
    have helement := ih (everywhere_array.1 made).2 (everywhere_array.1 checked).2
      (everywhere_array.1 unconverted).2 hlast
    rcases bytesOf_array_ok_iff.1 hb with ⟨_, items, head, body, _, _, hhead, hbody, rfl⟩
    rcases (collect_writeEach_ok_iff element.appendOnly_encode).1 hbody with
      ⟨parts, hparts, rfl⟩
    have hwritten : ∀ part ∈ framing.lasting parts, ∃ v, element.bytesOf v = .ok part :=
      fun part hpart => written_of_mem hparts part (Framing.mem_of_mem_lasting hpart)
    rcases exists_forms helement hwritten with ⟨forms, hforms⟩
    rcases readsEach_of_parts hdelimits hforms rest with ⟨qs, hqs, heach⟩
    have hrest : framing = .unframed → rest = [] := fun hu => hend.resolve_left fun hd => hd.1 hu
    rcases opens_of_announces hhead rest hrest with ⟨ps, rfl, hopens⟩
    -- a count was written for the items, and as many forms are read if there is one
    have hopensForms : framing.Opens ps forms.length rest := by
      by_cases hframing : framing = .unframed
      · subst hframing
        exact hopens
      · rwa [← hforms.length_eq, Framing.lasting_of_ne hframing, ← hparts.length_eq]
    exact ⟨ps ++ qs, _, by rw [source_append, hqs], ps, qs, forms, rfl, hopensForms, heach,
      hconvert _⟩
  | switch idSize idTag cases custom ih =>
    intro v b rest hb hend
    have hconvert := convert_of_checked checked.here unconverted.here
    rcases everywhere_switch.1 made with ⟨⟨_, hids, _, _⟩, hmade⟩
    rcases everywhere_switch.1 last with ⟨hlast, hlastItems⟩
    have hchecked := (everywhere_switch.1 checked).2
    have hunconverted := (everywhere_switch.1 unconverted).2
    rcases bytesOf_switch_ok_iff.1 hb with ⟨raw, name, _, _, hb⟩
    rcases mem_of_caseBytes hb with ⟨c, hc, _, tag, body, htag, hbody, rfl⟩
    rcases bytesOf_record_ok_iff.1 hbody with ⟨entries, rfl, hbody⟩
    have hitems : ∀ f ∈ c.fields, f.item.Legible := fun f hf =>
      ih c hc f hf (hmade c hc f hf) (hchecked c hc f hf) (hunconverted c hc f hf)
        (hlastItems c hc f hf)
    have hendCase : FieldsSelfDelimiting c.fields ∨ rest = [] :=
      hend.imp_left fun hd => casesSelfDelimiting_iff.1 hd c hc
    rcases exists_readsFields hitems (hlast c hc) hendCase hbody with ⟨ps, forms, rfl, hps⟩
    rcases Uint.encode_ok_iff.1 htag with ⟨n, hn, htag⟩
    rcases Uint.of_bytesOf_ok htag with ⟨hwidth, hdigits⟩
    have hid : c.id.value = (BigEndian.decode tag : Nat) := by
      rw [hdigits, Uint.integer?_ofNumeral hn]
    exact ⟨plain tag :: ps, _, rfl, tag, ps, _, rfl, hwidth, readsCase_of_mem hc hids hid hps,
      hconvert _⟩
  | record fields ih =>
    intro v b rest hb hend
    rcases everywhere_record.1 last with ⟨hlast, hlastItems⟩
    have hmade := (everywhere_record.1 made).2
    have hchecked := (everywhere_record.1 checked).2
    have hunconverted := (everywhere_record.1 unconverted).2
    rcases bytesOf_record_ok_iff.1 hb with ⟨entries, rfl, hb⟩
    have hitems : ∀ f ∈ fields, f.item.Legible := fun f hf =>
      ih f hf (hmade f hf) (hchecked f hf) (hunconverted f hf) (hlastItems f hf)
    rcases exists_readsFields hitems hlast hend hb with ⟨ps, forms, hps, hreads⟩
    exact ⟨ps, _, hps, forms, hreads, rfl⟩
  | _ =>
    intro v b rest hb
    cases hb

end Layout

/-! ## Whole arrays -/

namespace Codec

variable {c : Codec} {element : Layout}

/-- The elements of an array that was accepted are accepted on their own. -/
theorem exists_ofElement (hlayout : c.layout = .array .unframed element .plain) :
    ∃ ce, ofLayout element = .ok ce ∧ ∀ n, ce.staticSize = some n → n.value ≠ 0 := by
  have hchecked := c.everywhere_checked
  rw [hlayout] at hchecked
  rcases Layout.everywhere_array.1 hchecked with ⟨⟨hsize, _⟩, helement⟩
  rcases Layout.checkElementSize_ok_iff.1 hsize with ⟨size, hsize, hzero⟩
  have haccept : element.accept = .ok size :=
    Except.seq_ok_iff.2 ⟨Layout.check_ok_iff.2 helement, hsize⟩
  rcases exists_ofLayout haccept with ⟨ce, hce, rfl⟩
  exact ⟨ce, hce, hzero⟩

/-- What has a static size other than zero takes bytes. -/
theorem ne_nil_of_encode {ce : Codec} (made : ce.layout.Everywhere Layout.WellMade)
    (sizes : ce.layout.Everywhere Layout.NonNegative) {n : Numeral}
    (hsize : ce.staticSize = some n) (hzero : n.value ≠ 0) {v : Value} {b : List UInt8}
    (hb : ce.encode v = .ok b) : b ≠ [] := by
  have hstatic := (Except.seq_ok_iff.1 ce.accepted).2
  rw [hsize] at hstatic
  have hoccupied := (Layout.occupies_of_staticSize made sizes hstatic).written hb
  rintro rfl
  exact hzero hoccupied.symm

/-- An unframed array of self-delimiting elements keeps those that took bytes, each as it would be
decoded on its own, and loses the others.  None is lost if the elements have a static size. -/
theorem decode_elements (hlayout : c.layout = .array .unframed element .plain)
    (built : c.layout.Built) (unconverted : c.layout.Everywhere Layout.Unconverted)
    (delimits : element.SelfDelimiting) (last : element.Everywhere Layout.LastInFrame) :
    ∃ ce, ofLayout element = .ok ce ∧ ∀ v b, c.encode v = .ok b → ∃ items parts forms,
      arrayItems v = .ok items ∧
      List.Forall₂ (fun item part => ce.encode item = .ok part) items parts ∧
      b = parts.flatten ∧
      c.decode b true = .ok (.list forms) ∧
      List.Forall₂ (fun part form => ce.decode part true = .ok form)
        (parts.filter (· ≠ [])) forms ∧
      (forms.length = items.length ↔ ∀ part ∈ parts, part ≠ []) ∧
      (element.Everywhere Layout.NonNegative → ce.staticSize ≠ none →
        forms.length = items.length) := by
  have made := built.everywhere_wellMade
  have checked := c.everywhere_checked
  rw [hlayout] at made checked unconverted
  rcases Layout.everywhere_array.1 made with ⟨_, hmade⟩
  rcases Layout.everywhere_array.1 checked with ⟨_, hchecked⟩
  rcases Layout.everywhere_array.1 unconverted with ⟨_, hunconverted⟩
  have hlegible := Layout.legible hmade hchecked hunconverted last
  rcases exists_ofElement hlayout with ⟨ce, hce, hzero⟩
  have hlayoutElement := layout_of_ofLayout hce
  refine ⟨ce, hce, fun v b hb => ?_⟩
  rw [encode_eq, hlayout] at hb
  rcases Layout.bytesOf_array_ok_iff.1 hb with
    ⟨_, items, _, body, hraw, hitems, rfl, hbody, rfl⟩
  cases hraw
  rcases (collect_writeEach_ok_iff element.appendOnly_encode).1 hbody with ⟨parts, hparts, rfl⟩
  have hwritten : ∀ part ∈ parts.filter (· ≠ []), ∃ v, element.bytesOf v = .ok part :=
    fun part hpart => Layout.written_of_mem hparts part (List.mem_filter.1 hpart).1
  rcases Layout.exists_forms hlegible hwritten with ⟨forms, hforms⟩
  have hlength : forms.length = items.length ↔ ∀ part ∈ parts, part ≠ [] := by
    rw [← hforms.length_eq, hparts.length_eq, List.length_filter_eq_length_iff]
    simp
  refine ⟨items, parts, forms, hitems, ?_, rfl, ?_, ?_, hlength, ?_⟩
  · refine hparts.imp fun item part hpart => ?_
    rwa [encode_eq, hlayoutElement]
  · rcases @Layout.readsEach_of_parts .unframed _ delimits _ _ hforms [] with ⟨ps, hps, heach⟩
    have hreads : c.layout.Reads ps [] (.list forms) := by
      rw [hlayout]
      exact ⟨[], ps, forms, rfl, ⟨rfl, rfl⟩, heach, rfl⟩
    rw [← hps]
    exact decode_of_reads hreads
  · refine hforms.imp fun part form hpart => ?_
    rcases hpart with ⟨ps, rfl, hreads⟩
    rw [← hlayoutElement] at hreads
    exact decode_of_reads hreads
  -- with a static size no element is lost: the check refused size zero
  · intro sizes hstatic
    rcases Option.ne_none_iff_exists'.1 hstatic with ⟨n, hn⟩
    refine hlength.2 fun part hpart => ?_
    rcases Layout.written_of_mem hparts part hpart with ⟨item, hitem⟩
    rw [← hlayoutElement] at hmade sizes hitem
    exact ne_nil_of_encode hmade sizes hn (hzero n hn) hitem

end Codec

/-- Blocks behind their lengths, up to the end of the input. -/
def Layout.framedBlocks : Layout :=
  .array .unframed (.nested (.counted 1) (.blob .unframed .plain .off) .plain .off) .plain

def Codec.framedBlocks : Codec := ⟨.framedBlocks, none, rfl⟩

/-- A block of one byte and an empty one take two bytes and one, so both are kept. -/
theorem Codec.decode_elements_framed :
    ∃ ce, ofLayout (.nested (.counted 1) (.blob .unframed .plain .off) .plain .off) = .ok ce ∧
      ∃ parts forms,
        List.Forall₂ (fun item part => ce.encode item = .ok part) [.raw [7], .raw []] parts ∧
        framedBlocks.decode [1, 7, 0] true = .ok (.list forms) ∧
        List.Forall₂ (fun part form => ce.decode part true = .ok form)
          (parts.filter (· ≠ [])) forms := by
  have hblock : Layout.Built (.blob .unframed .plain .off) :=
    @Layout.Built.bytes none none none .none .off _ nofun rfl
  have hframed := @Layout.Built.bytes none (some 1) (some (.blob .unframed .plain .off)) .none .off
    _ (by rintro _ ⟨⟩; exact hblock) rfl
  have hbuilt : Layout.framedBlocks.Built := @Layout.Built.array _ none none .none _ hframed rfl
  have hunconverted : Layout.framedBlocks.Everywhere Layout.Unconverted := by
    simp [Layout.framedBlocks, Layout.everywhere_array, Layout.everywhere_nested,
      Layout.Unconverted, Layout.conversion?]
  have hlast : Layout.Everywhere Layout.LastInFrame
      (.nested (.counted 1) (.blob .unframed .plain .off) .plain .off) := by
    simp [Layout.everywhere_nested, Layout.LastInFrame]
  have hdelimits : Layout.SelfDelimiting
      (.nested (.counted 1) (.blob .unframed .plain .off) .plain .off) := by
    rintro ⟨⟩
  rcases decode_elements (c := framedBlocks) rfl hbuilt hunconverted hdelimits hlast with
    ⟨ce, hce, hall⟩
  rcases hall (.list [.raw [7], .raw []]) [1, 7, 0] rfl with
    ⟨_, parts, forms, ⟨⟩, hparts, _, hdecode, hforms, _⟩
  exact ⟨ce, hce, parts, forms, hparts, hdecode, hforms⟩

/-- Empty blocks behind lengths of no bytes are written as nothing, and none of them comes back. -/
theorem Codec.decode_elements_lost :
    Layout.idleBlocks.Built ∧ compile .idleBlocks = .ok .idleBlocks ∧
      Layout.idleBlocks.Everywhere Layout.Unconverted ∧
      Layout.SelfDelimiting (.blob (.counted 0) .plain .off) ∧
      Layout.Everywhere Layout.LastInFrame (.blob (.counted 0) .plain .off) ∧
      idleBlocks.encode (.list [.raw [], .raw []]) = .ok [] ∧
      idleBlocks.decode [] true = .ok (.list []) := by
  have hblock : Layout.Built (.blob (.counted 0) .plain .off) :=
    @Layout.Built.bytes none (some 0) none .none .off _ nofun rfl
  have hbuilt : Layout.idleBlocks.Built := @Layout.Built.array _ none none .none _ hblock rfl
  have hunconverted : Layout.idleBlocks.Everywhere Layout.Unconverted := by
    simp [Layout.idleBlocks, Layout.everywhere_array, Layout.Unconverted, Layout.conversion?]
  have hdelimits : Layout.SelfDelimiting (.blob (.counted 0) .plain .off) := by
    rintro ⟨⟩
  refine ⟨hbuilt, compile_ok_iff.2 ⟨rfl, rfl, rfl⟩, hunconverted, hdelimits, ?_, rfl, rfl⟩
  rw [Layout.everywhere_blob]
  trivial

end WireLayout
