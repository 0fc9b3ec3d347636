import WireLayout.Conversion.Stock
import WireLayout.Proofs.Acceptance
import WireLayout.Proofs.Construction
import WireLayout.Proofs.Emission
import WireLayout.Proofs.Sameness

/-!
# Reencoding — encoding undoes decoding

Every prefix, tag, count and slice that a decoder accepts is the one that the encoder writes.  So a
value that was decoded is encoded as the bytes that it was read from; only bytes that an omitted
constant skipped are replaced by that constant.

* `Custom.InvertsAt` — converting back gives the value before the conversion;
* `Layout.Restores` — a layout writes a value that it read as the restored input;
* `Layout.restores` — a layout that was built and checked does, if its conversions invert;
* `Codec.encode_undoes_decode` — the same for codecs and cursors anywhere in their data.
-/

namespace WireLayout

open Piece

/-! ## Conditions -/

/-- Converting a value back after decoding gives the value again. -/
def Custom.InvertsAt {α : Type} (custom : Custom α) (raw : Value) : Prop :=
  ∀ v, custom.afterDecode raw = .ok v → custom.beforeEncode v = .ok raw

theorem Custom.invertsAt_plain {α : Type} (raw : Value) : (plain : Custom α).InvertsAt raw := by
  intro v hv
  cases hv
  rfl

namespace Layout

/-- The conversion of one item inverts, at the values that the item reads. -/
def Inverts : Layout → Prop
  | .uint _ custom _ => ∀ n : Nat, custom.InvertsAt (.int n)
  | .blob _ custom _ => ∀ content, custom.InvertsAt (.raw content)
  | .nested _ inner custom _ => ∀ ps rest raw, inner.Reads ps rest raw → custom.InvertsAt raw
  | .array _ _ custom => ∀ items, custom.InvertsAt (.list items)
  | .switch _ _ _ custom => ∀ entries, custom.InvertsAt (.dict entries)
  | _ => True

/-- No constant is left out of decoded values. -/
def KeepsConstants (l : Layout) : Prop := l.isOmitted = false

/-- A value that was read is written as the restored input. -/
def Restores (l : Layout) : Prop :=
  ∀ ⦃ps rest v⦄, l.Reads ps rest v → ((source ps).length : Int) < widthLimit →
    l.bytesOf v = .ok (restored ps)

end Layout

/-! ## Sizes of parts -/

theorem length_source_left {p q : List Piece} (h : ((source (p ++ q)).length : Int) < widthLimit) :
    ((source p).length : Int) < widthLimit := by
  rw [source_append, List.length_append] at h
  omega

theorem length_source_right {p q : List Piece} (h : ((source (p ++ q)).length : Int) < widthLimit) :
    ((source q).length : Int) < widthLimit := by
  rw [source_append, List.length_append] at h
  omega

/-! ## Constants, frames and counts -/

theorem restored_of_readsConstant {expected : Value} {content : List UInt8} {omission : Omission}
    {ps : List Piece} {v : Value} (h : ReadsConstant expected content omission ps v) :
    restored ps = content ∧ (v = .none ∨ v = expected) := by
  unfold ReadsConstant at h
  split at h
  · rcases h with ⟨bs, hbs, rfl, rfl⟩
    exact ⟨by simp [skipped, kept], .inl rfl⟩
  · rcases h with ⟨rfl, rfl⟩
    exact ⟨by simp, .inr rfl⟩

namespace Framing

variable {framing : Framing} {head : List Piece} {rest : List UInt8}

/-- The prefix that was read for a number is the one that is written for it. -/
theorem announces_of_opens {count : Nat} (h : framing.Opens head count rest)
    (hsize : ((source head).length : Int) < widthLimit) :
    framing.Announces (restored head) count := by
  cases framing with
  | fixed size =>
    rcases h with ⟨rfl, hcount⟩
    exact ⟨rfl, hcount⟩
  | counted width =>
    rcases h with ⟨bs, rfl, hwidth, hcount⟩
    have hbs : (bs.length : Int) < widthLimit := by simpa using hsize
    -- the digits have the width of the prefix, so writing the count gives them again
    have hwritten := Uint.bytesOf_decode hwidth hbs
    rw [hcount] at hwritten
    simpa [Announces] using hwritten
  | unframed => exact congrArg restored h.1

/-- A framed layout is a prefix and what the layout inside reads. -/
theorem body_of_encloses {G : List Piece → List UInt8 → Value → Prop} {ps : List Piece} {v : Value}
    (h : framing.Encloses G ps rest v) (hsize : ((source ps).length : Int) < widthLimit) :
    ∃ head body tail, ps = head ++ body ∧ G body tail v ∧
      framing.Announces (restored head) (restored body).length := by
  cases framing with
  | unframed => exact ⟨[], ps, rest, rfl, h, rfl⟩
  | _ =>
    rcases h with ⟨head, body, rfl, hopens, hbody⟩
    have hannounces := announces_of_opens hopens (length_source_left hsize)
    rw [← length_restored body] at hannounces
    exact ⟨head, body, [], rfl, hbody, hannounces⟩

end Framing

/-! ## Elements, fields and cases -/

theorem collect_writeEach_of_readsEach {element : Layout}
    {G : List Piece → List UInt8 → Value → Prop}
    (h : ∀ p tail v, G p tail v → ((source p).length : Int) < widthLimit →
      element.bytesOf v = .ok (restored p))
    {ps : List Piece} {rest : List UInt8} {items : List Value} (heach : ReadsEach G ps rest items)
    (hsize : ((source ps).length : Int) < widthLimit) :
    Writer.collect (writeEach element.encode items) = .ok (restored ps) := by
  induction items generalizing ps with
  | nil =>
    cases heach
    rfl
  | cons v items ih =>
    rcases heach with ⟨p, q, rfl, hv, hitems⟩
    have hfirst : Writer.collect (element.encode v) = .ok (restored p) :=
      h p _ v hv (length_source_left hsize)
    rw [collect_writeEach_cons element.appendOnly_encode, hfirst,
      ih hitems (length_source_right hsize), restored_append]
    rfl

namespace Layout

theorem eq_none_of_isOmitted {item : Layout} (h : item.isOmitted = true) {ps : List Piece}
    {rest : List UInt8} {v : Value} (hread : item.Reads ps rest v) : v = .none := by
  cases item with
  | uint size custom omission =>
    cases custom with
    | constant n =>
      rcases hread with ⟨content, _, hread⟩
      have hon : omission.isOn = true := h
      rw [ReadsConstant, if_pos hon] at hread
      rcases hread with ⟨_, _, _, hv⟩
      exact hv
    | _ => simp [isOmitted] at h
  | blob framing custom omission =>
    cases custom with
    | constant content =>
      have hon : omission.isOn = true := h
      rw [Reads, ReadsConstant, if_pos hon] at hread
      rcases hread with ⟨_, _, _, hv⟩
      exact hv
    | _ => simp [isOmitted] at h
  | _ => simp [isOmitted] at h

/-- Fields find their values among those that were read, whatever other entries stand before. -/
theorem fieldBytes_of_readsFields {fields : List Field} (h : ∀ f ∈ fields, f.item.Restores)
    (hnames : (fields.map Field.name).Pairwise fun a b => a.same b = false)
    {earlier : List (Label × Value)}
    (hearlier : ∀ e ∈ earlier, ∀ f ∈ fields, e.1.same f.name = false)
    {ps : List Piece} {rest : List UInt8} {entries : List (Label × Value)}
    (hread : ReadsFields fields ps rest entries) (hsize : ((source ps).length : Int) < widthLimit) :
    fieldBytes fields (earlier ++ entries) = .ok (restored ps) := by
  -- the entries of the fields before stay in the dictionary, so they have to be arbitrary
  induction fields generalizing earlier ps entries with
  | nil =>
    rcases hread with ⟨rfl, rfl⟩
    rfl
  | cons f fields ih =>
    rcases f with ⟨name, item⟩
    rcases hread with ⟨p, q, v, more, rfl, hp, hq, rfl⟩
    rcases List.forall_mem_cons.1 h with ⟨hitem, hfields⟩
    rw [List.map_cons, List.pairwise_cons] at hnames
    rcases hnames with ⟨hname, hnames⟩
    have hfirst : item.bytesOf v = .ok (restored p) := hitem hp (length_source_left hsize)
    have hlater : ∀ e ∈ earlier, ∀ f ∈ fields, e.1.same f.name = false :=
      fun e he f hf => hearlier e he f (List.mem_cons_of_mem _ hf)
    refine fieldBytes_cons_ok_iff.2 ?_
    by_cases homitted : item.isOmitted = true
    · -- an omitted field leaves no entry; its constant is written for the missing value
      rw [eq_none_of_isOmitted homitted hp] at hfirst
      have hrest := ih hfields hnames hlater hq (length_source_right hsize)
      rw [if_pos homitted]
      exact ⟨.none, restored p, restored q, input_of_isOmitted homitted name _, hfirst, hrest,
        restored_append p q⟩
    · -- a field that stays finds its own entry, since the names before it differ
      have hkept : item.isOmitted = false := by simpa using homitted
      have hentry : Value.entry? name (earlier ++ (name, v) :: more) = some v := by
        have hnot : ∀ e ∈ earlier, e.1.same name = false :=
          fun e he => hearlier e he _ List.mem_cons_self
        rw [Value.entry?_append hnot]
        exact Value.entry?_cons_self name v more
      have hbehind : ∀ e ∈ earlier ++ [(name, v)], ∀ f ∈ fields, e.1.same f.name = false := by
        intro e he f hf
        rcases List.mem_append.1 he with he | he
        · exact hlater e he f hf
        · rw [List.mem_singleton.1 he]
          exact hname f.name (List.mem_map_of_mem hf)
      have hrest := ih hfields hnames hbehind hq (length_source_right hsize)
      rw [List.append_assoc, List.singleton_append] at hrest
      rw [if_neg homitted]
      exact ⟨v, restored p, restored q, input_of_entry hkept hentry, hfirst, hrest,
        restored_append p q⟩

/-- What the case with a number reads is one of the cases, under its name. -/
theorem case_of_readsCase {idTag : Label} {cases : List Case} {id : Nat} {ps : List Piece}
    {rest : List UInt8} {entries : List (Label × Value)}
    (h : ReadsCase idTag cases id ps rest entries) :
    ∃ c ∈ cases, ∃ more, c.id.value = id ∧ ReadsFields c.fields ps rest more ∧
      entries = (idTag, .ofLabel c.name) :: more := by
  induction cases with
  | nil => exact h.elim
  | cons c cases ih =>
    rcases c with ⟨caseId, name, fields⟩
    unfold ReadsCase at h
    split at h
    · rename_i hid
      rcases h with ⟨more, hmore, hentries⟩
      exact ⟨_, List.mem_cons_self, more, hid, hmore, hentries⟩
    · rcases ih h with ⟨c, hc, hcase⟩
      exact ⟨c, List.mem_cons_of_mem _ hc, hcase⟩

/-- Of cases with distinct names, each is found under its own. -/
theorem caseBytes_of_mem {idSize : Numeral} {cases : List Case} {c : Case} (hc : c ∈ cases)
    (hnames : cases.Pairwise fun c d => c.name.same d.name = false) {v : Value}
    {tag body : List UInt8} (htag : Uint.encode (.ofNumeral c.id) idSize = .ok tag)
    (hbody : bytesOf (.record c.fields) v = .ok body) :
    caseBytes idSize cases (.ofLabel c.name) v = .ok (tag ++ body) := by
  induction cases with
  | nil => cases hc
  | cons d cases ih =>
    rw [List.pairwise_cons] at hnames
    rcases d with ⟨id, name, fields⟩
    rw [caseBytes_cons, Value.same_ofLabel]
    rcases List.mem_cons.1 hc with rfl | hc
    · have hself : name.same name = true := Label.same_refl name
      have htag' : Uint.encode (.ofNumeral id) idSize = .ok tag := htag
      have hbody' : bytesOf (.record fields) v = .ok body := hbody
      simp only [Case.name, hself, if_true, htag', hbody']
      rfl
    · have hother : c.name.same name = false := by
        rw [Label.same_comm]
        exact hnames.1 c hc
      simp only [hother]
      exact ih hc hnames.2

/-! ## Layouts -/

/-- What re-encoding needs of one item. -/
def Reversible (l : Layout) : Prop := l.WellMade ∧ l.Checked ∧ l.Inverts

/-- A layout writes a value that it read as the restored input. -/
theorem restores {l : Layout} (h : l.Everywhere Reversible) : l.Restores := by
  induction l with
  | uint size custom omission =>
    intro ps rest v hread hsize
    have hinverts : ∀ n : Nat, custom.InvertsAt (.int n) := (everywhere_uint.1 h).2.2
    by_cases hconstant : ∃ n, custom = .constant n
    · rcases hconstant with ⟨n, rfl⟩
      rcases hread with ⟨content, hcontent, hread⟩
      rcases restored_of_readsConstant hread with ⟨rfl, hv⟩
      -- the decoded value is missing or the constant, and both are accepted
      refine bytesOf_uint_constant_ok_iff.2 ⟨hcontent, hv.imp_right ?_⟩
      rintro rfl
      simp [Value.same_ofNumeral]
    · have hplain : ∀ n, custom ≠ .constant n := fun n hn => hconstant ⟨n, hn⟩
      rcases (reads_uint_iff hplain).1 hread with ⟨bs, rfl, hwidth, hv⟩
      have hbs : (bs.length : Int) < widthLimit := by simpa using hsize
      refine (bytesOf_uint_ok_iff hplain).2 ⟨_, hinverts _ v hv, ?_⟩
      simpa using Uint.encode_ok_iff.2 ⟨_, rfl, Uint.bytesOf_decode hwidth hbs⟩
  | blob framing custom omission =>
    intro ps rest v hread hsize
    have hinverts : ∀ content, custom.InvertsAt (.raw content) := (everywhere_blob.1 h).2.2
    by_cases hconstant : ∃ content, custom = .constant content
    · rcases hconstant with ⟨content, rfl⟩
      rcases restored_of_readsConstant hread with ⟨rfl, hv⟩
      refine bytesOf_blob_constant_ok_iff.2 ⟨rfl, hv.imp_right ?_⟩
      rintro rfl
      exact Value.same_raw _
    · have hplain : ∀ content, custom ≠ .constant content := fun n hn => hconstant ⟨n, hn⟩
      rcases (reads_blob_iff hplain).1 hread with ⟨head, payload, rfl, hopens, hv⟩
      have hhead := Framing.announces_of_opens hopens (length_source_left hsize)
      exact (bytesOf_blob_ok_iff hplain).2 ⟨_, payload, restored head, hinverts _ v hv, rfl, hhead,
        by simp⟩
  | nested framing inner custom omission ih =>
    intro ps rest v hread hsize
    rcases everywhere_nested.1 h with ⟨⟨_, _, hinverts⟩, hinner⟩
    rcases hread with ⟨raw, hraw, hv⟩
    rcases Framing.body_of_encloses hraw hsize with ⟨head, body, tail, rfl, hbody, hannounces⟩
    -- the prefix announces the size of the payload as found; restoring keeps that size
    have hpayload : inner.bytesOf raw = .ok (restored body) :=
      ih hinner hbody (length_source_right hsize)
    exact bytesOf_nested_ok_iff.2 ⟨raw, restored body, restored head,
      hinverts body tail raw hbody v hv, hpayload, hannounces, restored_append head body⟩
  | array framing element custom ih =>
    intro ps rest v hread hsize
    rcases everywhere_array.1 h with ⟨⟨_, _, hinverts⟩, helement⟩
    rcases hread with ⟨head, body, items, rfl, hopens, heach, hv⟩
    have hbody := collect_writeEach_of_readsEach
      (fun p tail v hp hsize => ih helement hp.2 hsize) heach (length_source_right hsize)
    exact bytesOf_array_ok_iff.2 ⟨.list items, items, restored head, restored body,
      hinverts items v hv, rfl, Framing.announces_of_opens hopens (length_source_left hsize),
      hbody, restored_append head body⟩
  | switch idSize idTag cases custom ih =>
    intro ps rest v hread hsize
    rcases everywhere_switch.1 h with ⟨⟨hmade, hchecked, hinverts⟩, hcases⟩
    rcases hread with ⟨id, body, entries, rfl, hwidth, hcase, hv⟩
    rcases case_of_readsCase hcase with ⟨c, hc, more, hid, hmore, rfl⟩
    rcases hchecked.1 c hc with ⟨hnames, tag, htag⟩
    have hname : caseName idTag (.dict ((idTag, .ofLabel c.name) :: more)) =
        .ok (.ofLabel c.name) := by
      simp [caseName, Value.part, Value.entry?_cons_self, Value.isKey_ofLabel]
    -- the check wrote the number of the case once: these are the bytes that were read
    have htagId : tag = id := by
      rcases Uint.encode_ok_iff.1 htag with ⟨n, hn, hbytes⟩
      rw [Uint.integer?_ofNumeral hn, hid] at hbytes
      exact Uint.eq_of_bytesOf_decode hwidth hbytes
    -- the entry under the tag of the switch hides no field
    have htagged : ∀ e ∈ [(idTag, Value.ofLabel c.name)], ∀ f ∈ c.fields,
        e.1.same f.name = false := by
      intro e he f hf
      rw [List.mem_singleton.1 he, Label.same_comm]
      exact (hmade.2.2.2 c hc).2 f hf
    have hfields := fieldBytes_of_readsFields (fun f hf => ih c hc f hf (hcases c hc f hf))
      (checkNames_ok_iff.1 hnames) htagged hmore (length_source_right (p := [plain id]) hsize)
    have hbody := bytesOf_record_ok_iff.2 ⟨_, rfl, hfields⟩
    refine bytesOf_switch_ok_iff.2 ⟨_, _, hinverts _ v hv, hname, ?_⟩
    rw [restored_cons, kept_plain, ← htagId]
    exact caseBytes_of_mem hc hmade.2.2.1 htag hbody
  | record fields ih =>
    intro ps rest v hread hsize
    rcases everywhere_record.1 h with ⟨⟨_, hchecked, _⟩, hfields⟩
    rcases hread with ⟨entries, hentries, rfl⟩
    have hbytes := fieldBytes_of_readsFields (fun f hf => ih f hf (hfields f hf))
      (checkNames_ok_iff.1 hchecked) (List.forall_mem_nil _) hentries hsize
    exact bytesOf_record_ok_iff.2 ⟨entries, rfl, hbytes⟩
  | _ =>
    intro ps rest v hread
    exact hread.elim

/-! ## Inputs without omitted constants -/

theorem restored_of_readsConstant_kept {expected : Value} {content : List UInt8}
    {omission : Omission} (hkept : omission.isOn = false) {ps : List Piece} {v : Value}
    (h : ReadsConstant expected content omission ps v) : restored ps = source ps := by
  rw [ReadsConstant, hkept, if_neg Bool.false_ne_true] at h
  rw [h.1]
  rfl

/-- Where no constant is omitted, the restored input is the input as it was found. -/
def Verbatim (l : Layout) : Prop :=
  ∀ ⦃ps rest v⦄, l.Reads ps rest v → restored ps = source ps

theorem restored_of_opens {framing : Framing} {head : List Piece} {count : Nat}
    {rest : List UInt8} (h : framing.Opens head count rest) : restored head = source head := by
  cases framing with
  | counted width =>
    rcases h with ⟨bs, rfl, _⟩
    rfl
  | _ =>
    rw [h.1]
    rfl

theorem restored_of_readsEach {G : List Piece → List UInt8 → Value → Prop}
    (h : ∀ p tail v, G p tail v → restored p = source p) {ps : List Piece} {rest : List UInt8}
    {items : List Value} (heach : ReadsEach G ps rest items) : restored ps = source ps := by
  induction items generalizing ps with
  | nil =>
    cases heach
    rfl
  | cons v items ih =>
    rcases heach with ⟨p, q, rfl, hv, hitems⟩
    rw [restored_append, source_append, h p _ v hv, ih hitems]

theorem restored_of_readsFields {fields : List Field} (h : ∀ f ∈ fields, f.item.Verbatim)
    {ps : List Piece} {rest : List UInt8} {entries : List (Label × Value)}
    (hread : ReadsFields fields ps rest entries) : restored ps = source ps := by
  induction fields generalizing ps entries with
  | nil =>
    rw [hread.1]
    rfl
  | cons f fields ih =>
    rcases f with ⟨name, item⟩
    rcases hread with ⟨p, q, v, more, rfl, hp, hq, _⟩
    rcases List.forall_mem_cons.1 h with ⟨hitem, hfields⟩
    rw [restored_append, source_append, hitem hp, ih hfields hq]

theorem verbatim {l : Layout} (h : l.Everywhere KeepsConstants) : l.Verbatim := by
  induction l with
  | uint size custom omission =>
    intro ps rest v hread
    by_cases hconstant : ∃ n, custom = .constant n
    · rcases hconstant with ⟨n, rfl⟩
      rcases hread with ⟨content, _, hread⟩
      exact restored_of_readsConstant_kept (everywhere_uint.1 h) hread
    · rcases (reads_uint_iff fun n hn => hconstant ⟨n, hn⟩).1 hread with ⟨bs, rfl, _⟩
      rfl
  | blob framing custom omission =>
    intro ps rest v hread
    by_cases hconstant : ∃ content, custom = .constant content
    · rcases hconstant with ⟨content, rfl⟩
      exact restored_of_readsConstant_kept (everywhere_blob.1 h) hread
    · rcases (reads_blob_iff fun n hn => hconstant ⟨n, hn⟩).1 hread with
        ⟨head, payload, rfl, hopens, _⟩
      rw [restored_append, source_append, restored_of_opens hopens]
      rfl
  | nested framing inner custom omission ih =>
    intro ps rest v hread
    have hinner := ih (everywhere_nested.1 h).2
    rcases hread with ⟨raw, hraw, _⟩
    cases framing with
    | unframed => exact hinner hraw
    | _ =>
      rcases hraw with ⟨head, body, rfl, hopens, hbody⟩
      rw [restored_append, source_append, restored_of_opens hopens, hinner hbody]
  | array framing element custom ih =>
    intro ps rest v hread
    have helement := ih (everywhere_array.1 h).2
    rcases hread with ⟨head, body, items, rfl, hopens, heach, _⟩
    rw [restored_append, source_append, restored_of_opens hopens,
      restored_of_readsEach (fun p tail w hw => helement hw.2) heach]
  | switch idSize idTag cases custom ih =>
    intro ps rest v hread
    rcases hread with ⟨id, body, entries, rfl, _, hcase, _⟩
    rcases case_of_readsCase hcase with ⟨c, hc, more, _, hmore, _⟩
    have hfields : ∀ f ∈ c.fields, f.item.Verbatim :=
      fun f hf => ih c hc f hf ((everywhere_switch.1 h).2 c hc f hf)
    rw [restored_cons, source_cons, restored_of_readsFields hfields hmore]
    rfl
  | record fields ih =>
    intro ps rest v hread
    rcases hread with ⟨entries, hentries, _⟩
    exact restored_of_readsFields (fun f hf => ih f hf ((everywhere_record.1 h).2 f hf)) hentries
  | _ =>
    intro ps rest v hread
    exact hread.elim

end Layout

/-! ## Codecs -/

namespace Codec

theorem restores {c : Codec} (built : c.layout.Built)
    (inverts : c.layout.Everywhere Layout.Inverts) : c.layout.Restores := by
  have hall := (built.everywhere_wellMade.and c.everywhere_checked).and inverts
  exact Layout.restores (hall.mono fun _ h => ⟨h.1.1, h.1.2, h.2⟩)

/-- Encoding undoes decoding.  A value that was read from a cursor anywhere in its data is encoded
as the bytes that the cursor moved over, with omitted constants in the places where they were read;
so where no constant is omitted, different messages hold different values.  Blocks of bytes are
smaller than `widthLimit`. -/
theorem encode_undoes_decode {c : Codec} (built : c.layout.Built)
    (sizes : c.layout.Everywhere Layout.NonNegative)
    (inverts : c.layout.Everywhere Layout.Inverts) :
    (∀ r : Reader, r.InBounds → (r.size : Int) < widthLimit → ∀ v r', c.read r = .ok v r' →
      ∃ ps, c.layout.Reads ps r'.rest v ∧
        source ps = sliceBetween r.bytes r.position r'.position ∧
        c.encode v = .ok (restored ps) ∧
        ((restored ps).length : Int) = r'.position - r.position) ∧
    (c.layout.Everywhere Layout.KeepsConstants → ∀ d d' : List UInt8,
      (d.length : Int) < widthLimit → (d'.length : Int) < widthLimit →
      ∀ v, c.decode d true = .ok v → c.decode d' true = .ok v → d = d') := by
  have hrestores := restores built inverts
  refine ⟨?_, ?_⟩
  · intro r hr hsize v r' hread
    rcases (read_ok_iff sizes hr).1 hread with ⟨ps, rest, hrest, hreads, rfl⟩
    -- what a cursor moves over is no longer than the data
    have hlength : ((source ps).length : Int) < widthLimit := by
      have hle := r.length_rest_le
      rw [hrest, List.length_append] at hle
      omega
    refine ⟨ps, ?_, (Reader.sliceBetween_advance hr hrest).symm, hrestores hreads hlength, ?_⟩
    · rwa [Reader.rest_advance hr hrest]
    · rw [length_restored, Reader.position_advance]
      omega
  · intro hkeeps d d' hd hd' v hv hv'
    -- both messages are what is written for the one value
    rcases (decode_whole_iff sizes).1 hv with ⟨ps, rfl, hps⟩
    rcases (decode_whole_iff sizes).1 hv' with ⟨qs, rfl, hqs⟩
    have hverbatim := Layout.verbatim hkeeps
    have hbytes := (hrestores hps hd).symm.trans (hrestores hqs hd')
    rw [Except.ok.injEq, hverbatim hps, hverbatim hqs] at hbytes
    exact hbytes

end Codec

/-! ## A layout with parts of many kinds -/

namespace Layout

/-- Identifiers in an array, and one of two records. -/
def specimenBody : Layout :=
  .record [
    .mk "ids" (.array (.counted 1) (.uint 1 (.converted Conversion.addOne) .off)
      (.converted Conversion.tuple)),
    .mk "choice" (.switch 1 "kind"
      [.mk 0 "empty" [], .mk 1 "blob" [.mk "data" (.blob .unframed .plain .off)]] .plain)]

/-- A constant that is omitted, and the specimen's body in a frame. -/
def specimen : Layout :=
  .record [.mk "magic" (.uint 2 (.constant 258) .on),
    .mk "body" (.nested (.counted 1) specimenBody .plain .off)]

theorem built_specimen : specimen.Built := by
  have hmagic : Built (.uint 2 (.constant 258) .on) := @Built.uint 2 (.value (.int 258)) .on _ rfl
  have helement : Built (.uint 1 (.converted Conversion.addOne) .off) :=
    @Built.uint 1 (.conversion Conversion.addOne) .off _ rfl
  have hids := @Built.array _ none (some 1) (.conversion Conversion.tuple) _ helement rfl
  have hdata := @Built.bytes none none none .none .off _ (by simp) rfl
  have hblob := @Built.tuple [fieldOf "data" _] (by simpa using Built.field "data" hdata)
  have hempty := @Built.tuple [] (by simp)
  have hchoice := @Built.switch (some 1) "kind" .none _
    [⟨some 0, "empty", _⟩, ⟨some 1, "blob", _⟩] (by simpa using ⟨hempty, hblob⟩) rfl
  have hinner : specimenBody.Built := by
    have hfields := @Built.tuple [fieldOf "ids" _, fieldOf "choice" _]
      (by simpa using ⟨Built.field "ids" hids, Built.field "choice" hchoice⟩)
    exact hfields
  have hbody := @Built.bytes none (some 1) (some specimenBody) .none .off _
    (by simpa using hinner) rfl
  have hfields := @Built.tuple [fieldOf "magic" _, fieldOf "body" _]
    (by simpa using ⟨Built.field "magic" hmagic, Built.field "body" hbody⟩)
  exact hfields

theorem nonNegative_specimen : specimen.Everywhere NonNegative := by
  have hone : 0 ≤ (1 : Numeral).value := by decide
  have htwo : 0 ≤ (2 : Numeral).value := by decide
  simp [specimen, specimenBody, everywhere_record, everywhere_nested, everywhere_array,
    everywhere_switch, NonNegative, Framing.NonNegative, Field.item, Case.fields, hone, htwo]

theorem inverts_specimen : specimen.Everywhere Inverts := by
  have hmagic : ∀ n : Nat, (Custom.constant 258 : Custom Numeral).InvertsAt (.int n) := by
    intro n v hv
    cases hv
    rfl
  have helement : ∀ n : Nat,
      (Custom.converted Conversion.addOne : Custom Numeral).InvertsAt (.int n) := by
    intro n v hv
    cases hv
    have hback : (n : Int) + 1 + -1 = n := by omega
    exact congrArg (fun m => Except.ok (Value.int m)) hback
  have hids : ∀ items,
      (Custom.converted Conversion.tuple : Custom Empty).InvertsAt (.list items) := by
    intro items v hv
    cases hv
    rfl
  simp [specimen, specimenBody, everywhere_record, everywhere_nested, everywhere_array,
    everywhere_switch, Inverts, Field.item, Case.fields, Custom.invertsAt_plain, hmagic, helement,
    hids]

/-- A value of the specimen; it has no entry for the constant. -/
def specimenValue : Value :=
  .dict [("body", .dict [("ids", .tuple [.int 4, .int 5]),
    ("choice", .dict [("kind", .text "blob"), ("data", .raw [5, 5])])])]

end Layout

/-- The compiled specimen. -/
def Codec.specimen : Codec := ⟨.specimen, none, rfl⟩

/-- A value is read from the second byte on, and the last byte is left.  The two bytes that do not
agree with the omitted constant are restored to it. -/
theorem Codec.encode_undoes_decode_specimen :
    Codec.specimen.read ⟨#[7, 9, 9, 6, 2, 3, 4, 1, 5, 5, 8], 1⟩ =
        .ok Layout.specimenValue ⟨#[7, 9, 9, 6, 2, 3, 4, 1, 5, 5, 8], 10⟩ ∧
      ∃ ps, Layout.specimen.Reads ps [8] Layout.specimenValue ∧
        source ps = [9, 9, 6, 2, 3, 4, 1, 5, 5] ∧ restored ps = [1, 2, 6, 2, 3, 4, 1, 5, 5] ∧
        Codec.specimen.encode Layout.specimenValue = .ok (restored ps) ∧
        ((restored ps).length : Int) = 10 - 1 := by
  have hundoes := encode_undoes_decode (c := .specimen) Layout.built_specimen
    Layout.nonNegative_specimen Layout.inverts_specimen
  have hstart : Reader.InBounds ⟨#[7, 9, 9, 6, 2, 3, 4, 1, 5, 5, 8], 1⟩ := ⟨by decide, by decide⟩
  have hread : Codec.specimen.read ⟨#[7, 9, 9, 6, 2, 3, 4, 1, 5, 5, 8], 1⟩ =
      .ok Layout.specimenValue ⟨#[7, 9, 9, 6, 2, 3, 4, 1, 5, 5, 8], 10⟩ := rfl
  rcases hundoes.1 _ hstart (by decide) _ _ hread with ⟨ps, hreads, hsource, hencode, hlength⟩
  have hbytes : Codec.specimen.encode Layout.specimenValue = .ok [1, 2, 6, 2, 3, 4, 1, 5, 5] := rfl
  have hrestored : restored ps = [1, 2, 6, 2, 3, 4, 1, 5, 5] :=
    (Except.ok.inj (hbytes.symm.trans hencode)).symm
  exact ⟨hread, ps, hreads, hsource, hrestored, hencode, hlength⟩

end WireLayout
