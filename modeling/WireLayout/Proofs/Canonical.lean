import WireLayout.Proofs.Delimiting
import WireLayout.Proofs.Reencoding

/-!
# Canonical — what a value is after encoding and decoding

Encoding forgets how a value was spelt: chains become numbers, tuples lists, and entries that a
record does not declare are dropped.

* `Layout.canonical` — the form of a value that is left, if the conversions allow it;
* `Layout.rereads` — bytes that were encoded are read as the canonical form;
* `Codec.decode_encode_canonical` — the same for whole messages of tail-safe layouts.

The invariant of the induction is that an item without a frame has nothing after it: a layout is
self-delimiting, or it is read to the end of its frame.
-/

namespace WireLayout

open Piece

/-! ## Canonical forms -/

/-- The canonical form of a constant. -/
def canonicalConstant (expected : Value) (omission : Omission) : Value :=
  if omission.isOn then .none else expected

/-- The canonical form of an integer. -/
def canonicalInt (v : Value) : Except Error Value :=
  match Uint.integer? v with
  | some n => .ok (.int n)
  | none => .error (.unexpected .integer v.typeName)

namespace Layout

mutual

/-- The canonical form of a value. -/
def canonical : Layout → Value → Except Error Value
  | .uint _ custom omission, v =>
    match custom with
    -- a constant is itself, also where a value was given for it
    | .constant n => .ok (canonicalConstant (.ofNumeral n) omission)
    | custom => do
      let raw ← custom.beforeEncode v
      let number ← canonicalInt raw
      custom.afterDecode number
  | .blob _ custom omission, v =>
    match custom with
    | .constant content => .ok (canonicalConstant (.raw content) omission)
    | custom => do
      let raw ← custom.beforeEncode v
      let content ← Block.content raw
      custom.afterDecode (.raw content)
  | .nested _ inner custom _, v => do
    let raw ← custom.beforeEncode v
    let form ← canonical inner raw
    custom.afterDecode form
  | .array _ element custom, v => do
    let raw ← custom.beforeEncode v
    let items ← arrayItems raw
    let forms ← items.mapM (canonical element)
    custom.afterDecode (.list forms)
  | .switch _ idTag cases custom, v => do
    let raw ← custom.beforeEncode v
    let name ← caseName idTag raw
    let forms ← canonicalCase idTag cases name raw
    custom.afterDecode (.dict forms)
  | .record fields, v => do
    let entries ← recordEntries v
    let forms ← canonicalFields fields entries
    return .dict forms
  | l, _ => .error (.definition (.notALayout l.listing))
termination_by structural l => l

/-- The canonical forms of the entries that a record declares. -/
def canonicalFields : List Field → List (Label × Value) → Except Error (List (Label × Value))
  | [], _ => .ok []
  | .mk name item :: fields, entries => do
    let v ← item.input name entries
    let form ← canonical item v
    let forms ← canonicalFields fields entries
    -- only declared fields are kept, and of these not the omitted ones
    return if item.isOmitted then forms else (name, form) :: forms
termination_by structural fields => fields

/-- The canonical entries of the case with a name, that name among them. -/
def canonicalCase (idTag : Label) :
    List Case → (name v : Value) → Except Error (List (Label × Value))
  | [], name, _ => .error (.unknownCaseName name)
  | .mk _ caseName fields :: cases, name, v =>
    if name.same (.ofLabel caseName) then do
      let entries ← recordEntries v
      let forms ← canonicalFields fields entries
      return (idTag, .ofLabel caseName) :: forms
    else canonicalCase idTag cases name v
termination_by structural cases => cases

end

/-! ## Parts of canonical forms -/

variable {framing : Framing} {omission : Omission} {v w : Value}

theorem canonical_uint {size : Numeral} {custom : Custom Numeral}
    (h : ∀ n, custom ≠ .constant n) :
    canonical (.uint size custom omission) v = (do
      let raw ← custom.beforeEncode v
      let number ← canonicalInt raw
      custom.afterDecode number) := by
  cases custom with
  | constant n => exact absurd rfl (h n)
  | _ => rfl

theorem canonical_blob {custom : Custom (List UInt8)} (h : ∀ content, custom ≠ .constant content) :
    canonical (.blob framing custom omission) v = (do
      let raw ← custom.beforeEncode v
      let content ← Block.content raw
      custom.afterDecode (.raw content)) := by
  cases custom with
  | constant content => exact absurd rfl (h content)
  | _ => rfl

theorem canonicalFields_cons_ok_iff {name : Label} {item : Layout} {fields : List Field}
    {entries forms : List (Label × Value)} :
    canonicalFields (.mk name item :: fields) entries = .ok forms ↔
      ∃ v form more, item.input name entries = .ok v ∧ canonical item v = .ok form ∧
        canonicalFields fields entries = .ok more ∧
        forms = if item.isOmitted then more else (name, form) :: more := by
  simp only [canonicalFields, Except.bind_ok_iff, Except.pure_ok_iff]
  constructor
  · intro h
    rcases h with ⟨v, hv, form, hform, more, hmore, rfl⟩
    exact ⟨v, form, more, hv, hform, hmore, rfl⟩
  · intro h
    rcases h with ⟨v, form, more, hv, hform, hmore, rfl⟩
    exact ⟨v, hv, form, hform, more, hmore, rfl⟩

/-! ## Reading what was written -/

/-- What was written for a value is read as its canonical form, also in front of other bytes unless
the layout needs the end of a frame. -/
def Rereads (l : Layout) : Prop :=
  ∀ ⦃v b w rest⦄, l.bytesOf v = .ok b → l.canonical v = .ok w → (l.SelfDelimiting ∨ rest = []) →
    ∃ ps, source ps = b ∧ l.Reads ps rest w

theorem readsConstant_canonical (expected : Value) (content : List UInt8) (omission : Omission) :
    ∃ ps, source ps = content ∧
      ReadsConstant expected content omission ps (canonicalConstant expected omission) := by
  by_cases hon : omission.isOn = true
  · refine ⟨[skipped content content rfl], by simp [skipped], ?_⟩
    rw [ReadsConstant, canonicalConstant, if_pos hon, if_pos hon]
    exact ⟨content, rfl, rfl, rfl⟩
  · refine ⟨[plain content], by simp, ?_⟩
    rw [ReadsConstant, canonicalConstant, if_neg hon, if_neg hon]
    exact ⟨rfl, rfl⟩

/-- The prefix that was written for a number is read as it. -/
theorem opens_of_announces {head : List UInt8} {count : Nat} (h : framing.Announces head count)
    (rest : List UInt8) (hrest : framing = .unframed → rest = []) :
    ∃ ps, source ps = head ∧ framing.Opens ps count rest := by
  cases framing with
  | fixed n =>
    rcases h with ⟨rfl, hcount⟩
    exact ⟨[], rfl, rfl, hcount⟩
  | counted width =>
    rcases Uint.of_bytesOf_ok h with ⟨hwidth, hcount⟩
    exact ⟨[plain head], by simp, head, rfl, hwidth, by omega⟩
  | unframed =>
    cases h
    exact ⟨[], rfl, rfl, hrest rfl⟩

theorem readsEach_of_collect {element : Layout} (h : element.Rereads)
    (hdelimits : element.SelfDelimiting) (hmoves : framing = .unframed → element.NeverEmpty)
    {items forms : List Value} {body : List UInt8}
    (hbody : Writer.collect (writeEach element.encode items) = .ok body)
    (hforms : items.mapM element.canonical = .ok forms) (rest : List UInt8) :
    forms.length = items.length ∧ ∃ ps, source ps = body ∧
      ReadsEach (fun p tail w => (framing = .unframed → source p ≠ []) ∧ element.Reads p tail w)
        ps rest forms := by
  induction items generalizing body forms with
  | nil =>
    rw [List.mapM_nil, Except.pure_ok_iff] at hforms
    cases hbody
    subst hforms
    exact ⟨rfl, [], rfl, rfl⟩
  | cons v items ih =>
    rcases (collect_writeEach_cons_ok_iff element.appendOnly_encode).1 hbody with
      ⟨first, later, hfirst, hlater, rfl⟩
    simp only [List.mapM_cons, Except.bind_ok_iff, Except.pure_ok_iff] at hforms
    rcases hforms with ⟨form, hform, more, hmore, rfl⟩
    rcases ih hlater hmore with ⟨hlength, q, rfl, heach⟩
    -- the element is read in front of the later ones, so it has to be self-delimiting
    rcases @h _ _ _ (source q ++ rest) hfirst hform (.inl hdelimits) with ⟨p, rfl, hp⟩
    have hne : framing = .unframed → source p ≠ [] := fun hu => hmoves hu v _ hfirst
    exact ⟨by simp [hlength], p ++ q, source_append p q, p, q, rfl, ⟨hne, hp⟩, heach⟩

theorem readsFields_of_fieldBytes {fields : List Field} (h : ∀ f ∈ fields, f.item.TailSafe →
      f.item.Rereads)
    (hsafe : FieldsTailSafe fields) {entries forms : List (Label × Value)} {b rest : List UInt8}
    (hend : FieldsSelfDelimiting fields ∨ rest = [])
    (hb : fieldBytes fields entries = .ok b) (hforms : canonicalFields fields entries = .ok forms) :
    ∃ ps, source ps = b ∧ ReadsFields fields ps rest forms := by
  -- the later fields come first: the first one needs to know what stands behind it
  induction fields generalizing b forms with
  | nil =>
    cases hb
    cases hforms
    exact ⟨[], rfl, rfl, rfl⟩
  | cons f fields ih =>
    rcases f with ⟨name, item⟩
    rcases hsafe with ⟨hitem, hnotLast, hfields⟩
    rcases List.forall_mem_cons.1 h with ⟨hrereads, hlater⟩
    rcases fieldBytes_cons_ok_iff.1 hb with ⟨v, first, later, hv, hfirst, hrest, rfl⟩
    rcases canonicalFields_cons_ok_iff.1 hforms with ⟨v', form, more, hv', hform, hmore, rfl⟩
    rw [hv, Except.ok.injEq] at hv'
    subst hv'
    have hendLater : FieldsSelfDelimiting fields ∨ rest = [] := hend.imp_left fun hd => hd.2
    rcases ih hlater hfields hendLater hrest hmore with ⟨q, rfl, hq⟩
    have hendFirst : item.SelfDelimiting ∨ source q ++ rest = [] := by
      by_cases hlast : fields = []
      -- the last field ends where the record ends
      · subst hlast
        rcases hq with ⟨rfl, _⟩
        exact hend.imp (fun hd => hd.1) fun hr => hr
      · exact .inl (hnotLast hlast)
    rcases hrereads hitem hfirst hform hendFirst with ⟨p, rfl, hp⟩
    exact ⟨p ++ q, source_append p q, p, q, form, more, rfl, hp, hq, rfl⟩

/-- What was written in a switch was written by the case that has the canonical entries. -/
theorem case_of_caseBytes {idSize : Numeral} (idTag : Label) {cases : List Case} {name v : Value}
    {b : List UInt8} (hb : caseBytes idSize cases name v = .ok b) :
    ∃ c ∈ cases, ∃ tag entries body, Uint.encode (.ofNumeral c.id) idSize = .ok tag ∧
      fieldBytes c.fields entries = .ok body ∧ b = tag ++ body ∧
      canonicalCase idTag cases name v = (do
        let forms ← canonicalFields c.fields entries
        return (idTag, .ofLabel c.name) :: forms) := by
  induction cases with
  | nil => cases hb
  | cons c cases ih =>
    rcases c with ⟨id, caseName, fields⟩
    rw [caseBytes_cons] at hb
    unfold canonicalCase
    -- both recursions stop at the first case with the name
    by_cases hname : name.same (.ofLabel caseName) = true
    · rw [if_pos hname] at hb
      rcases Except.append_ok_iff.1 hb with ⟨tag, body, htag, hbody, rfl⟩
      rcases bytesOf_record_ok_iff.1 hbody with ⟨entries, rfl, hbody⟩
      refine ⟨_, List.mem_cons_self, tag, entries, body, htag, hbody, rfl, ?_⟩
      rw [if_pos hname]
      rfl
    · rw [if_neg hname] at hb ⊢
      rcases ih hb with ⟨c, hc, hcase⟩
      exact ⟨c, List.mem_cons_of_mem _ hc, hcase⟩

/-- Of cases with distinct numbers, each is found under its own. -/
theorem readsCase_of_mem {idTag : Label} {cases : List Case} {c : Case} (hc : c ∈ cases)
    (hids : cases.Pairwise fun c d => c.id.value ≠ d.id.value) {id : Nat} (hid : c.id.value = id)
    {ps : List Piece} {rest : List UInt8} {more : List (Label × Value)}
    (hmore : ReadsFields c.fields ps rest more) :
    ReadsCase idTag cases id ps rest ((idTag, .ofLabel c.name) :: more) := by
  induction cases with
  | nil => cases hc
  | cons d cases ih =>
    rw [List.pairwise_cons] at hids
    rcases d with ⟨caseId, name, fields⟩
    unfold ReadsCase
    rcases List.mem_cons.1 hc with rfl | hc
    · have hself : caseId.value = id := hid
      rw [if_pos hself]
      exact ⟨more, hmore, rfl⟩
    · have hother : caseId.value ≠ id := by
        rw [← hid]
        exact hids.1 c hc
      rw [if_neg hother]
      exact ih hc hids.2

/-- Bytes that were encoded are read as the canonical form of the value. -/
theorem rereads {l : Layout} (made : l.Everywhere WellMade) (safe : l.TailSafe) : l.Rereads := by
  induction l with
  | uint size custom omission =>
    intro v b w rest hb hw hend
    by_cases hconstant : ∃ n, custom = .constant n
    · rcases hconstant with ⟨n, rfl⟩
      rcases bytesOf_uint_constant_ok_iff.1 hb with ⟨hcontent, _⟩
      cases hw
      rcases readsConstant_canonical (.ofNumeral n) b omission with ⟨ps, hps, hreads⟩
      exact ⟨ps, hps, b, hcontent, hreads⟩
    · have hplain : ∀ n, custom ≠ .constant n := fun n hn => hconstant ⟨n, hn⟩
      rcases (bytesOf_uint_ok_iff hplain).1 hb with ⟨raw, hraw, hb⟩
      rcases Uint.encode_ok_iff.1 hb with ⟨n, hn, hb⟩
      rw [canonical_uint hplain] at hw
      simp only [hraw, canonicalInt, hn, Except.ok_bind] at hw
      rcases Uint.of_bytesOf_ok hb with ⟨hwidth, hdigits⟩
      refine ⟨[plain b], by simp, (reads_uint_iff hplain).2 ⟨b, rfl, hwidth, ?_⟩⟩
      rw [hdigits, hw]
  | blob framing custom omission =>
    intro v b w rest hb hw hend
    by_cases hconstant : ∃ content, custom = .constant content
    · rcases hconstant with ⟨content, rfl⟩
      rcases bytesOf_blob_constant_ok_iff.1 hb with ⟨rfl, _⟩
      cases hw
      exact readsConstant_canonical (.raw b) b omission
    · have hplain : ∀ content, custom ≠ .constant content := fun n hn => hconstant ⟨n, hn⟩
      rcases (bytesOf_blob_ok_iff hplain).1 hb with ⟨raw, payload, head, hraw, hpayload, hhead, rfl⟩
      rw [canonical_blob hplain] at hw
      simp only [hraw, hpayload, Except.ok_bind] at hw
      have hrest : framing = .unframed → rest = [] :=
        fun hu => hend.resolve_left fun hd => hconstant (hd hu)
      rcases opens_of_announces hhead rest hrest with ⟨ps, rfl, hopens⟩
      exact ⟨ps ++ [plain payload], by simp,
        (reads_blob_iff hplain).2 ⟨ps, payload, rfl, hopens, hw⟩⟩
  | nested framing inner custom omission ih =>
    intro v b w rest hb hw hend
    have hinner := ih (everywhere_nested.1 made).2 safe
    rcases bytesOf_nested_ok_iff.1 hb with ⟨raw, payload, head, hraw, hpayload, hhead, rfl⟩
    simp only [canonical, hraw, Except.ok_bind, Except.bind_ok_iff] at hw
    rcases hw with ⟨form, hform, hw⟩
    cases framing with
    | unframed =>
      cases hhead
      rcases hinner hpayload hform (hend.imp_left fun hd => hd rfl) with ⟨ps, rfl, hps⟩
      exact ⟨ps, rfl, form, hps, hw⟩
    | _ =>
      -- inside its frame the layout has nothing behind it
      rcases @hinner _ _ _ [] hpayload hform (.inr rfl) with ⟨body, rfl, hbody⟩
      rcases opens_of_announces hhead rest nofun with ⟨ps, rfl, hopens⟩
      exact ⟨ps ++ body, source_append ps body, form, ⟨ps, body, rfl, hopens, hbody⟩, hw⟩
  | array framing element custom ih =>
    intro v b w rest hb hw hend
    rcases safe with ⟨hdelimits, helement, hmoves⟩
    have hrereads := ih (everywhere_array.1 made).2 helement
    rcases bytesOf_array_ok_iff.1 hb with ⟨raw, items, head, body, hraw, hitems, hhead, hbody, rfl⟩
    simp only [canonical, hraw, hitems, Except.ok_bind, Except.bind_ok_iff] at hw
    rcases hw with ⟨forms, hforms, hw⟩
    have hrest : framing = .unframed → rest = [] := fun hu => hend.resolve_left fun hd => hd.1 hu
    -- the count was written for the items and is read for as many forms
    rcases readsEach_of_collect hrereads hdelimits hmoves hbody hforms rest with
      ⟨hlength, qs, rfl, heach⟩
    rcases opens_of_announces hhead rest hrest with ⟨ps, rfl, hopens⟩
    rw [← hlength] at hopens
    exact ⟨ps ++ qs, source_append ps qs, ps, qs, forms, rfl, hopens, heach, hw⟩
  | switch idSize idTag cases custom ih =>
    intro v b w rest hb hw hend
    rcases everywhere_switch.1 made with ⟨⟨_, hids, _, _⟩, hcases⟩
    rcases bytesOf_switch_ok_iff.1 hb with ⟨raw, name, hraw, hname, hb⟩
    simp only [canonical, hraw, hname, Except.ok_bind, Except.bind_ok_iff] at hw
    rcases hw with ⟨forms, hforms, hw⟩
    rcases case_of_caseBytes idTag hb with ⟨c, hc, tag, entries, body, htag, hbody, rfl, hcase⟩
    simp only [hcase, Except.bind_ok_iff, Except.pure_ok_iff] at hforms
    rcases hforms with ⟨more, hmore, rfl⟩
    have hendCase : FieldsSelfDelimiting c.fields ∨ rest = [] :=
      hend.imp_left fun hd => casesSelfDelimiting_iff.1 hd c hc
    have hfields := readsFields_of_fieldBytes (fun f hf => ih c hc f hf (hcases c hc f hf))
      (casesTailSafe_iff.1 safe c hc) hendCase hbody hmore
    rcases hfields with ⟨ps, rfl, hps⟩
    rcases Uint.encode_ok_iff.1 htag with ⟨n, hn, htag⟩
    rcases Uint.of_bytesOf_ok htag with ⟨hwidth, hdigits⟩
    have hid : c.id.value = (BigEndian.decode tag : Nat) := by
      rw [hdigits, Uint.integer?_ofNumeral hn]
    exact ⟨plain tag :: ps, rfl, tag, ps, _, rfl, hwidth, readsCase_of_mem hc hids hid hps, hw⟩
  | record fields ih =>
    intro v b w rest hb hw hend
    rcases bytesOf_record_ok_iff.1 hb with ⟨entries, rfl, hb⟩
    simp only [canonical, recordEntries, Except.ok_bind, Except.bind_ok_iff,
      Except.pure_ok_iff] at hw
    rcases hw with ⟨forms, hforms, rfl⟩
    have hfields := readsFields_of_fieldBytes
      (fun f hf => ih f hf ((everywhere_record.1 made).2 f hf)) safe hend hb hforms
    rcases hfields with ⟨ps, hps, hreads⟩
    exact ⟨ps, hps, forms, hreads, rfl⟩
  | _ =>
    intro v b w rest hb
    cases hb

/-! ## When there is a canonical form -/

/-- The conversion of an item. -/
def conversion? : Layout → Option Conversion
  | .uint _ (.converted c) _ => some c
  | .blob _ (.converted c) _ => some c
  | .nested _ _ (.converted c) _ => some c
  | .array _ _ (.converted c) => some c
  | .switch _ _ _ (.converted c) => some c
  | _ => none

theorem converts_iff {A : Conversion → Prop} {p : Layout} :
    p.Converts A ↔ ∀ c, p.conversion? = some c → A c := by
  cases p with
  | uint size custom omission => cases custom <;> simp [Converts, Custom.Converts, conversion?]
  | blob framing custom omission => cases custom <;> simp [Converts, Custom.Converts, conversion?]
  | nested framing inner custom omission =>
    cases custom <;> simp [Converts, Custom.Converts, conversion?]
  | array framing element custom => cases custom <;> simp [Converts, Custom.Converts, conversion?]
  | switch idSize idTag cases custom =>
    cases custom <;> simp [Converts, Custom.Converts, conversion?]
  | _ => simp [Converts, conversion?]

/-- Some conversion in the layout refuses a decoded value. -/
def Refuses (l : Layout) (e : Error) : Prop :=
  ∃ p c raw, l.HasPart p ∧ p.conversion? = some c ∧ c.afterDecode raw = .error e

variable {e : Error} {b : List UInt8}

theorem Refuses.inside {inner l : Layout} (h : inner.Refuses e)
    (hparts : ∀ p, inner.HasPart p → l.HasPart p) : l.Refuses e := by
  rcases h with ⟨p, c, raw, hp, hc, hraw⟩
  exact ⟨p, c, raw, hparts p hp, hc, hraw⟩

theorem converted_of_afterDecode {α : Type} {custom : Custom α} {raw form : Value}
    (hraw : custom.beforeEncode v = .ok raw) (h : custom.afterDecode form = .error e) :
    ∃ c, custom = .converted c ∧ c.afterDecode form = .error e := by
  cases custom with
  | converted c => exact ⟨c, rfl, h⟩
  | unsuitable w => cases hraw
  | _ => cases h

theorem refuses_of_each {element : Layout}
    (h : ∀ v b, element.bytesOf v = .ok b → element.canonical v = .error e → element.Refuses e)
    {items : List Value} {body : List UInt8}
    (hbody : Writer.collect (writeEach element.encode items) = .ok body)
    (herror : items.mapM element.canonical = .error e) : element.Refuses e := by
  induction items generalizing body with
  | nil => cases herror
  | cons v items ih =>
    rcases (collect_writeEach_cons_ok_iff element.appendOnly_encode).1 hbody with
      ⟨first, later, hfirst, hlater, _⟩
    rw [List.mapM_cons, Except.bind_error_iff] at herror
    rcases herror with herror | ⟨form, _, herror⟩
    · exact h v first hfirst herror
    · rcases Except.bind_error_iff.1 herror with herror | ⟨forms, _, herror⟩
      · exact ih hlater herror
      · cases herror

theorem refuses_of_fields {fields : List Field}
    (h : ∀ f ∈ fields, ∀ v b, f.item.bytesOf v = .ok b → f.item.canonical v = .error e →
      f.item.Refuses e)
    {entries : List (Label × Value)} (hb : fieldBytes fields entries = .ok b)
    (herror : canonicalFields fields entries = .error e) : ∃ f ∈ fields, f.item.Refuses e := by
  induction fields generalizing b with
  | nil => cases herror
  | cons f fields ih =>
    rcases f with ⟨name, item⟩
    rcases List.forall_mem_cons.1 h with ⟨hitem, hlater⟩
    rcases fieldBytes_cons_ok_iff.1 hb with ⟨v, first, later, hv, hfirst, hrest, _⟩
    simp only [canonicalFields, hv, Except.ok_bind, Except.bind_error_iff] at herror
    rcases herror with herror | ⟨form, _, herror | ⟨forms, _, herror⟩⟩
    · exact ⟨_, List.mem_cons_self, hitem v first hfirst herror⟩
    · rcases ih hlater hrest herror with ⟨f, hf, hrefuses⟩
      exact ⟨f, List.mem_cons_of_mem _ hf, hrefuses⟩
    · cases herror

/-- A value that can be encoded lacks a canonical form only if a conversion refuses one. -/
theorem refuses_of_canonical {l : Layout} (hb : l.bytesOf v = .ok b)
    (herror : l.canonical v = .error e) : l.Refuses e := by
  -- the steps before a conversion are those of the encoder, which did not fail
  induction l generalizing v b with
  | uint size custom omission =>
    by_cases hconstant : ∃ n, custom = .constant n
    · rcases hconstant with ⟨n, rfl⟩
      cases herror
    · have hplain : ∀ n, custom ≠ .constant n := fun n hn => hconstant ⟨n, hn⟩
      rcases (bytesOf_uint_ok_iff hplain).1 hb with ⟨raw, hraw, hb⟩
      rcases Uint.encode_ok_iff.1 hb with ⟨n, hn, _⟩
      rw [canonical_uint hplain] at herror
      simp only [hraw, canonicalInt, hn, Except.ok_bind] at herror
      rcases converted_of_afterDecode hraw herror with ⟨c, rfl, herror⟩
      exact ⟨_, c, _, .self _, rfl, herror⟩
  | blob framing custom omission =>
    by_cases hconstant : ∃ content, custom = .constant content
    · rcases hconstant with ⟨content, rfl⟩
      cases herror
    · have hplain : ∀ content, custom ≠ .constant content := fun n hn => hconstant ⟨n, hn⟩
      rcases (bytesOf_blob_ok_iff hplain).1 hb with ⟨raw, payload, _, hraw, hpayload, _⟩
      rw [canonical_blob hplain] at herror
      simp only [hraw, hpayload, Except.ok_bind] at herror
      rcases converted_of_afterDecode hraw herror with ⟨c, rfl, herror⟩
      exact ⟨_, c, _, .self _, rfl, herror⟩
  | nested framing inner custom omission ih =>
    rcases bytesOf_nested_ok_iff.1 hb with ⟨raw, payload, head, hraw, hpayload, _⟩
    simp only [canonical, hraw, Except.ok_bind, Except.bind_error_iff] at herror
    rcases herror with herror | ⟨form, _, herror⟩
    · exact (ih hpayload herror).inside fun p hp => .nested hp
    · rcases converted_of_afterDecode hraw herror with ⟨c, rfl, herror⟩
      exact ⟨_, c, _, .self _, rfl, herror⟩
  | array framing element custom ih =>
    rcases bytesOf_array_ok_iff.1 hb with ⟨raw, items, head, body, hraw, hitems, _, hbody, _⟩
    simp only [canonical, hraw, hitems, Except.ok_bind, Except.bind_error_iff] at herror
    rcases herror with herror | ⟨forms, _, herror⟩
    · exact (refuses_of_each (fun _ _ => ih) hbody herror).inside fun p hp => .array hp
    · rcases converted_of_afterDecode hraw herror with ⟨c, rfl, herror⟩
      exact ⟨_, c, _, .self _, rfl, herror⟩
  | switch idSize idTag cases custom ih =>
    rcases bytesOf_switch_ok_iff.1 hb with ⟨raw, name, hraw, hname, hb⟩
    simp only [canonical, hraw, hname, Except.ok_bind, Except.bind_error_iff] at herror
    rcases case_of_caseBytes idTag hb with ⟨c, hc, tag, entries, body, _, hbody, _, hcase⟩
    rw [hcase, Except.bind_error_iff] at herror
    rcases herror with (herror | ⟨forms, _, herror⟩) | ⟨forms, _, herror⟩
    · rcases refuses_of_fields (fun f hf v b => ih c hc f hf) hbody herror with ⟨f, hf, hrefuses⟩
      exact hrefuses.inside fun p hp => .switch hc hf hp
    · cases herror
    · rcases converted_of_afterDecode hraw herror with ⟨c, rfl, herror⟩
      exact ⟨_, c, _, .self _, rfl, herror⟩
  | record fields ih =>
    rcases bytesOf_record_ok_iff.1 hb with ⟨entries, rfl, hb⟩
    simp only [canonical, recordEntries, Except.ok_bind, Except.bind_error_iff] at herror
    rcases herror with herror | ⟨forms, _, herror⟩
    · rcases refuses_of_fields (fun f hf v b => ih f hf) hb herror with ⟨f, hf, hrefuses⟩
      exact hrefuses.inside fun p hp => .record hf hp
    · cases herror
  | _ => cases hb

end Layout

/-! ## Codecs -/

namespace Codec

/-- A message that was encoded in a tail-safe layout is decoded to the canonical form of its value,
and there is one unless a conversion refuses what was encoded. -/
theorem decode_encode_canonical {c : Codec} (built : c.layout.Built) (safe : c.layout.TailSafe)
    {v : Value} {b : List UInt8} (h : c.encode v = .ok b) :
    (∀ w, c.layout.canonical v = .ok w → c.decode b true = .ok w) ∧
      ∀ e, c.layout.canonical v = .error e → c.layout.Refuses e := by
  refine ⟨?_, fun e herror => Layout.refuses_of_canonical h herror⟩
  intro w hw
  have hrereads := Layout.rereads built.everywhere_wellMade safe
  rcases @hrereads _ _ _ [] h hw (.inr rfl) with ⟨ps, rfl, hreads⟩
  exact decode_of_reads hreads

end Codec

theorem Layout.tailSafe_specimen : specimen.TailSafe := by
  simp [specimen, specimenBody, TailSafe, FieldsTailSafe, CasesTailSafe, SelfDelimiting]

theorem Layout.selfDelimiting_specimen : specimen.SelfDelimiting := by
  simp [specimen, SelfDelimiting, FieldsSelfDelimiting]

/-- A list becomes the tuple that its conversion shows, bytes become immutable, and an entry that is
not declared is dropped. -/
theorem Codec.decode_encode_canonical_specimen :
    Codec.specimen.decode [1, 2, 6, 2, 3, 4, 1, 5, 5] true = .ok Layout.specimenValue := by
  have hencode : Codec.specimen.encode (.dict [("body", .dict [
      ("choice",
        .dict [("data", .bytes .growing [5, 5]), ("size", .int 2), ("kind", .text "blob")]),
      ("ids", .list [.int 4, .int 5])])]) = .ok [1, 2, 6, 2, 3, 4, 1, 5, 5] := rfl
  have hform := decode_encode_canonical (c := .specimen) Layout.built_specimen
    Layout.tailSafe_specimen hencode
  exact hform.1 Layout.specimenValue rfl

end WireLayout
