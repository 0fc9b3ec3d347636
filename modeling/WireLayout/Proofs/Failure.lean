import WireLayout.Proofs.Acceptance
import WireLayout.Proofs.Construction

/-!
# Failure — the ways in which decoding can fail

Decoding fails only where some item of the layout finds a fault of its own kind.  The classes of
failures that a layout can end in are therefore those of its parts.

* `Layout.Fault` — the classes of the failures that one item finds by itself;
* `Decoding.FailsWith` — a computation fails in the given classes only;
* `Layout.fails_decode` — decoding a layout fails with the faults of its parts;
* `Codec.kind_of_decode` — the same for messages, which may also be too long.

A failure keeps its class only if the integers in its sentence can be spelt.  So sizes have to be
numbers that can be spelt, and prefixes have to be too short for other numbers (`Layout.Spelt`).
-/

namespace WireLayout

open Piece

variable {α β : Type}

/-! ## Computations that fail in known ways -/

namespace Decoding

/-- All failures at cursors inside their data belong to the given classes. -/
def FailsWith (x : Decoding α) (S : ErrorKind → Prop) : Prop :=
  ∀ ⦃r e r'⦄, r.InBounds → spellable r.size = true → x r = .error e r' → S e.kind

variable {x : Decoding α} {P : Prop} {G : List Piece → List UInt8 → α → Prop}
  {S T : ErrorKind → Prop}

theorem FailsWith.mono (hx : x.FailsWith S) (h : ∀ k, S k → T k) : x.FailsWith T :=
  fun _ _ _ hr hsize hfails => h _ (hx hr hsize hfails)

theorem failsWith_ofExcept {res : Except Error α} (h : ∀ e, res = .error e → S e.kind) :
    (ofExcept res).FailsWith S := by
  intro r e r' _ _ hfails
  cases res with
  | ok a => cases hfails
  | error e =>
    cases hfails
    exact h e rfl

/-- The second computation runs on what the first one found, and inside the same data. -/
theorem FailsWith.bind (hx : x.FailsWith S) (haccepts : x.Accepts P G) (hP : P)
    {f : α → Decoding β} (hf : ∀ ps rest a, G ps rest a → spellable (source ps).length = true →
      (f a).FailsWith S) : (x >>= f).FailsWith S := by
  intro r e r' hr hsize hfails
  simp only [Bind.bind, EStateM.bind] at hfails
  split at hfails
  · rename_i a t hat
    rcases haccepts.found hP hr hat with ⟨ps, rest, hps, hG, rfl⟩
    have hlength : spellable (source ps).length = true := by
      have hle := r.length_rest_le
      rw [hps, List.length_append] at hle
      exact spellable_of_le (by omega) hsize
    exact hf ps rest a hG hlength (Reader.inBounds_advance hr hps) hsize hfails
  · rename_i e' t he
    cases hfails
    exact hx hr hsize he

theorem FailsWith.bind_ofExcept (hx : x.FailsWith S) (haccepts : x.Accepts P G) (hP : P)
    {f : α → Except Error β} (hf : ∀ ps rest a, G ps rest a → ∀ e, f a = .error e → S e.kind) :
    (x >>= fun a => ofExcept (f a)).FailsWith S :=
  hx.bind haccepts hP fun ps rest a hG _ => failsWith_ofExcept (hf ps rest a hG)

theorem FailsWith.bind_pure (hx : x.FailsWith S) (f : α → β) :
    (x >>= fun a => pure (f a)).FailsWith S := by
  intro r e r' hr hsize hfails
  simp only [Bind.bind, EStateM.bind] at hfails
  split at hfails
  · cases hfails
  · rename_i e' t he
    cases hfails
    exact hx hr hsize he

end Decoding

open Decoding

variable {S : ErrorKind → Prop}

/-! ## Reading bytes -/

/-- The numbers that a prefix can announce, and its own width, can be spelt. -/
def Numeral.SpeltAsPrefix (width : Numeral) : Prop :=
  width.spellable = true ∧ ∀ bs : List UInt8, (bs.length : Int) = width.value →
    (Numeral.plain (BigEndian.decode bs)).spellable = true

/-- The numbers that stand in failures to read a frame can be spelt. -/
def Framing.Spelt : Framing → Prop
  | .fixed n => n.spellable = true
  | .counted width => width.SpeltAsPrefix
  | .unframed => True

theorem spellable_position {r : Reader} (hr : r.InBounds) (hsize : spellable r.size = true) :
    spellable r.position = true := by
  rcases hr with ⟨hlow, hhigh⟩
  exact spellable_of_le (by omega) hsize

theorem spellable_remaining {r : Reader} (hr : r.InBounds) (hsize : spellable r.size = true) :
    spellable r.remaining = true := by
  rcases hr with ⟨hlow, hhigh⟩
  exact spellable_of_le (by unfold Reader.remaining; omega) hsize

theorem fails_read (htruncated : S .truncatedInput) {n : Numeral} (hn : n.spellable = true) :
    (Reader.read n).FailsWith S := by
  intro r e r' hr hsize hfails
  unfold Reader.read at hfails
  split at hfails
  · cases hfails
    have hspelt : (Error.truncated (.read n r.position r.remaining)).spellable = true := by
      simp [Error.spellable, Truncation.spellable, hn, spellable_position hr hsize,
        spellable_remaining hr hsize]
    rw [Error.kind_of_spellable hspelt]
    exact htruncated
  · cases hfails

theorem fails_readNat (htruncated : S .truncatedInput) {width : Numeral} (hlow : 0 ≤ width.value)
    (hwidth : width.spellable = true) : (readNat width).FailsWith S := by
  refine (fails_read htruncated hwidth).bind_ofExcept (accepts_read width) hlow ?_
  -- as many bytes as the width asks for make a number
  intro ps rest bs hbs e he
  rw [Uint.ofBytes_of_length hbs.2] at he
  cases he

theorem fails_readConstant (htruncated : S .truncatedInput) (expected : Value)
    {content : List UInt8} (hcontent : (Numeral.plain content.length).spellable = true)
    {omission : Omission}
    (hmismatch : omission.isOn = false → S .fixedValueMismatch) :
    (readConstant expected content omission).FailsWith S := by
  rw [readConstant_eq]
  refine (fails_read htruncated hcontent).bind_ofExcept (accepts_read _) (Int.natCast_nonneg _) ?_
  intro ps rest data _ e he
  unfold constantAt at he
  split at he
  · cases he
  · rename_i homission
    split at he
    · cases he
    · cases he
      exact hmismatch (Bool.eq_false_iff.2 homission)

theorem fails_readFrame (htruncated : S .truncatedInput) {framing : Framing}
    (hsizes : framing.NonNegative) (hspelt : framing.Spelt) : (readFrame framing).FailsWith S := by
  cases framing with
  | fixed size => exact fails_read htruncated hspelt
  | counted width =>
    refine (fails_readNat htruncated hsizes hspelt.1).bind (accepts_readNat width) hsizes ?_
    intro ps rest count hcount _
    rcases hcount with ⟨bs, _, hbs, rfl⟩
    exact fails_read htruncated (hspelt.2 bs hbs)
  | unframed =>
    intro r e r' _ _ hfails
    cases hfails

section

variable {inner : Decoding Value} {P : Prop} {G : List Piece → List UInt8 → Value → Prop}

/-- A frame fails as its content does, or because the content does not use it up. -/
theorem fails_wholeFrame (hinner : inner.FailsWith S) (haccepts : inner.Accepts P G) (hP : P)
    (hleft : S .trailingBytes) {payload : List UInt8} (hsize : spellable payload.length = true)
    {e : Error} (h : wholeFrame inner payload = .error e) : S e.kind := by
  have hstart := Reader.inBounds_ofBytes payload
  unfold wholeFrame at h
  split at h
  · rename_i v t hv
    split at h
    · cases h
    · cases h
      rcases haccepts.found hP hstart hv with ⟨ps, rest, hps, _, rfl⟩
      have hspelt : (Error.frameLeft ((Reader.ofBytes payload).advance (source ps).length).remaining
          payload.length).spellable = true :=
        spellable_remaining (Reader.inBounds_advance hstart hps) hsize
      have hkind := Error.kind_of_spellable hspelt
      rw [Reader.size_advance, Reader.size_ofBytes, hkind]
      exact hleft
  · rename_i e' t he
    cases h
    exact hinner hstart hsize he

end

/-! ## Arrays -/

section

variable {element : Decoding Value} {P : Prop} {G : List Piece → List UInt8 → Value → Prop}

theorem fails_namedElement (helement : element.FailsWith S) {count : Numeral}
    (hcount : count.spellable = true) (index : Nat) :
    (namedElement element count index).FailsWith S := by
  intro r e r' hr hsize hfails
  unfold namedElement at hfails
  split at hfails
  · rename_i e' t he
    cases hfails
    rw [Error.kind_inElement hcount]
    exact helement hr hsize he
  · cases hfails

theorem fails_readCounted (helement : element.FailsWith S) (haccepts : element.Accepts P G)
    (hP : P) {count : Numeral} (hcount : count.spellable = true) (left index : Nat) :
    (readCounted element count left index []).FailsWith S := by
  induction left generalizing index with
  | zero =>
    intro r e r' _ _ hfails
    cases hfails
  | succ left ih =>
    rw [readCounted_succ]
    exact (fails_namedElement helement hcount index).bind
      (accepts_namedElement haccepts count index) hP fun _ _ v _ _ =>
        (ih (index + 1)).bind_pure (v :: ·)

theorem idle_of_position (hidle : S .layoutDefinition) {r : Reader} (hr : r.InBounds)
    (hsize : spellable r.size = true) (index : Nat) :
    S (Error.definition (.idleElement index r.position)).kind := by
  have hposition := spellable_position hr hsize
  have hspelt : (Error.definition (.idleElement index r.position)).spellable = true := hposition
  rw [Error.kind_of_spellable hspelt]
  exact hidle

theorem fails_readMoving (helement : element.FailsWith S) (hidle : S .layoutDefinition)
    (index : Nat) : (readMoving element index).FailsWith S := by
  intro r e r' hr hsize hfails
  unfold readMoving at hfails
  split at hfails
  · rename_i e' t he
    cases hfails
    exact helement hr hsize he
  · split at hfails
    · cases hfails
      exact idle_of_position hidle hr hsize index
    · cases hfails

theorem fails_readAll (helement : element.FailsWith S) (haccepts : element.Accepts P G) (hP : P)
    (hidle : S .layoutDefinition) (rounds index : Nat) :
    (readAll element rounds index []).FailsWith S := by
  induction rounds generalizing index with
  | zero =>
    intro r e r' hr hsize hfails
    simp only [readAll] at hfails
    split at hfails
    · cases hfails
    · cases hfails
      exact idle_of_position hidle hr hsize index
  | succ rounds ih =>
    intro r e r' hr hsize hfails
    have hlater := (fails_readMoving helement hidle index).bind (accepts_readMoving haccepts index)
      hP fun _ _ v _ _ => (ih (index + 1)).bind_pure (v :: ·)
    rw [readAll_succ] at hfails
    split at hfails
    · cases hfails
    · exact hlater hr hsize hfails

theorem fails_readElements (htruncated : S .truncatedInput) {framing : Framing}
    (hsizes : framing.NonNegative) (hspelt : framing.Spelt)
    (hidle : framing = .unframed → S .layoutDefinition) (helement : element.FailsWith S)
    (haccepts : element.Accepts P G) (hP : P) : (readElements framing element).FailsWith S := by
  cases framing with
  | fixed n => exact fails_readCounted helement haccepts hP hspelt n.value.toNat 0
  | counted width =>
    refine (fails_readNat htruncated hsizes hspelt.1).bind (accepts_readNat width) hsizes ?_
    intro ps rest count hcount _
    rcases hcount with ⟨bs, _, hbs, rfl⟩
    exact fails_readCounted helement haccepts hP (hspelt.2 bs hbs) _ 0
  | unframed =>
    intro r e r' hr hsize hfails
    exact fails_readAll helement haccepts hP (hidle rfl) _ 0 hr hsize hfails

end

/-! ## Layouts -/

namespace Layout

/-- The item without its conversion or constant. -/
def unconverted : Layout → Layout
  | .uint size _ omission => .uint size .plain omission
  | .blob framing _ omission => .blob framing .plain omission
  | .nested framing inner _ omission => .nested framing inner .plain omission
  | .array framing element _ => .array framing element .plain
  | .switch idSize idTag cases _ => .switch idSize idTag cases .plain
  | l => l

/-- What the item makes of the value that stands in it. -/
def convert : Layout → Value → Except Error Value
  | .uint _ custom _, v => custom.afterDecode v
  | .blob _ custom _, v => custom.afterDecode v
  | .nested _ _ custom _, v => custom.afterDecode v
  | .array _ _ custom, v => custom.afterDecode v
  | .switch _ _ _ custom, v => custom.afterDecode v
  | _, v => .ok v

/-- The classes of the failures that an item finds by itself, apart from those in its parts. -/
inductive Fault : Layout → ErrorKind → Prop where
  | truncated (l) : Fault l .truncatedInput
  | uintConstant {size n omission e} : Uint.encode (.ofNumeral n) size = .error e →
      Fault (.uint size (.constant n) omission) e.kind
  | uintMismatch {size n omission} : omission.isOn = false →
      Fault (.uint size (.constant n) omission) .fixedValueMismatch
  | blobMismatch {framing content omission} : omission.isOn = false →
      Fault (.blob framing (.constant content) omission) .fixedValueMismatch
  | frame {framing inner custom omission} : framing ≠ .unframed →
      Fault (.nested framing inner custom omission) .trailingBytes
  | idle {element custom} : Fault (.array .unframed element custom) .layoutDefinition
  | unknownCase {idSize idTag cases custom} :
      Fault (.switch idSize idTag cases custom) .unknownDiscriminator
  -- the conversion refuses a value that can stand in the item
  | conversion {l ps rest raw e} : l.unconverted.Reads ps rest raw → l.convert raw = .error e →
      Fault l e.kind

/-- Some part of the layout can fail in the class. -/
def PartFault (l : Layout) (k : ErrorKind) : Prop := ∃ p, l.HasPart p ∧ p.Fault k

/-- The numbers that stand in the failures of one item can be spelt. -/
def Spelt : Layout → Prop
  | .uint size _ _ => size.spellable = true
  | .blob framing custom _ =>
    framing.Spelt ∧ ∀ content, custom = .constant content →
      (Numeral.plain content.length).spellable = true
  | .nested framing _ _ _ => framing.Spelt
  | .array framing _ _ => framing.Spelt
  | .switch idSize _ _ _ => idSize.SpeltAsPrefix
  | _ => True

theorem Fault.here {l : Layout} {k : ErrorKind} (h : l.Fault k) : l.PartFault k := ⟨l, .self l, h⟩

theorem PartFault.inside {inner l : Layout} {k : ErrorKind} (h : inner.PartFault k)
    (hparts : ∀ p, inner.HasPart p → l.HasPart p) : l.PartFault k := by
  rcases h with ⟨p, hp, hfault⟩
  exact ⟨p, hparts p hp, hfault⟩

theorem partFault_of_convert (l : Layout) {ps : List Piece} {rest : List UInt8} {raw : Value}
    {e : Error} (hraw : l.unconverted.Reads ps rest raw) (he : l.convert raw = .error e) :
    l.PartFault e.kind := (Fault.conversion hraw he).here

/-- Failures inside an item are failures of what it stands in. -/
theorem fails_inside {inner l : Layout} (h : inner.decode.FailsWith inner.PartFault)
    (hparts : ∀ p, inner.HasPart p → l.HasPart p) : inner.decode.FailsWith l.PartFault :=
  h.mono fun _ hk => hk.inside hparts

section

variable {omission : Omission}

theorem fails_uint {size : Numeral} {custom : Custom Numeral} (hlow : 0 ≤ size.value)
    (hspelt : size.spellable = true) :
    (uint size custom omission).decode.FailsWith (uint size custom omission).PartFault := by
  have htruncated := (Fault.truncated (uint size custom omission)).here
  cases custom with
  | constant n =>
    have hencode : (Decoding.ofExcept (Uint.encode (.ofNumeral n) size)).FailsWith
        (uint size (.constant n) omission).PartFault :=
      failsWith_ofExcept fun e he => (Fault.uintConstant he).here
    refine hencode.bind (P := True) (accepts_ofExcept _) trivial ?_
    intro ps rest content hcontent _
    have hlength := Uint.length_of_encode hcontent.2
    have hsize : (Numeral.plain content.length).spellable = true := by
      rw [Numeral.spellable, Numeral.value_plain, hlength]
      exact hspelt
    exact fails_readConstant htruncated _ hsize fun hon => (Fault.uintMismatch hon).here
  | _ =>
    refine (fails_readNat htruncated hlow hspelt).bind_ofExcept (accepts_readNat size) hlow ?_
    intro ps rest n hn e he
    rcases hn with ⟨bs, rfl, hbs, rfl⟩
    have hraw : (uint size .plain omission).Reads [plain bs] rest (.int (BigEndian.decode bs)) :=
      ⟨bs, rfl, hbs, rfl⟩
    exact partFault_of_convert (uint size _ omission) hraw he

theorem fails_blob {framing : Framing} {custom : Custom (List UInt8)}
    (hsizes : framing.NonNegative) (hspelt : (blob framing custom omission).Spelt) :
    (blob framing custom omission).decode.FailsWith (blob framing custom omission).PartFault := by
  have htruncated := (Fault.truncated (blob framing custom omission)).here
  cases custom with
  | constant content =>
    exact fails_readConstant htruncated _ (hspelt.2 content rfl) fun hon =>
      (Fault.blobMismatch hon).here
  | _ =>
    refine (fails_readFrame htruncated hsizes hspelt.1).bind_ofExcept (accepts_readFrame framing)
      hsizes ?_
    intro ps rest payload hpayload e he
    rcases hpayload with ⟨head, rfl, hopens⟩
    have hraw : (blob framing .plain omission).Reads (head ++ [plain payload]) rest
        (.raw payload) := ⟨head, payload, rfl, hopens, rfl⟩
    exact partFault_of_convert (blob framing _ omission) hraw he

theorem fails_nested {framing : Framing} {inner : Layout} {custom : Custom Empty}
    (hsizes : framing.NonNegative) (hspelt : framing.Spelt)
    (hinnerSizes : inner.Everywhere NonNegative)
    (h : inner.decode.FailsWith inner.PartFault) :
    (nested framing inner custom omission).decode.FailsWith
      (nested framing inner custom omission).PartFault := by
  have htruncated := (Fault.truncated (nested framing inner custom omission)).here
  have hinner := fails_inside (l := nested framing inner custom omission) h fun p hp => .nested hp
  have hconvert : ∀ ps rest raw, framing.Encloses inner.Reads ps rest raw → ∀ e,
      custom.afterDecode raw = .error e →
      (nested framing inner custom omission).PartFault e.kind := by
    intro ps rest raw hraw e he
    have hreads : (nested framing inner .plain omission).Reads ps rest raw := ⟨raw, hraw, rfl⟩
    exact partFault_of_convert (nested framing inner custom omission) hreads he
  have hframed : framing ≠ .unframed → (readFrame framing >>= fun payload =>
      Decoding.ofExcept (wholeFrame inner.decode payload) >>= fun raw =>
        Decoding.ofExcept (custom.afterDecode raw)).FailsWith
          (nested framing inner custom omission).PartFault := by
    intro hframing
    refine (fails_readFrame htruncated hsizes hspelt).bind (accepts_readFrame framing) hsizes ?_
    intro ps rest payload hpayload hlength
    rcases hpayload with ⟨head, rfl, hopens⟩
    -- the content is no longer than the data around it
    have hsize : spellable payload.length = true := by
      rw [source_append, List.length_append] at hlength
      exact spellable_of_le (by simp; omega) hlength
    have hwhole : (Decoding.ofExcept (wholeFrame inner.decode payload)).FailsWith
        (nested framing inner custom omission).PartFault :=
      failsWith_ofExcept fun e he => fails_wholeFrame hinner inner.accepts_decode hinnerSizes
        (Fault.frame hframing).here hsize he
    refine hwhole.bind_ofExcept (accepts_wholeFrame inner.accepts_decode payload) hinnerSizes ?_
    intro _ _ raw hraw e he
    rcases hraw with ⟨_, body, rfl, hbody⟩
    refine hconvert (head ++ body) rest raw ?_ e he
    cases framing with
    | unframed => exact absurd rfl hframing
    | _ => exact ⟨head, body, rfl, hopens, hbody⟩
  cases framing with
  | unframed => exact hinner.bind_ofExcept inner.accepts_decode hinnerSizes hconvert
  | _ => exact hframed (by rintro ⟨⟩)

theorem fails_array {framing : Framing} {element : Layout} {custom : Custom Empty}
    (hsizes : framing.NonNegative) (hspelt : framing.Spelt)
    (helementSizes : element.Everywhere NonNegative)
    (h : element.decode.FailsWith element.PartFault) :
    (array framing element custom).decode.FailsWith (array framing element custom).PartFault := by
  have htruncated := (Fault.truncated (array framing element custom)).here
  have helement := fails_inside (l := array framing element custom) h fun p hp => .array hp
  have hidle : framing = .unframed →
      (array framing element custom).PartFault .layoutDefinition := by
    rintro rfl
    exact Fault.idle.here
  refine (fails_readElements htruncated hsizes hspelt hidle helement element.accepts_decode
    helementSizes).bind_ofExcept (accepts_readElements (fun _ => hsizes) element.accepts_decode)
    helementSizes ?_
  intro ps rest items hitems e he
  rcases hitems with ⟨head, body, rfl, hopens, heach⟩
  have hraw : (array framing element .plain).Reads (head ++ body) rest (.list items) :=
    ⟨head, body, items, rfl, hopens, heach, rfl⟩
  exact partFault_of_convert (array framing element custom) hraw he

theorem fails_decodeFields {fields : List Field}
    (h : ∀ f ∈ fields, f.item.decode.FailsWith S)
    (sizes : ∀ f ∈ fields, f.item.Everywhere NonNegative) : (decodeFields fields).FailsWith S := by
  induction fields with
  | nil =>
    intro r e r' _ _ hfails
    cases hfails
  | cons f fields ih =>
    rcases f with ⟨name, item⟩
    rcases List.forall_mem_cons.1 h with ⟨hitem, hfields⟩
    rcases List.forall_mem_cons.1 sizes with ⟨hsizes, hlater⟩
    exact hitem.bind item.accepts_decode hsizes fun _ _ v _ _ =>
      (ih hfields hlater).bind_pure fun entries =>
        if item.isOmitted then entries else (name, v) :: entries

theorem fails_decodeCase {cases : List Case} (idTag : Label) {id : Nat}
    (hunknown : S .unknownDiscriminator) (hid : (Numeral.plain id).spellable = true)
    (h : ∀ c ∈ cases, (decodeFields c.fields).FailsWith S) :
    (decodeCase idTag cases id).FailsWith S := by
  induction cases with
  | nil =>
    intro r e r' _ _ hfails
    cases hfails
    have hspelt : (Error.unknownCaseId id).spellable = true := hid
    rw [Error.kind_of_spellable hspelt]
    exact hunknown
  | cons c cases ih =>
    rcases c with ⟨caseId, name, fields⟩
    rcases List.forall_mem_cons.1 h with ⟨hfields, hcases⟩
    unfold decodeCase
    split
    · exact hfields.bind_pure _
    · exact ih hcases

theorem fails_switch {idSize : Numeral} {idTag : Label} {cases : List Case} {custom : Custom Empty}
    (hlow : 0 ≤ idSize.value) (hspelt : idSize.SpeltAsPrefix)
    (sizes : ∀ c ∈ cases, ∀ f ∈ c.fields, f.item.Everywhere NonNegative)
    (h : ∀ c ∈ cases, ∀ f ∈ c.fields, f.item.decode.FailsWith f.item.PartFault) :
    (switch idSize idTag cases custom).decode.FailsWith
      (switch idSize idTag cases custom).PartFault := by
  have htruncated := (Fault.truncated (switch idSize idTag cases custom)).here
  have hcases : ∀ c ∈ cases,
      (decodeFields c.fields).FailsWith (switch idSize idTag cases custom).PartFault := by
    intro c hc
    exact fails_decodeFields (fun f hf => fails_inside (h c hc f hf) fun p hp => .switch hc hf hp)
      (sizes c hc)
  refine (fails_readNat htruncated hlow hspelt.1).bind (accepts_readNat idSize) hlow ?_
  intro _ _ id hid _
  rcases hid with ⟨bs, rfl, hbs, rfl⟩
  have haccepts := accepts_decodeCase (P := True) idTag (BigEndian.decode bs) fun c hc f hf =>
    f.item.accepts_decode.mono fun _ => sizes c hc f hf
  refine (fails_decodeCase idTag Fault.unknownCase.here (hspelt.2 bs hbs) hcases).bind_ofExcept
    haccepts trivial ?_
  intro ps rest entries hentries e he
  have hraw : (switch idSize idTag cases .plain).Reads (plain bs :: ps) rest (.dict entries) :=
    ⟨bs, ps, entries, rfl, hbs, hentries, rfl⟩
  exact partFault_of_convert (switch idSize idTag cases custom) hraw he

end

/-- Decoding a layout fails with the faults of its parts. -/
theorem fails_decode {l : Layout} (checked : l.Everywhere Checked)
    (sizes : l.Everywhere NonNegative) (spelt : l.Everywhere Spelt) :
    l.decode.FailsWith l.PartFault := by
  induction l with
  | uint size custom omission => exact fails_uint sizes.here spelt.here
  | blob framing custom omission => exact fails_blob sizes.here spelt.here
  | nested framing inner custom omission ih =>
    rcases everywhere_nested.1 sizes with ⟨hsizes, hinnerSizes⟩
    rcases everywhere_nested.1 spelt with ⟨hspelt, hinnerSpelt⟩
    exact fails_nested hsizes hspelt hinnerSizes
      (ih (everywhere_nested.1 checked).2 hinnerSizes hinnerSpelt)
  | array framing element custom ih =>
    rcases everywhere_array.1 sizes with ⟨hsizes, helementSizes⟩
    rcases everywhere_array.1 spelt with ⟨hspelt, helementSpelt⟩
    exact fails_array hsizes hspelt helementSizes
      (ih (everywhere_array.1 checked).2 helementSizes helementSpelt)
  | switch idSize idTag cases custom ih =>
    rcases everywhere_switch.1 sizes with ⟨hsizes, hcaseSizes⟩
    rcases everywhere_switch.1 spelt with ⟨hspelt, hcaseSpelt⟩
    exact fails_switch hsizes hspelt hcaseSizes fun c hc f hf =>
      ih c hc f hf ((everywhere_switch.1 checked).2 c hc f hf) (hcaseSizes c hc f hf)
        (hcaseSpelt c hc f hf)
  | record fields ih =>
    rcases everywhere_record.1 sizes with ⟨_, hsizes⟩
    rcases everywhere_record.1 spelt with ⟨_, hspelt⟩
    have hfields : ∀ f ∈ fields, f.item.decode.FailsWith (record fields).PartFault := by
      intro f hf
      have hitem := ih f hf ((everywhere_record.1 checked).2 f hf) (hsizes f hf) (hspelt f hf)
      exact fails_inside hitem fun p hp => .record hf hp
    exact (fails_decodeFields hfields hsizes).bind_pure _
  | _ => exact checked.here.elim

end Layout

/-! ## Messages -/

/-- Decoding a message fails with the faults of the parts of the layout, or leaves input behind. -/
theorem Codec.kind_of_decode {c : Codec} (sizes : c.layout.Everywhere Layout.NonNegative)
    (spelt : c.layout.Everywhere Layout.Spelt) {d : List UInt8} (hsize : spellable d.length = true)
    {whole : Bool} {e : Error} (h : c.decode d whole = .error e) :
    c.layout.PartFault e.kind ∨ whole = true ∧ e.kind = .trailingBytes := by
  have hstart := Reader.inBounds_ofBytes d
  have hfails := Layout.fails_decode c.everywhere_checked sizes spelt
  unfold decode read at h
  split at h
  · rename_i v t hv
    split at h
    · rename_i hleft
      cases h
      rcases c.layout.accepts_decode.found sizes hstart hv with ⟨ps, rest, hps, _, rfl⟩
      have hremaining := spellable_remaining (Reader.inBounds_advance hstart hps) hsize
      exact .inr ⟨(Bool.and_eq_true_iff.1 hleft).1, Error.kind_of_spellable hremaining⟩
    · cases h
  · rename_i e' t he
    cases h
    exact .inl (hfails hstart hsize he)

end WireLayout
