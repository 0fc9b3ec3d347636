import WireLayout.Proofs.Canonical
import WireLayout.Proofs.Confinement
import WireLayout.Proofs.Failure
import WireLayout.Proofs.Registration

/-!
# Totality — decoding arbitrary bytes

A layout without conversions and without negative sizes answers every input: with a value, or with a
fault of the input itself.

* `Layout.StallsAt` — an unframed array meets an element that uses up nothing;
* `Layout.InputFault` — the faults that an input can have;
* `Decoding.FailsOn` — over parts of some data, a computation fails in known ways only;
* `Layout.failsOn_decode` — decoding a layout fails with faults of the input;
* `Codec.decode_total` — the same for messages, with the classes of the failures.

A fault whose sentence holds an integer with too many digits is reported as the misuse of a value.
The input can bring that about where a prefix is wide enough, as in `Codec.decode_unspeltTag`.
-/

namespace WireLayout

open Piece

variable {α β : Type}

/-! ## Faults of the input -/

namespace Layout

variable {l : Layout} {d : List UInt8} {e : Error}

/-- Over some part of the data, short of its end, the element of an unframed array uses up
nothing. -/
def StallsAt (l : Layout) (d : List UInt8) (offset : Int) : Prop :=
  ∃ element custom, l.HasPart (.array .unframed element custom) ∧
    ∃ r r' v, r.InBounds ∧ r.bytes <:+: d ∧ r.rest ≠ [] ∧ element.decode r = .ok v r' ∧
      r.position = offset ∧ r'.position = offset

/-- What can be wrong with an input. -/
inductive InputFault (l : Layout) (d : List UInt8) : Error → Prop where
  | ends (cause) : InputFault l d (.truncated cause)
  | frameLeft (left size) : InputFault l d (.frameLeft left size)
  | unknownCaseId (id) : InputFault l d (.unknownCaseId id)
  | fixedBytes (expected got) : InputFault l d (.fixedBytes expected got)
  | idleElement (index) {offset} : l.StallsAt d offset →
      InputFault l d (.definition (.idleElement index offset))

theorem InputFault.inside {inner l : Layout} (h : inner.InputFault d e)
    (hparts : ∀ p, inner.HasPart p → l.HasPart p) : l.InputFault d e := by
  cases h with
  | idleElement index h =>
    rcases h with ⟨element, custom, hpart, hstall⟩
    exact .idleElement index ⟨element, custom, hparts _ hpart, hstall⟩
  | ends cause => exact .ends cause
  | frameLeft left size => exact .frameLeft left size
  | unknownCaseId id => exact .unknownCaseId id
  | fixedBytes expected got => exact .fixedBytes expected got

theorem InputFault.inElement (h : l.InputFault d e) (count : Numeral) (index : Nat) :
    l.InputFault d (e.inElement count index) := by
  cases h with
  | ends cause => exact .ends _
  | frameLeft left size => exact .frameLeft left size
  | unknownCaseId id => exact .unknownCaseId id
  | fixedBytes expected got => exact .fixedBytes expected got
  | idleElement index h => exact .idleElement index h

end Layout

/-! ## Computations that fail in known ways -/

namespace Decoding

/-- All failures at cursors inside parts of the data have the given form. -/
def FailsOn (x : Decoding α) (d : List UInt8) (F : Error → Prop) : Prop :=
  ∀ ⦃r e r'⦄, r.InBounds → r.bytes <:+: d → x r = .error e r' → F e

variable {x : Decoding α} {P : Prop} {G : List Piece → List UInt8 → α → Prop} {d : List UInt8}
  {F F' : Error → Prop}

theorem FailsOn.mono (hx : x.FailsOn d F) (h : ∀ e, F e → F' e) : x.FailsOn d F' :=
  fun _ _ _ hr hd hfails => h _ (hx hr hd hfails)

theorem failsOn_ofExcept {res : Except Error α} (h : ∀ e, res = .error e → F e) :
    (ofExcept res).FailsOn d F := by
  intro r e r' _ _ hfails
  cases res with
  | ok a => cases hfails
  | error e =>
    cases hfails
    exact h e rfl

/-- What the first computation found stands in the data. -/
theorem FailsOn.bind (hx : x.FailsOn d F) (haccepts : x.Accepts P G) (hP : P)
    {f : α → Decoding β}
    (hf : ∀ ps rest a, G ps rest a → source ps <:+: d → (f a).FailsOn d F) :
    (x >>= f).FailsOn d F := by
  intro r e r' hr hd hfails
  simp only [Bind.bind, EStateM.bind] at hfails
  split at hfails
  · rename_i a t hat
    rcases haccepts.found hP hr hat with ⟨ps, rest, hps, hG, rfl⟩
    have hrest : r.rest <:+: r.bytes := (List.drop_suffix _ _).isInfix
    have hsource : source ps <:+: r.rest := by
      rw [hps]
      exact (List.prefix_append _ _).isInfix
    have hfound : source ps <:+: d := (hsource.trans hrest).trans hd
    exact hf ps rest a hG hfound (Reader.inBounds_advance hr hps) hd hfails
  · rename_i e' t he
    cases hfails
    exact hx hr hd he

theorem FailsOn.bind_ofExcept (hx : x.FailsOn d F) (haccepts : x.Accepts P G) (hP : P)
    {f : α → Except Error β} (hf : ∀ ps rest a, G ps rest a → ∀ e, f a = .error e → F e) :
    (x >>= fun a => ofExcept (f a)).FailsOn d F :=
  hx.bind haccepts hP fun ps rest a hG _ => failsOn_ofExcept (hf ps rest a hG)

theorem FailsOn.bind_pure (hx : x.FailsOn d F) (f : α → β) :
    (x >>= fun a => pure (f a)).FailsOn d F := by
  intro r e r' hr hd hfails
  simp only [Bind.bind, EStateM.bind] at hfails
  split at hfails
  · cases hfails
  · rename_i e' t he
    cases hfails
    exact hx hr hd he

end Decoding

open Decoding

section

variable {l : Layout} {d : List UInt8}

/-! ## Reading bytes -/

theorem failsOn_read (n : Numeral) : (Reader.read n).FailsOn d (l.InputFault d) := by
  intro r e r' _ _ hfails
  unfold Reader.read at hfails
  split at hfails
  · cases hfails
    exact .ends _
  · cases hfails

theorem failsOn_readNat {width : Numeral} (hlow : 0 ≤ width.value) :
    (readNat width).FailsOn d (l.InputFault d) := by
  refine (failsOn_read width).bind_ofExcept (accepts_read width) hlow ?_
  intro ps rest bs hbs e he
  rw [Uint.ofBytes_of_length hbs.2] at he
  cases he

theorem failsOn_readConstant (expected : Value) (content : List UInt8) (omission : Omission) :
    (readConstant expected content omission).FailsOn d (l.InputFault d) := by
  rw [readConstant_eq]
  refine (failsOn_read _).bind_ofExcept (accepts_read _) (Int.natCast_nonneg _) ?_
  intro ps rest data _ e he
  unfold constantAt at he
  split at he
  · cases he
  · split at he
    · cases he
    · cases he
      exact .fixedBytes content data

theorem failsOn_readFrame {framing : Framing} (sizes : framing.NonNegative) :
    (readFrame framing).FailsOn d (l.InputFault d) := by
  cases framing with
  | fixed size => exact failsOn_read size
  | counted width =>
    exact (failsOn_readNat sizes).bind (accepts_readNat width) sizes fun _ _ count _ _ =>
      failsOn_read (.plain count)
  | unframed =>
    intro r e r' _ _ hfails
    cases hfails

theorem inputFault_of_wholeFrame {inner : Decoding Value} (h : inner.FailsOn d (l.InputFault d))
    {payload : List UInt8} (hpayload : payload <:+: d) {e : Error}
    (hfails : wholeFrame inner payload = .error e) : l.InputFault d e := by
  unfold wholeFrame at hfails
  split at hfails
  · split at hfails
    · cases hfails
    · cases hfails
      exact .frameLeft _ _
  · rename_i e' t he
    cases hfails
    exact h (Reader.inBounds_ofBytes payload) hpayload he

/-! ## Arrays -/

section

variable {element : Decoding Value} {P : Prop} {G : List Piece → List UInt8 → Value → Prop}

theorem failsOn_namedElement (h : element.FailsOn d (l.InputFault d)) (count : Numeral)
    (index : Nat) : (namedElement element count index).FailsOn d (l.InputFault d) := by
  intro r e r' hr hd hfails
  unfold namedElement at hfails
  split at hfails
  · rename_i e' t he
    cases hfails
    exact (h hr hd he).inElement count index
  · cases hfails

theorem failsOn_readCounted (h : element.FailsOn d (l.InputFault d))
    (haccepts : element.Accepts P G) (hP : P) (count : Numeral) (left index : Nat) :
    (readCounted element count left index []).FailsOn d (l.InputFault d) := by
  induction left generalizing index with
  | zero =>
    intro r e r' _ _ hfails
    cases hfails
  | succ left ih =>
    rw [readCounted_succ]
    exact (failsOn_namedElement h count index).bind (accepts_namedElement haccepts count index) hP
      fun _ _ v _ _ => (ih (index + 1)).bind_pure (v :: ·)

end

theorem failsOn_readMoving {element : Layout} {custom : Custom Empty}
    (hpart : l.HasPart (.array .unframed element custom))
    (h : element.decode.FailsOn d (l.InputFault d)) {r r' : Reader} (hr : r.InBounds)
    (hd : r.bytes <:+: d) (hrest : r.rest ≠ []) {index : Nat} {e : Error}
    (hfails : readMoving element.decode index r = .error e r') : l.InputFault d e := by
  unfold readMoving at hfails
  split at hfails
  · rename_i e' t he
    cases hfails
    exact h hr hd he
  · rename_i v t hv
    split at hfails
    · rename_i hidle
      cases hfails
      exact .idleElement index ⟨element, custom, hpart, r, r', v, hr, hd, hrest, hv, rfl, hidle⟩
    · cases hfails

/-- As many rounds as there are bytes are enough, so that only an idle element stops an array. -/
theorem failsOn_readAll {element : Layout} {custom : Custom Empty}
    (hpart : l.HasPart (.array .unframed element custom))
    (h : element.decode.FailsOn d (l.InputFault d)) (sizes : element.Everywhere Layout.NonNegative)
    {rounds index : Nat} {r r' : Reader} (hr : r.InBounds) (hd : r.bytes <:+: d)
    (hrounds : r.rest.length ≤ rounds) {e : Error}
    (hfails : readAll element.decode rounds index [] r = .error e r') : l.InputFault d e := by
  induction rounds generalizing index r r' e with
  | zero =>
    have hrest : r.rest = [] := List.length_eq_zero_iff.1 (by omega)
    rw [readAll_of_no_rest hr hrest] at hfails
    cases hfails
  | succ rounds ih =>
    rw [readAll_succ] at hfails
    split at hfails
    · cases hfails
    · rename_i hleft
      have hrest : r.rest ≠ [] := by
        intro hnil
        rw [Reader.remaining_eq hr, hnil] at hleft
        exact hleft rfl
      simp only [Bind.bind, EStateM.bind] at hfails
      split at hfails
      · rename_i v t hv
        rcases (accepts_readMoving element.accepts_decode index).found sizes hr hv with
          ⟨ps, rest, hps, ⟨hne, _⟩, rfl⟩
        -- what the first element used up is a round less for the others
        have hlength : rest.length ≤ rounds := by
          have hpos : 0 < (source ps).length := List.length_pos_iff.2 hne
          rw [hps, List.length_append] at hrounds
          omega
        split at hfails
        · cases hfails
        · rename_i e' t' he
          cases hfails
          refine ih (Reader.inBounds_advance hr hps) hd ?_ he
          rwa [Reader.rest_advance hr hps]
      · rename_i e' t he
        cases hfails
        exact failsOn_readMoving hpart h hr hd hrest he

theorem failsOn_readElements {framing : Framing} {element : Layout} {custom : Custom Empty}
    (hpart : l.HasPart (.array framing element custom)) (hframing : framing.NonNegative)
    (h : element.decode.FailsOn d (l.InputFault d))
    (sizes : element.Everywhere Layout.NonNegative) :
    (readElements framing element.decode).FailsOn d (l.InputFault d) := by
  cases framing with
  | fixed n => exact failsOn_readCounted h element.accepts_decode sizes n n.value.toNat 0
  | counted width =>
    exact (failsOn_readNat hframing).bind (accepts_readNat width) hframing fun _ _ count _ _ =>
      failsOn_readCounted h element.accepts_decode sizes (.plain count) count 0
  | unframed =>
    intro r e r' hr hd hfails
    have hrounds : r.rest.length ≤ r.remaining.toNat := by
      rw [Reader.remaining_eq hr]
      exact Nat.le_refl _
    exact failsOn_readAll hpart h sizes hr hd hrounds hfails

end

/-! ## Layouts -/

namespace Layout

/-- The item has no conversion. -/
def Unconverted (l : Layout) : Prop := l.conversion? = none

/-- An attribute that was checked and is no conversion changes no value. -/
theorem afterDecode_of_check {custom : Custom β} (hcheck : custom.check = .ok ())
    (h : custom.Converts fun _ => False) (v : Value) : custom.afterDecode v = .ok v := by
  cases custom with
  | converted c => exact h.elim
  | unsuitable w => cases hcheck
  | _ => rfl

theorem Unconverted.converts {p : Layout} (h : p.Unconverted) : p.Converts fun _ => False := by
  refine converts_iff.2 fun c hc => ?_
  rw [h] at hc
  cases hc

/-- An item that was checked and has no conversion shows its values as they are. -/
theorem convert_of_checked {p : Layout} (checked : p.Checked) (unconverted : p.Unconverted)
    (v : Value) : p.convert v = .ok v := by
  have hnone := unconverted.converts
  cases p with
  | uint size custom omission =>
    exact afterDecode_of_check (check_of_checkUintCustom checked) hnone v
  | blob framing custom omission => exact afterDecode_of_check checked hnone v
  | nested framing inner custom omission => exact afterDecode_of_check checked hnone v
  | array framing element custom => exact afterDecode_of_check checked.2 hnone v
  | switch idSize idTag cases custom => exact afterDecode_of_check checked.2 hnone v
  | _ => rfl

section

variable {d : List UInt8} {F : Error → Prop}

theorem failsOn_afterDecode {x : Decoding α} (hx : x.FailsOn d F) {custom : Custom β}
    (h : ∀ v, custom.afterDecode v = .ok v) (f : α → Value) :
    (x >>= fun a => Decoding.ofExcept (custom.afterDecode (f a))).FailsOn d F := by
  simp only [h]
  exact hx.bind_pure f

theorem failsOn_decodeFields {fields : List Field}
    (h : ∀ f ∈ fields, f.item.decode.FailsOn d F)
    (sizes : ∀ f ∈ fields, f.item.Everywhere NonNegative) : (decodeFields fields).FailsOn d F := by
  induction fields with
  | nil =>
    intro r e r' _ _ hfails
    cases hfails
  | cons f fields ih =>
    rcases f with ⟨name, item⟩
    rcases List.forall_mem_cons.1 h with ⟨hitem, hfields⟩
    rcases List.forall_mem_cons.1 sizes with ⟨hsizes, hlater⟩
    exact hitem.bind item.accepts_decode hsizes fun _ _ v _ _ =>
      (ih hfields hlater).bind_pure fun entries =>
        if item.isOmitted then entries else (name, v) :: entries

theorem failsOn_decodeCase {l : Layout} (idTag : Label) (id : Nat) {cases : List Case}
    (h : ∀ c ∈ cases, (decodeFields c.fields).FailsOn d (l.InputFault d)) :
    (decodeCase idTag cases id).FailsOn d (l.InputFault d) := by
  induction cases with
  | nil =>
    intro r e r' _ _ hfails
    cases hfails
    exact .unknownCaseId id
  | cons c cases ih =>
    rcases c with ⟨caseId, name, fields⟩
    rcases List.forall_mem_cons.1 h with ⟨hfields, hcases⟩
    unfold decodeCase
    split
    · exact hfields.bind_pure _
    · exact ih hcases

variable {l : Layout} {omission : Omission}

theorem failsOn_uint {size : Numeral} {custom : Custom Numeral} (hlow : 0 ≤ size.value)
    (hcheck : checkUintCustom size custom = .ok ()) (h : ∀ v, custom.afterDecode v = .ok v) :
    (uint size custom omission).decode.FailsOn d (l.InputFault d) := by
  cases custom with
  | constant n =>
    -- a constant that was checked can be encoded
    rcases Except.map_ok_iff.1 hcheck with ⟨content, hcontent, _⟩
    have hread := failsOn_readConstant (d := d) (l := l) (.ofNumeral n) content omission
    unfold decode readUint
    simp only [hcontent]
    exact hread
  | _ => exact failsOn_afterDecode (failsOn_readNat hlow) h fun n : Nat => .int n

theorem failsOn_blob {framing : Framing} {custom : Custom (List UInt8)}
    (hframing : framing.NonNegative) (h : ∀ v, custom.afterDecode v = .ok v) :
    (blob framing custom omission).decode.FailsOn d (l.InputFault d) := by
  cases custom with
  | constant content => exact failsOn_readConstant (.raw content) content omission
  | _ => exact failsOn_afterDecode (failsOn_readFrame hframing) h Value.raw

theorem failsOn_nested {framing : Framing} {inner : Layout} {custom : Custom Empty}
    (hframing : framing.NonNegative) (hinner : inner.decode.FailsOn d (l.InputFault d))
    (h : ∀ v, custom.afterDecode v = .ok v) :
    (nested framing inner custom omission).decode.FailsOn d (l.InputFault d) := by
  have hframed : (readFrame framing >>= fun payload =>
      Decoding.ofExcept (wholeFrame inner.decode payload) >>= fun raw =>
        Decoding.ofExcept (custom.afterDecode raw)).FailsOn d (l.InputFault d) := by
    refine (failsOn_readFrame hframing).bind (accepts_readFrame framing) hframing ?_
    intro ps rest payload hpayload hsource
    rcases hpayload with ⟨head, rfl, _⟩
    have hinfix : payload <:+: d := by
      refine List.IsInfix.trans (List.suffix_append (source head) payload).isInfix ?_
      simpa using hsource
    exact failsOn_afterDecode (failsOn_ofExcept fun e he =>
      inputFault_of_wholeFrame hinner hinfix he) h fun raw => raw
  cases framing with
  | unframed => exact failsOn_afterDecode hinner h fun raw => raw
  | _ => exact hframed

theorem failsOn_switch {idSize : Numeral} {idTag : Label} {cases : List Case}
    {custom : Custom Empty} (hlow : 0 ≤ idSize.value)
    (hcases : ∀ c ∈ cases, (decodeFields c.fields).FailsOn d (l.InputFault d))
    (h : ∀ v, custom.afterDecode v = .ok v) :
    (switch idSize idTag cases custom).decode.FailsOn d (l.InputFault d) :=
  (failsOn_readNat hlow).bind (accepts_readNat idSize) hlow fun _ _ id _ _ =>
    failsOn_afterDecode (failsOn_decodeCase idTag id hcases) h Value.dict

end

/-- Failures inside an item are failures of what it stands in. -/
theorem failsOn_inside {inner l : Layout} {d : List UInt8}
    (h : inner.decode.FailsOn d (inner.InputFault d))
    (hparts : ∀ p, inner.HasPart p → l.HasPart p) : inner.decode.FailsOn d (l.InputFault d) :=
  h.mono fun _ he => he.inside hparts

/-- Decoding fails only with faults of the input. -/
theorem failsOn_decode {l : Layout} (checked : l.Everywhere Checked)
    (sizes : l.Everywhere NonNegative) (unconverted : l.Everywhere Unconverted) (d : List UInt8) :
    l.decode.FailsOn d (l.InputFault d) := by
  induction l with
  | uint size custom omission =>
    exact failsOn_uint sizes.here checked.here (convert_of_checked checked.here unconverted.here)
  | blob framing custom omission =>
    exact failsOn_blob sizes.here (convert_of_checked checked.here unconverted.here)
  | nested framing inner custom omission ih =>
    have hconvert := convert_of_checked checked.here unconverted.here
    rcases everywhere_nested.1 unconverted with ⟨_, hinnerUnconverted⟩
    have hinner := ih (everywhere_nested.1 checked).2 (everywhere_nested.1 sizes).2
      hinnerUnconverted
    exact failsOn_nested sizes.here (failsOn_inside hinner fun p hp => .nested hp) hconvert
  | array framing element custom ih =>
    have hconvert := convert_of_checked checked.here unconverted.here
    have helementSizes := (everywhere_array.1 sizes).2
    have helement := ih (everywhere_array.1 checked).2 helementSizes
      (everywhere_array.1 unconverted).2
    have helements := failsOn_readElements (.self (array framing element custom)) sizes.here
      (failsOn_inside helement fun p hp => .array hp) helementSizes
    exact failsOn_afterDecode helements hconvert Value.list
  | switch idSize idTag cases custom ih =>
    have hconvert := convert_of_checked checked.here unconverted.here
    have hitems := (everywhere_switch.1 sizes).2
    refine failsOn_switch sizes.here (fun c hc => ?_) hconvert
    refine failsOn_decodeFields (fun f hf => ?_) (hitems c hc)
    have hitem := ih c hc f hf ((everywhere_switch.1 checked).2 c hc f hf) (hitems c hc f hf)
      ((everywhere_switch.1 unconverted).2 c hc f hf)
    exact failsOn_inside hitem fun p hp => .switch hc hf hp
  | record fields ih =>
    have hsizes := (everywhere_record.1 sizes).2
    refine FailsOn.bind_pure (failsOn_decodeFields (fun f hf => ?_) hsizes) _
    have hitem := ih f hf ((everywhere_record.1 checked).2 f hf) (hsizes f hf)
      ((everywhere_record.1 unconverted).2 f hf)
    exact failsOn_inside hitem fun p hp => .record hf hp
  | _ => exact checked.here.elim

end Layout

/-! ## Messages -/

/-- The classes of the failures that inputs bring about. -/
def ErrorKind.OfInput : ErrorKind → Prop
  | .truncatedInput | .trailingBytes | .unknownDiscriminator | .fixedValueMismatch
  | .layoutDefinition => True
  | _ => False

theorem Layout.InputFault.ofInput {l : Layout} {d : List UInt8} {e : Error}
    (h : l.InputFault d e) : e.causeKind.OfInput := by
  cases h <;> trivial

/-- The layout is to blame only where an element stalls. -/
theorem Layout.InputFault.stalls {l : Layout} {d : List UInt8} {e : Error} (h : l.InputFault d e)
    (hdefinition : e.causeKind = .layoutDefinition) :
    ∃ index offset, e = .definition (.idleElement index offset) ∧ l.StallsAt d offset := by
  cases h with
  | idleElement index h => exact ⟨index, _, rfl, h⟩
  | _ => cases hdefinition

namespace Codec

variable {c : Codec} {d : List UInt8} {e : Error}

/-- What is known of a failure on a message: its cause is a fault of the input, and that is also
its class unless its sentence cannot be written. -/
structure FailsByInput (c : Codec) (d : List UInt8) (e : Error) : Prop where
  cause : e.causeKind.OfInput
  stalls : e.causeKind = .layoutDefinition →
    ∃ index offset, e = .definition (.idleElement index offset) ∧ c.layout.StallsAt d offset
  reported : e.kind = e.causeKind ∨ e.spellable = false ∧ e.kind = .valueMisuse
  spelt : c.layout.Everywhere Layout.Spelt → spellable d.length = true → e.kind = e.causeKind

/-- A fault of an item that was checked and has no conversion is one of the input. -/
theorem ofInput_of_fault {p : Layout} (checked : p.Checked) (unconverted : p.Unconverted)
    {k : ErrorKind} (h : p.Fault k) : k.OfInput := by
  cases h with
  | uintConstant hencode =>
    -- a constant that was checked can be encoded
    rcases Except.map_ok_iff.1 checked with ⟨content, hcontent, _⟩
    rw [hencode] at hcontent
    cases hcontent
  | conversion _ hconvert =>
    rw [Layout.convert_of_checked checked unconverted] at hconvert
    cases hconvert
  | _ => trivial

theorem kind_or_unspelt (e : Error) :
    e.kind = e.causeKind ∨ e.spellable = false ∧ e.kind = .valueMisuse := by
  cases h : e.spellable with
  | true => exact .inl (Error.kind_of_spellable h)
  | false => exact .inr ⟨rfl, by simp [Error.kind, h]⟩

variable {whole : Bool}

/-- What can be left behind a value is a fault of the input, too. -/
theorem inputFault_or_left (sizes : c.layout.Everywhere Layout.NonNegative)
    (unconverted : c.layout.Everywhere Layout.Unconverted) (h : c.decode d whole = .error e) :
    c.layout.InputFault d e ∨ ∃ left, e = .inputLeft left := by
  have hfails := Layout.failsOn_decode c.everywhere_checked sizes unconverted d
  unfold decode read at h
  split at h
  · split at h
    · cases h
      exact .inr ⟨_, rfl⟩
    · cases h
  · rename_i e' t he
    cases h
    exact .inl (hfails (Reader.inBounds_ofBytes d) (List.infix_refl d) he)

theorem failsByInput (sizes : c.layout.Everywhere Layout.NonNegative)
    (unconverted : c.layout.Everywhere Layout.Unconverted) (h : c.decode d whole = .error e) :
    c.FailsByInput d e := by
  have hreported := kind_or_unspelt e
  constructor
  · rcases inputFault_or_left sizes unconverted h with hfault | ⟨left, rfl⟩
    · exact hfault.ofInput
    · trivial
  · intro hdefinition
    rcases inputFault_or_left sizes unconverted h with hfault | ⟨left, rfl⟩
    · exact hfault.stalls hdefinition
    · cases hdefinition
  · exact hreported
  · intro spelt hsize
    have hkind : e.kind.OfInput := by
      rcases kind_of_decode sizes spelt hsize h with ⟨p, hp, hfault⟩ | ⟨_, hleft⟩
      · exact ofInput_of_fault (c.everywhere_checked p hp) (unconverted p hp) hfault
      · rw [hleft]
        trivial
    -- the misuse of a value is no fault of the input
    refine hreported.resolve_right fun hunspelt => ?_
    rw [hunspelt.2] at hkind
    exact hkind

/-- Decoding answers every input, with a value or a fault of the input, and reading leaves every
cursor inside its data. -/
theorem decode_total (sizes : c.layout.Everywhere Layout.NonNegative)
    (unconverted : c.layout.Everywhere Layout.Unconverted) :
    (∀ d whole, (∃ v, c.decode d whole = .ok v) ∨
      ∃ e, c.decode d whole = .error e ∧ c.FailsByInput d e) ∧
    ∀ r : Reader, r.InBounds → r.Reaches (stop (c.read r)) := by
  refine ⟨fun d whole => ?_, fun r hr => Layout.confined_decode sizes hr⟩
  cases h : c.decode d whole with
  | ok v => exact .inl ⟨v, rfl⟩
  | error e => exact .inr ⟨e, rfl, failsByInput sizes unconverted h⟩

end Codec

/-! ## An element that stalls -/

/-- Blocks whose counts are no bytes long, up to the end of the input. -/
def Layout.idleBlocks : Layout := .array .unframed (.blob (.counted 0) .plain .off) .plain

/-- The compiled blocks; their size is not known, so the check lets them pass. -/
def Codec.idleBlocks : Codec := ⟨.idleBlocks, none, rfl⟩

/-- The first block uses up nothing of the only byte. -/
theorem Codec.decode_total_idle :
    Codec.idleBlocks.decode [1] true = .error (.definition (.idleElement 0 0)) ∧
      Layout.idleBlocks.StallsAt [1] 0 := by
  have hzero : 0 ≤ (0 : Numeral).value := by decide
  have sizes : Layout.idleBlocks.Everywhere Layout.NonNegative := by
    simp [Layout.idleBlocks, Layout.everywhere_array, Layout.NonNegative, Framing.NonNegative,
      hzero]
  have unconverted : Layout.idleBlocks.Everywhere Layout.Unconverted := by
    simp [Layout.idleBlocks, Layout.everywhere_array, Layout.Unconverted, Layout.conversion?]
  have hdecode : Codec.idleBlocks.decode [1] true = .error (.definition (.idleElement 0 0)) := rfl
  rcases (decode_total (c := .idleBlocks) sizes unconverted).1 [1] true with
    ⟨v, hv⟩ | ⟨e, he, hfails⟩
  · rw [hdecode] at hv
    cases hv
  · rw [hdecode] at he
    cases he
    rcases hfails.stalls rfl with ⟨index, offset, hidle, hstalls⟩
    cases hidle
    exact ⟨hdecode, hstalls⟩

/-! ## A tag that cannot be spelt -/

/-- A switch with one empty case, numbered in 1786 bytes. -/
def Layout.wideSwitch : Layout := .switch 1786 "id" [.mk 0 "a" []] .plain

theorem Layout.built_wideSwitch : Layout.wideSwitch.Built := by
  have hempty := @Built.tuple [] (by simp)
  exact @Built.switch (some 1786) "id" .none _ [⟨some 0, "a", _⟩] (by simpa using hempty) rfl

theorem Layout.accept_wideSwitch : Layout.wideSwitch.accept = .ok (some (.plain 1786)) := by
  have hfits : Uint.Fits 0 1786 := ⟨by decide, by decide, Nat.pow_pos (by decide)⟩
  have hid : Uint.encode (.int 0) 1786 = .ok (BigEndian.encode 1786 0) :=
    Uint.encode_ok_iff.2 ⟨0, rfl, Uint.bytesOf_ok_iff.2 ⟨0, rfl, hfits, rfl⟩⟩
  have hcheck : Layout.wideSwitch.check = .ok () := by
    have hcases : checkCases 1786 [.mk 0 "a" []] = .ok () := by
      refine checkCases_ok_iff.2 ?_
      simpa [Case.fields, Case.id] using ⟨rfl, _, hid⟩
    unfold wideSwitch check
    rw [hcases]
    rfl
  exact Except.seq_ok_iff.2 ⟨hcheck, rfl⟩

/-- As many digits of the highest value as there are make one less than the next power. -/
theorem BigEndian.decode_replicate (n : Nat) : decode (List.replicate n 255) + 1 = 256 ^ n := by
  induction n with
  | zero => rfl
  | succ n ih =>
    have hlast : (255 : UInt8).toNat = 255 := rfl
    rw [List.replicate_succ', decode_append_singleton, hlast, Nat.pow_succ, ← ih]
    omega

/-- A tag that is the number of no case is all that a switch reads. -/
theorem Layout.decode_unknownTag {idSize : Numeral} {idTag : Label} {cases : List Case}
    {custom : Custom Empty} {r : Reader} {tag rest : List UInt8} (hr : r.InBounds)
    (hrest : r.rest = tag ++ rest) (hwidth : (tag.length : Int) = idSize.value)
    (hcases : ∀ c ∈ cases, c.id.value ≠ BigEndian.decode tag) :
    (switch idSize idTag cases custom).decode r =
      .error (.unknownCaseId (BigEndian.decode tag)) (r.advance tag.length) := by
  have hread : readNat idSize r = .ok (BigEndian.decode tag) (r.advance tag.length) := by
    have hpieces : r.rest = source [plain tag] ++ rest := by simpa using hrest
    have hruns := (accepts_readNat idSize).runs hr hpieces ⟨tag, rfl, hwidth, rfl⟩
    simpa using hruns
  have hcase : decodeCase idTag cases (BigEndian.decode tag) =
      Decoding.ofExcept (.error (.unknownCaseId (BigEndian.decode tag))) := by
    induction cases with
    | nil => rfl
    | cons c cases ih =>
      rcases c with ⟨caseId, name, fields⟩
      rcases List.forall_mem_cons.1 hcases with ⟨hid, hlater⟩
      have hid : caseId.value ≠ BigEndian.decode tag := hid
      rw [decodeCase, if_neg hid, ih hlater]
  simp only [decode, bind, EStateM.bind, hread, hcase, Decoding.ofExcept]

theorem Codec.decode_unknownTag {c : Codec} {idSize : Numeral} {idTag : Label} {cases : List Case}
    {custom : Custom Empty} {tag : List UInt8}
    (hlayout : c.layout = .switch idSize idTag cases custom)
    (hwidth : (tag.length : Int) = idSize.value)
    (hcases : ∀ c ∈ cases, c.id.value ≠ BigEndian.decode tag) (whole : Bool) :
    c.decode tag whole = .error (.unknownCaseId (BigEndian.decode tag)) := by
  have hrest : (Reader.ofBytes tag).rest = tag ++ [] := by simp
  have hread := @Layout.decode_unknownTag idSize idTag cases custom _ tag []
    (Reader.inBounds_ofBytes tag) hrest hwidth hcases
  unfold decode read
  rw [hlayout, hread]

theorem not_spellable_of_wideTag :
    spellable (BigEndian.decode (List.replicate 1786 255) : Nat) = false := by
  have hpower := BigEndian.decode_replicate 1786
  have hlimit : unspeltFrom < 256 ^ 1786 := by
    unfold unspeltFrom digitLimit
    decide +kernel
  rw [spellable, decide_eq_false_iff_not, Int.natAbs_natCast]
  omega

/-- The highest tag is no case, but the sentence that would say so has too many digits. -/
theorem Codec.decode_unspeltTag :
    Layout.wideSwitch.Built ∧ ∃ c, Codec.compile .wideSwitch = .ok c ∧
      c.layout.Everywhere Layout.NonNegative ∧ c.layout.Everywhere Layout.Unconverted ∧
      ∀ whole, ∃ e, c.decode (List.replicate 1786 255) whole = .error e ∧ ¬ e.kind.OfInput := by
  have hsize : optionSpellable (some (.plain 1786)) = true := by
    rw [optionSpellable, Numeral.spellable, Numeral.value_plain]
    exact spellable_of_lt (by decide)
  rcases Codec.exists_compile (l := .wideSwitch) rfl Layout.accept_wideSwitch hsize with
    ⟨c, hcompile, hlayout⟩
  have hlow : 0 ≤ (1786 : Numeral).value := by decide
  have sizes : c.layout.Everywhere Layout.NonNegative := by
    simp [hlayout, Layout.wideSwitch, Layout.everywhere_switch, Layout.NonNegative, Case.fields,
      hlow]
  have unconverted : c.layout.Everywhere Layout.Unconverted := by
    simp [hlayout, Layout.wideSwitch, Layout.everywhere_switch, Layout.Unconverted,
      Layout.conversion?, Case.fields]
  refine ⟨Layout.built_wideSwitch, c, hcompile, sizes, unconverted, fun whole => ?_⟩
  have hunspelt := not_spellable_of_wideTag
  have hother : (0 : Numeral).value ≠ BigEndian.decode (List.replicate 1786 255) := by
    intro hzero
    rw [← hzero] at hunspelt
    exact absurd (spellable_of_lt (by decide)) (Bool.eq_false_iff.1 hunspelt)
  have hwidth : ((List.replicate 1786 (255 : UInt8)).length : Int) = (1786 : Numeral).value := by
    rw [List.length_replicate]
    rfl
  have hdecode := Codec.decode_unknownTag hlayout hwidth
    (List.forall_mem_singleton.2 hother) whole
  have hkind : (Error.unknownCaseId (BigEndian.decode (List.replicate 1786 255))).kind =
      .valueMisuse := if_neg (Bool.eq_false_iff.1 hunspelt)
  refine ⟨_, hdecode, ?_⟩
  rw [hkind]
  exact id

end WireLayout
