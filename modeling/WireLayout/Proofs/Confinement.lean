import WireLayout.Proofs.Acceptance

/-!
# Confinement — cursors stay inside their data

Reading moves a cursor forward and never past the end of its data, whether it succeeds or fails, as
long as no number of bytes that it is asked for is negative.

* `Reader.Reaches` — a later place of the same cursor;
* `Decoding.stop` — where a run leaves its cursor;
* `Decoding.Advances` — a computation moves no cursor back, or past the end of its data;
* `Decoding.Confined` — a computation leaves every cursor inside its data, and no further back;
* `Layout.FramesForward` — blocks and the counts of arrays ask for no negative number of bytes;
* `Layout.advances_decode`, `Layout.confined_decode` — decoding a layout without negative sizes
  advances and is confined, and so is any that asks for no negative number of bytes.
-/

namespace WireLayout

variable {α β : Type}

/-! ## Later places of a cursor -/

/-- A cursor over the same data, at the same place or a later one. -/
structure Reader.Reaches (r r' : Reader) : Prop where
  data : r'.data = r.data
  forward : r.position ≤ r'.position
  inside : r'.position ≤ r'.size

namespace Reader.Reaches

variable {r r' r'' : Reader}

theorem refl (hr : r.position ≤ r.size) : r.Reaches r := ⟨rfl, Int.le_refl _, hr⟩

theorem trans (h : r.Reaches r') (h' : r'.Reaches r'') : r.Reaches r'' :=
  ⟨h'.data.trans h.data, Int.le_trans h.forward h'.forward, h'.inside⟩

theorem inBounds (h : r.Reaches r') (hr : r.InBounds) : r'.InBounds :=
  ⟨Int.le_trans hr.1 h.forward, h.inside⟩

theorem bytes (h : r.Reaches r') : r'.bytes = r.bytes := congrArg Array.toList h.data

theorem size (h : r.Reaches r') : r'.size = r.size := congrArg Array.size h.data

end Reader.Reaches

/-! ## Confined computations -/

namespace Decoding

/-- Where a run leaves its cursor, whether it succeeds or fails. -/
def stop : EStateM.Result Error Reader α → Reader
  | .ok _ r => r
  | .error _ r => r

/-- No cursor is moved back, or past the end of its data.  It may stand before its data: a block of
negative size can have taken it there. -/
def Advances (x : Decoding α) : Prop :=
  ∀ ⦃r : Reader⦄, r.position ≤ r.size → r.Reaches (stop (x r))

/-- Every cursor inside its data stays there and is not moved back. -/
def Confined (x : Decoding α) : Prop := ∀ ⦃r : Reader⦄, r.InBounds → r.Reaches (stop (x r))

variable {x : Decoding α}

theorem Advances.confined (hx : x.Advances) : x.Confined := fun _ hr => hx hr.2

theorem Advances.ok (hx : x.Advances) {r r' : Reader} {a : α} (hr : r.position ≤ r.size)
    (h : x r = .ok a r') : r.Reaches r' := by
  have hreaches := hx hr
  rwa [h] at hreaches

theorem Advances.error (hx : x.Advances) {r r' : Reader} {e : Error} (hr : r.position ≤ r.size)
    (h : x r = .error e r') : r.Reaches r' := by
  have hreaches := hx hr
  rwa [h] at hreaches

theorem advances_ofExcept (res : Except Error α) : (ofExcept res).Advances := by
  intro r hr
  cases res <;> exact .refl hr

theorem Advances.bind (hx : x.Advances) {f : α → Decoding β} (hf : ∀ a, (f a).Advances) :
    (x >>= f).Advances := by
  intro r hr
  simp only [Bind.bind, EStateM.bind]
  cases h : x r with
  | error e t => exact hx.error hr h
  | ok a t =>
    have hfirst := hx.ok hr h
    exact hfirst.trans (hf a hfirst.inside)

theorem Advances.bind_pure (hx : x.Advances) (f : α → β) :
    (x >>= fun a => pure (f a)).Advances :=
  hx.bind fun a => advances_ofExcept (.ok (f a))

end Decoding

open Decoding

/-! ## Reading bytes -/

theorem advances_read {n : Numeral} (hn : 0 ≤ n.value) : (Reader.read n).Advances := by
  intro r hr
  unfold Reader.read
  split
  · exact .refl hr
  · rename_i henough
    unfold Reader.remaining at henough
    have hforward : r.position ≤ r.position + n.value := by omega
    have hinside : r.position + n.value ≤ r.size := by omega
    exact ⟨rfl, hforward, hinside⟩

theorem advances_readRest : Reader.readRest.Advances := by
  intro r hr
  exact ⟨rfl, hr, Int.le_refl _⟩

theorem advances_readNat {width : Numeral} (hlow : 0 ≤ width.value) : (readNat width).Advances :=
  (advances_read hlow).bind fun _ => advances_ofExcept _

theorem advances_readConstant (expected : Value) (content : List UInt8) (omission : Omission) :
    (readConstant expected content omission).Advances := by
  rw [readConstant_eq]
  exact (advances_read (Int.natCast_nonneg _)).bind fun _ => advances_ofExcept _

theorem advances_readFrame {framing : Framing} (sizes : framing.NonNegative) :
    (readFrame framing).Advances := by
  cases framing with
  | fixed size => exact advances_read sizes
  | counted width =>
    exact (advances_readNat sizes).bind fun count => advances_read (Int.natCast_nonneg count)
  | unframed => exact advances_readRest

/-! ## Arrays -/

section

variable {element : Decoding Value}

theorem advances_namedElement (h : element.Advances) (count : Numeral) (index : Nat) :
    (namedElement element count index).Advances := by
  intro r hr
  unfold namedElement
  cases hv : element r with
  | error e r' => exact h.error hr hv
  | ok v r' => exact h.ok hr hv

theorem advances_readCounted (h : element.Advances) (count : Numeral) (left index : Nat) :
    (readCounted element count left index []).Advances := by
  induction left generalizing index with
  | zero => exact advances_ofExcept (.ok [])
  | succ left ih =>
    rw [readCounted_succ]
    exact (advances_namedElement h count index).bind fun v => (ih (index + 1)).bind_pure (v :: ·)

theorem advances_readMoving (h : element.Advances) (index : Nat) :
    (readMoving element index).Advances := by
  intro r hr
  unfold readMoving
  cases hv : element r with
  | error e r' => exact h.error hr hv
  | ok v r' =>
    -- the check that something was used up moves nothing
    have hreaches := h.ok hr hv
    dsimp only
    split <;> exact hreaches

theorem advances_readAll (h : element.Advances) (rounds index : Nat) :
    (readAll element rounds index []).Advances := by
  induction rounds generalizing index with
  | zero =>
    intro r hr
    unfold readAll
    split <;> exact .refl hr
  | succ rounds ih =>
    intro r hr
    have hlater := (advances_readMoving h index).bind fun v =>
      (ih (index + 1)).bind_pure (v :: ·)
    rw [readAll_succ]
    split
    · exact .refl hr
    · exact hlater hr

theorem advances_readElements {framing : Framing}
    (widths : ∀ width, framing = .counted width → 0 ≤ width.value)
    (h : element.Advances) : (readElements framing element).Advances := by
  cases framing with
  -- a negative length is no length: there are no elements then
  | fixed n => exact advances_readCounted h n n.value.toNat 0
  | counted width =>
    have hcount : (readNat width).Advances := advances_readNat (widths width rfl)
    exact hcount.bind fun count => advances_readCounted h (.plain count) count 0
  | unframed =>
    intro r hr
    exact advances_readAll h r.remaining.toNat 0 hr

end

/-! ## Layouts -/

namespace Layout

theorem advances_decodeFields {fields : List Field} (h : ∀ f ∈ fields, f.item.decode.Advances) :
    (decodeFields fields).Advances := by
  induction fields with
  | nil => exact advances_ofExcept (.ok [])
  | cons f fields ih =>
    rcases f with ⟨name, item⟩
    rcases List.forall_mem_cons.1 h with ⟨hitem, hfields⟩
    exact hitem.bind fun v => (ih hfields).bind_pure fun entries =>
      if item.isOmitted then entries else (name, v) :: entries

theorem advances_decodeCase (idTag : Label) (id : Nat) {cases : List Case}
    (h : ∀ c ∈ cases, (decodeFields c.fields).Advances) :
    (decodeCase idTag cases id).Advances := by
  induction cases with
  | nil => exact advances_ofExcept _
  | cons c cases ih =>
    rcases c with ⟨caseId, name, fields⟩
    rcases List.forall_mem_cons.1 h with ⟨hfields, hcases⟩
    unfold decodeCase
    split
    · exact hfields.bind_pure _
    · exact ih hcases

/-- The widths of integers are not negative. -/
def IntegersForward : Layout → Prop
  | .uint size _ _ => 0 ≤ size.value
  | .switch idSize _ _ _ => 0 ≤ idSize.value
  | _ => True

/-- A block that is no constant has no negative size, and a count has no negative width.  The length
of an array is free, since it is no number of bytes. -/
def FramesForward : Layout → Prop
  | .blob framing custom _ => (∃ content, custom = .constant content) ∨ framing.NonNegative
  | .nested framing _ _ _ => framing.NonNegative
  | .array framing _ _ => ∀ width, framing = .counted width → 0 ≤ width.value
  | _ => True

theorem integersForward_of_nonNegative {l : Layout} (h : l.NonNegative) : l.IntegersForward := by
  cases l <;> first | exact h | trivial

theorem framesForward_of_nonNegative {l : Layout} (h : l.NonNegative) : l.FramesForward := by
  cases l with
  | blob framing custom omission => exact .inr h
  | nested framing inner custom omission => exact h
  | array framing element custom =>
    rintro width rfl
    exact h
  | _ => trivial

/-- Decoding that asks for no negative number of bytes moves no cursor back, or past the end of its
data. -/
theorem advances_decode_of_forward {l : Layout} (integers : l.Everywhere IntegersForward)
    (frames : l.Everywhere FramesForward) : l.decode.Advances := by
  induction l with
  | uint size custom omission =>
    cases custom with
    | constant n =>
      exact (advances_ofExcept _).bind fun content => advances_readConstant _ content omission
    | _ => exact (advances_readNat integers.here).bind fun _ => advances_ofExcept _
  | blob framing custom omission =>
    cases custom with
    | constant content => exact advances_readConstant _ content omission
    | _ =>
      rcases frames.here with ⟨content, hconstant⟩ | hframing
      · cases hconstant
      · exact (advances_readFrame hframing).bind fun _ => advances_ofExcept _
  | nested framing inner custom omission ih =>
    rcases everywhere_nested.1 frames with ⟨hframing, hinner⟩
    have hdecode : inner.decode.Advances := ih (everywhere_nested.1 integers).2 hinner
    have hframe : (readFrame framing).Advances := advances_readFrame hframing
    cases framing with
    | unframed => exact hdecode.bind fun _ => advances_ofExcept _
    | _ =>
      -- the content of a frame is read with a cursor of its own
      exact hframe.bind fun _ => (advances_ofExcept _).bind fun _ => advances_ofExcept _
  | array framing element custom ih =>
    rcases everywhere_array.1 frames with ⟨hwidths, helement⟩
    have hdecode : element.decode.Advances := ih (everywhere_array.1 integers).2 helement
    exact (advances_readElements hwidths hdecode).bind fun _ => advances_ofExcept _
  | switch idSize idTag cases custom ih =>
    rcases everywhere_switch.1 integers with ⟨hsize, hintegers⟩
    have hframes := (everywhere_switch.1 frames).2
    have hcases : ∀ c ∈ cases, (decodeFields c.fields).Advances := fun c hc =>
      advances_decodeFields fun f hf => ih c hc f hf (hintegers c hc f hf) (hframes c hc f hf)
    exact (advances_readNat hsize).bind fun id =>
      (advances_decodeCase idTag id hcases).bind fun _ => advances_ofExcept _
  | record fields ih =>
    have hintegers := (everywhere_record.1 integers).2
    have hframes := (everywhere_record.1 frames).2
    have hfields := advances_decodeFields fun f hf => ih f hf (hintegers f hf) (hframes f hf)
    exact hfields.bind_pure _
  | _ => exact advances_ofExcept _

/-- Decoding without negative sizes moves no cursor back, or past the end of its data. -/
theorem advances_decode {l : Layout} (sizes : l.Everywhere NonNegative) : l.decode.Advances :=
  advances_decode_of_forward (sizes.mono fun _ => integersForward_of_nonNegative)
    (sizes.mono fun _ => framesForward_of_nonNegative)

/-- Decoding that asks for no negative number of bytes keeps every cursor inside its data, and never
moves it back. -/
theorem confined_decode_of_forward {l : Layout} (integers : l.Everywhere IntegersForward)
    (frames : l.Everywhere FramesForward) : l.decode.Confined :=
  (advances_decode_of_forward integers frames).confined

/-- Decoding without negative sizes keeps every cursor inside its data, and never moves it back. -/
theorem confined_decode {l : Layout} (sizes : l.Everywhere NonNegative) : l.decode.Confined :=
  (advances_decode sizes).confined

end Layout

end WireLayout
