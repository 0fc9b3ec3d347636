import WireLayout.Proofs.Accumulation

/-!
# Atomicity — what a failing encoding leaves behind

What an encoder wrote before it failed stays written.  An item in a frame is encoded on a writer of
its own and written at once, so that nothing of it stays if it fails; an array of such items leaves
the items before the first one that fails.

* `Encoding.Atomic` — an encoder that leaves the writer as it was if it fails;
* `Layout.AtOnce` — the items that are written at once;
* `writeEach_error_iff` — a run of encoders stops at the first one that fails;
* `Codec.write_array_error_iff` — what a counted array leaves behind.
-/

namespace WireLayout

variable {α : Type}

/-! ## Encoders that write at once -/

namespace Encoding

/-- A failure leaves the writer as it was. -/
def Atomic (x : Encoding α) : Prop := ∀ ⦃w e w'⦄, x w = .error e w' → w' = w

theorem atomic_ofExcept (e : Except Error α) : (ofExcept e).Atomic := by
  intro w e' w' h
  cases e <;> cases h
  rfl

theorem atomic_write (bs : List UInt8) : (Writer.write bs).Atomic := by
  rintro w e w' ⟨⟩

/-- A check or a conversion writes nothing. -/
theorem Atomic.after_ofExcept {β : Type} (e : Except Error β) {f : β → Encoding α}
    (hf : ∀ b, (f b).Atomic) : (ofExcept e >>= f).Atomic := by
  cases e with
  | ok b => exact hf b
  | error e => exact atomic_ofExcept (.error e)

variable {w w' : Writer}

theorem ofExcept_bind_error_iff {res : Except Error α} {f : α → Encoding Unit} {e : Error} :
    (ofExcept res >>= f) w = .error e w' ↔
      (res = .error e ∧ w' = w) ∨ ∃ a, res = .ok a ∧ f a w = .error e w' := by
  rw [EStateM.bind_error_iff]
  cases res <;> simp [ofExcept, eq_comm]

variable {x : Encoding Unit}

theorem AppendOnly.ok_iff (hx : x.AppendOnly) :
    x w = .ok () w' ↔ ∃ b, Writer.collect x = .ok b ∧ w' = w.push b := by
  rw [hx w, Writer.collect]
  cases x .empty <;> simp [behind, eq_comm]

theorem AppendOnly.error_iff (hx : x.AppendOnly) (hatomic : x.Atomic) {e : Error} :
    x w = .error e w' ↔ Writer.collect x = .error e ∧ w' = w := by
  rw [hx w, Writer.collect]
  cases h : x .empty with
  | ok _ t => simp [behind]
  | error e' t =>
    cases hatomic h
    simp [behind, eq_comm]

end Encoding

open Encoding Writer

theorem atomic_writeConstant (expected : Value) (content : List UInt8) (v : Value) :
    (writeConstant expected content v).Atomic := by
  unfold writeConstant
  split
  · exact atomic_write content
  · split
    · exact atomic_write content
    · exact atomic_ofExcept _

/-- A payload is not written before its size is known to suit the frame. -/
theorem atomic_writeFramed (framing : Framing) (payload : List UInt8) :
    (writeFramed framing payload).Atomic := by
  cases framing with
  | fixed size => exact .after_ofExcept _ fun content => atomic_write content
  | counted width =>
    refine .after_ofExcept _ fun count => ?_
    rintro w e w' ⟨⟩
  | unframed => exact atomic_write payload

theorem atomic_writeCount (framing : Framing) (count : Nat) :
    (writeCount framing count).Atomic := by
  cases framing with
  | fixed n => exact atomic_ofExcept _
  | counted width => exact .after_ofExcept _ fun content => atomic_write content
  | unframed => exact atomic_ofExcept (.ok ())

namespace Layout

/-- Integers, blocks of bytes and items in a frame; an item without a frame is written as what
stands inside. -/
def AtOnce : Layout → Prop
  | .uint .. => True
  | .blob .. => True
  | .nested framing inner _ _ => framing = .unframed → AtOnce inner
  | _ => False

theorem atomic_encode {l : Layout} (h : l.AtOnce) (v : Value) : (l.encode v).Atomic := by
  induction l generalizing v with
  | uint size custom omission =>
    cases custom with
    | constant n => exact .after_ofExcept _ fun content => atomic_writeConstant _ content v
    | _ =>
      exact .after_ofExcept _ fun raw => .after_ofExcept _ fun content => atomic_write content
  | blob framing custom omission =>
    cases custom with
    | constant content => exact atomic_writeConstant _ content v
    | _ =>
      exact .after_ofExcept _ fun raw => .after_ofExcept _ fun payload =>
        atomic_writeFramed framing payload
  | nested framing inner custom omission ih =>
    cases framing with
    | unframed => exact .after_ofExcept _ fun raw => ih (h rfl) raw
    | _ =>
      exact .after_ofExcept _ fun raw => .after_ofExcept _ fun payload =>
        atomic_writeFramed _ payload
  | _ => exact h.elim

end Layout

/-! ## Runs of encoders -/

/-- Elements that are written at once are written up to the first one that fails. -/
theorem writeEach_error_iff {element : Value → Encoding Unit} (hatomic : ∀ v, (element v).Atomic)
    {items : List Value} {w w' : Writer} {e : Error} :
    writeEach element items w = .error e w' ↔
      ∃ before v after, items = before ++ v :: after ∧ writeEach element before w = .ok () w' ∧
        element v w' = .error e w' := by
  induction items generalizing w with
  | nil =>
    constructor
    · intro h
      cases h
    · rintro ⟨before, v, after, hitems, _⟩
      simp at hitems
  | cons u items ih =>
    constructor
    · intro h
      rcases EStateM.bind_error_iff.1 h with hfirst | ⟨_, t, hfirst, hlater⟩
      · cases hatomic u hfirst
        exact ⟨[], u, items, rfl, rfl, hfirst⟩
      · rcases ih.1 hlater with ⟨before, v, after, rfl, hbefore, hv⟩
        exact ⟨u :: before, v, after, rfl, EStateM.bind_ok_iff.2 ⟨(), t, hfirst, hbefore⟩, hv⟩
    · rintro ⟨before, v, after, hitems, hbefore, hv⟩
      cases before with
      | nil =>
        cases hitems
        cases hbefore
        exact EStateM.bind_error_iff.2 (.inl hv)
      | cons b before =>
        cases hitems
        rcases EStateM.bind_ok_iff.1 hbefore with ⟨_, t, hfirst, hlater⟩
        exact EStateM.bind_error_iff.2
          (.inr ⟨(), t, hfirst, ih.2 ⟨before, v, after, rfl, hlater, hv⟩⟩)

/-! ## Counted arrays -/

namespace Codec

/-- A counted array writes nothing if the value is no sequence or its number of items has no room,
and else the count and the items before the first one that fails. -/
theorem write_array_error_iff {c : Codec} {width : Numeral} {element : Layout}
    (hlayout : c.layout = .array (.counted width) element .plain) (honce : element.AtOnce)
    {v : Value} {w w' : Writer} {e : Error} :
    c.write v w = .error e w' ↔
      (arrayItems v = .error e ∧ w' = w) ∨ ∃ items, arrayItems v = .ok items ∧
        ((Uint.bytesOf items.length width = .error e ∧ w' = w) ∨
          ∃ head before u after parts, Uint.bytesOf items.length width = .ok head ∧
            items = before ++ u :: after ∧
            List.Forall₂ (fun item part => element.bytesOf item = .ok part) before parts ∧
            element.bytesOf u = .error e ∧ w' = w.push (head ++ parts.flatten)) := by
  have hatomic := Layout.atomic_encode honce
  have happend := element.appendOnly_encode
  have hcount : ∀ n, collect (writeCount (.counted width) n) = Uint.bytesOf n width := fun n => by
    simp only [writeCount, collect_ofExcept_bind, collect_write, Except.bind_ok_eq]
  have hrun : c.write v = Encoding.ofExcept (arrayItems v) >>= fun items =>
      writeCount (.counted width) items.length >>= fun _ => writeEach element.encode items := by
    rw [write, hlayout]
    rfl
  rw [hrun]
  refine ofExcept_bind_error_iff.trans (or_congr_right (exists_congr fun items =>
    and_congr_right fun _ => EStateM.bind_error_iff.trans ?_))
  rw [(appendOnly_writeCount _ _).error_iff (atomic_writeCount _ _), hcount]
  refine or_congr_right ?_
  simp only [(appendOnly_writeCount _ _).ok_iff, hcount, writeEach_error_iff hatomic,
    (appendOnly_writeEach happend _).ok_iff, (happend _).error_iff (hatomic _),
    collect_writeEach_ok_iff happend]
  constructor
  · rintro ⟨_, _, ⟨head, hhead, rfl⟩, before, u, after, rfl, ⟨_, ⟨parts, hparts, rfl⟩, hw⟩, hu, _⟩
    exact ⟨head, before, u, after, parts, hhead, rfl, hparts, hu, hw.trans (push_push w _ _)⟩
  · rintro ⟨head, before, u, after, parts, hhead, rfl, hparts, hu, rfl⟩
    exact ⟨(), w.push head, ⟨head, hhead, rfl⟩, before, u, after, rfl,
      ⟨_, ⟨parts, hparts, rfl⟩, (push_push w _ _).symm⟩, hu, trivial⟩

end Codec
end WireLayout
