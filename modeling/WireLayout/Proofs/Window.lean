import WireLayout.Proofs.Extent

/-!
# Window — layouts of static size look at their own bytes only

What a layout of static size makes of an input is settled by as many bytes of it, whether it makes a
value or a failure.  What stands behind them has no influence, not even on the sentence of a
failure.

* `Decoding.Sees` — a computation looks at a number of bytes, and moves over them if it succeeds;
* `Layout.hasWindow` — decoding in a layout sees its static size;
* `Layout.exists_window` — the same, for the fields of a record.
-/

namespace WireLayout

variable {α β : Type}

/-! ## Computations with a window -/

namespace Decoding

/-- Before the same `n` bytes, wherever they stand and whatever follows them, a computation succeeds
with the same result behind them, or fails with the same failure. -/
def Sees (x : Decoding α) (n : Nat) : Prop :=
  ∀ ⦃r t : Reader⦄ ⦃bs tail tail' : List UInt8⦄, r.InBounds → t.InBounds → bs.length = n →
    r.rest = bs ++ tail → t.rest = bs ++ tail' →
    (∃ a, x r = .ok a (r.advance n) ∧ x t = .ok a (t.advance n)) ∨
      ∃ e r' t', x r = .error e r' ∧ x t = .error e t'

variable {x : Decoding α} {m n : Nat}

theorem sees_error (e : Error) (n : Nat) : (ofExcept (.error e) : Decoding α).Sees n := by
  intro r t _ _ _ _ _ _ _ _
  exact .inr ⟨e, r, t, rfl, rfl⟩

theorem sees_ofExcept (e : Except Error α) : (ofExcept e).Sees 0 := by
  cases e with
  | error e => exact sees_error e 0
  | ok a =>
    intro r t _ _ _ _ _ _ _ _
    rw [Reader.advance_zero, Reader.advance_zero]
    exact .inl ⟨a, rfl, rfl⟩

/-- The window of the second computation is next to that of the first. -/
theorem Sees.bind (hx : x.Sees m) {f : α → Decoding β} (hf : ∀ a, (f a).Sees n) :
    (x >>= f).Sees (m + n) := by
  intro r t bs tail tail' hr ht hlength hrest hrest'
  have hfirst : (bs.take m).length = m := by
    rw [List.length_take]
    omega
  have hsecond : (bs.drop m).length = n := by
    rw [List.length_drop]
    omega
  rw [← List.take_append_drop m bs, List.append_assoc] at hrest hrest'
  rcases hx hr ht hfirst hrest hrest' with ⟨a, hxr, hxt⟩ | ⟨e, r', t', hxr, hxt⟩
  · have hr' := Reader.inBounds_advance hr hrest
    have ht' := Reader.inBounds_advance ht hrest'
    have hrestr := Reader.rest_advance hr hrest
    have hrestt := Reader.rest_advance ht hrest'
    rw [hfirst] at hr' ht' hrestr hrestt
    simp only [Bind.bind, EStateM.bind, hxr, hxt]
    have hlater := hf a hr' ht' hsecond hrestr hrestt
    rwa [Reader.advance_advance, Reader.advance_advance] at hlater
  · refine .inr ⟨e, r', t', ?_, ?_⟩
    · simp only [Bind.bind, EStateM.bind, hxr]
    · simp only [Bind.bind, EStateM.bind, hxt]

theorem Sees.bind_ofExcept (hx : x.Sees n) (e : α → Except Error β) :
    (x >>= fun a => ofExcept (e a)).Sees n :=
  hx.bind fun a => sees_ofExcept (e a)

theorem Sees.bind_pure (hx : x.Sees n) (f : α → β) : (x >>= fun a => pure (f a)).Sees n :=
  hx.bind_ofExcept fun a => .ok (f a)

end Decoding

open Decoding

/-! ## Reading bytes -/

theorem sees_read {size : Numeral} {n : Nat} (hsize : size.value = n) :
    (Reader.read size).Sees n := by
  intro r t bs tail tail' hr ht hlength hrest hrest'
  have hpos : 0 ≤ size.value := by omega
  have hcount : (bs.length : Int) = size.value := by omega
  subst hlength
  refine .inl ⟨bs, ?_, ?_⟩
  · exact (Reader.read_ok_iff hr hpos).2 ⟨tail, hrest, hcount, rfl⟩
  · exact (Reader.read_ok_iff ht hpos).2 ⟨tail', hrest', hcount, rfl⟩

theorem sees_readNat {width : Numeral} {n : Nat} (hwidth : width.value = n) :
    (readNat width).Sees n :=
  (sees_read hwidth).bind_ofExcept fun data => Uint.ofBytes data width

theorem sees_readConstant (expected : Value) (content : List UInt8) (omission : Omission) :
    (readConstant expected content omission).Sees content.length := by
  rw [readConstant_eq]
  exact (sees_read rfl).bind_ofExcept _

/-- An integer that is constant is looked for in as many bytes as it has, unless it cannot be
written at all. -/
theorem sees_readUint_constant {size m : Numeral} {omission : Omission} {n : Nat}
    (hsize : size.value = n) : (readUint size (.constant m) omission).Sees n := by
  have hsteps : readUint size (.constant m) omission =
      (ofExcept (Uint.encode (.ofNumeral m) size) >>= fun content =>
        readConstant (.ofNumeral m) content omission) := rfl
  rw [hsteps]
  cases hcontent : Uint.encode (.ofNumeral m) size with
  | error e => exact sees_error e n
  | ok content =>
    have hlength : content.length = n := by
      have hwritten := Uint.length_of_encode hcontent
      omega
    rw [← hlength]
    exact sees_readConstant _ content omission

section

variable {element : Decoding Value} {k : Nat}

theorem sees_namedElement (h : element.Sees k) (count : Numeral) (index : Nat) :
    (namedElement element count index).Sees k := by
  intro r t bs tail tail' hr ht hlength hrest hrest'
  unfold namedElement
  rcases h hr ht hlength hrest hrest' with ⟨v, hvr, hvt⟩ | ⟨e, r', t', hvr, hvt⟩
  · rw [hvr, hvt]
    exact .inl ⟨v, rfl, rfl⟩
  · rw [hvr, hvt]
    exact .inr ⟨_, r', t', rfl, rfl⟩

/-- The windows of the elements stand side by side. -/
theorem sees_readCounted (h : element.Sees k) (count : Numeral) (left index : Nat) :
    (readCounted element count left index []).Sees (left * k) := by
  induction left generalizing index with
  | zero =>
    rw [Nat.zero_mul]
    exact sees_ofExcept (.ok [])
  | succ left ih =>
    rw [readCounted_succ, Nat.succ_mul, Nat.add_comm (left * k)]
    exact (sees_namedElement h count index).bind fun v => (ih (index + 1)).bind_pure (v :: ·)

end

namespace Layout

/-! ## Layouts -/

/-- A layout of static size has a window of that size. -/
def HasWindow (l : Layout) : Prop :=
  ∀ ⦃n : Numeral⦄, l.staticSize = .ok (some n) → ∃ k : Nat, n.value = k ∧ l.decode.Sees k

/-- The fields of a record have the window that is left of its size behind the total before them. -/
theorem exists_window {fields : List Field} (h : ∀ f ∈ fields, f.item.HasWindow) {total : Int}
    {n : Numeral} (hsize : recordSize total fields = .ok (some n)) :
    ∃ k : Nat, n.value = total + k ∧ (decodeFields fields).Sees k := by
  induction fields generalizing total with
  | nil =>
    cases hsize
    exact ⟨0, (Int.add_zero total).symm, sees_ofExcept (.ok [])⟩
  | cons f fields ih =>
    rcases f with ⟨name, item⟩
    rcases List.forall_mem_cons.1 h with ⟨hitem, hfields⟩
    rcases Except.bind_ok_iff.1 hsize with ⟨size, hfirst, hlater⟩
    cases size with
    | none => cases hlater
    | some m =>
      rcases hitem hfirst with ⟨j, hj, hdecode⟩
      rcases ih hfields hlater with ⟨k, hk, hrest⟩
      refine ⟨j + k, by omega, ?_⟩
      exact hdecode.bind fun v => hrest.bind_pure fun entries =>
        if item.isOmitted then entries else (name, v) :: entries

theorem sees_decodeCase (idTag : Label) (id : Nat) {cases : List Case} {k : Nat}
    (h : ∀ c ∈ cases, (decodeFields c.fields).Sees k) : (decodeCase idTag cases id).Sees k := by
  induction cases with
  | nil => exact sees_error _ k
  | cons c cases ih =>
    rcases c with ⟨caseId, name, fields⟩
    rcases List.forall_mem_cons.1 h with ⟨hfields, hcases⟩
    unfold decodeCase
    split
    · exact hfields.bind_pure _
    · exact ih hcases

/-- Decoding sees the static size of the layout. -/
theorem hasWindow {l : Layout} (made : l.Everywhere WellMade) (sizes : l.Everywhere NonNegative) :
    l.HasWindow := by
  induction l with
  | uint size custom omission =>
    intro n hn
    cases hn
    have hsize : size.value = size.value.toNat := (Int.toNat_of_nonneg sizes.here).symm
    refine ⟨size.value.toNat, hsize, ?_⟩
    cases custom with
    | constant m => exact sees_readUint_constant hsize
    | _ => exact (sees_readNat hsize).bind_ofExcept _
  | blob framing custom omission =>
    intro n hn
    rcases staticSize_blob made.here hn with ⟨content, rfl, hlength⟩ | ⟨hplain, rfl⟩
    · exact ⟨content.length, hlength, sees_readConstant _ content omission⟩
    · have hsize : n.value = n.value.toNat := (Int.toNat_of_nonneg sizes.here).symm
      refine ⟨n.value.toNat, hsize, ?_⟩
      cases custom with
      | constant content => exact absurd rfl (hplain content)
      | _ => exact (sees_read hsize).bind_ofExcept _
  | nested framing inner custom omission ih =>
    intro n hn
    rcases everywhere_nested.1 sizes with ⟨hframing, hsizes⟩
    rcases staticSize_nested hn with rfl | ⟨rfl, hn⟩
    -- a frame is read as a whole, and its content is taken apart elsewhere
    · have hsize : n.value = n.value.toNat := (Int.toNat_of_nonneg hframing).symm
      exact ⟨n.value.toNat, hsize, (sees_read hsize).bind fun payload =>
        (sees_ofExcept (wholeFrame inner.decode payload)).bind_ofExcept _⟩
    · rcases ih (everywhere_nested.1 made).2 hsizes hn with ⟨k, hk, hinner⟩
      exact ⟨k, hk, hinner.bind_ofExcept _⟩
  | array framing element custom ih =>
    intro n hn
    rcases everywhere_array.1 sizes with ⟨hframing, hsizes⟩
    rcases staticSize_array hn with ⟨count, m, rfl, hm, rfl⟩
    rcases ih (everywhere_array.1 made).2 hsizes hm with ⟨k, hk, helement⟩
    have hcount : count.value = count.value.toNat := (Int.toNat_of_nonneg hframing).symm
    refine ⟨count.value.toNat * k, ?_, ?_⟩
    · rw [Numeral.value_plain, hk, Int.natCast_mul, ← hcount]
    · exact (sees_readCounted helement count count.value.toNat 0).bind_ofExcept _
  | switch idSize idTag cases custom ih =>
    intro n hn
    rcases everywhere_switch.1 made with ⟨⟨hne, _⟩, hmade⟩
    rcases everywhere_switch.1 sizes with ⟨hlow, hsizes⟩
    rcases staticSize_switch hn with ⟨s, hcases, rfl⟩
    have hwindows : ∀ c ∈ cases, ∃ k : Nat, s = k ∧ (decodeFields c.fields).Sees k := by
      intro c hc
      rcases hcases c hc with ⟨m, hm, rfl⟩
      rcases exists_window (fun f hf => ih c hc f hf (hmade c hc f hf) (hsizes c hc f hf)) hm with
        ⟨k, hk, hfields⟩
      exact ⟨k, by omega, hfields⟩
    -- there is a first case, and the others have its size
    rcases List.exists_mem_of_ne_nil cases hne with ⟨c, hc⟩
    rcases hwindows c hc with ⟨k, rfl, _⟩
    have hall : ∀ c ∈ cases, (decodeFields c.fields).Sees k := by
      intro c hc
      rcases hwindows c hc with ⟨j, hj, hfields⟩
      rwa [Int.ofNat_inj.1 hj]
    have hid : idSize.value = idSize.value.toNat := (Int.toNat_of_nonneg hlow).symm
    refine ⟨idSize.value.toNat + k, ?_, ?_⟩
    · rw [Numeral.value_plain, Int.natCast_add, ← hid]
    · exact (sees_readNat hid).bind fun id => (sees_decodeCase idTag id hall).bind_ofExcept _
  | record fields ih =>
    intro n hn
    have hmade := (everywhere_record.1 made).2
    have hsizes := (everywhere_record.1 sizes).2
    rcases exists_window (fun f hf => ih f hf (hmade f hf) (hsizes f hf)) hn with ⟨k, hk, hfields⟩
    exact ⟨k, by omega, hfields.bind_pure _⟩
  | _ =>
    intro n hn
    cases hn

end Layout
end WireLayout
