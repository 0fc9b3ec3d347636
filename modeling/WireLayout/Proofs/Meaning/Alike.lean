import WireLayout.Proofs.Meaning

/-!
# Alike — computations that differ in spelling only

Two computations are alike if they leave the same state behind and either both succeed, with results
that agree, or both fail, with causes of the same class.

* `Error.outline` — a failure without its sentence;
* `outcome`, `runOutcome` — a result of which only a part matters;
* `Alike` — the computations have the same outcome in every state; `Alike.bind` puts them together;
* `outcome_encode`, `encode_meaning` — integers are written alike whatever the spelling.
-/

namespace WireLayout

variable {α β γ δ σ : Type}

/-! ## Failures and results without their sentences -/

namespace Error

/-- The class of the cause, and whether the sentence can be written. -/
def outline (e : Error) : ErrorKind × Bool := (e.causeKind, e.spellable)

variable {e e' : Error}

theorem kind_of_outline (h : e.outline = e'.outline) : e.kind = e'.kind := by
  rcases Prod.mk.injEq .. ▸ h with ⟨hcause, hspellable⟩
  rw [kind, kind, hcause, hspellable]

/-- Naming the element in which input ended adds the count of elements to what has to be spelt. -/
theorem outline_inElement_eq (e : Error) (count : Numeral) (index : Nat) :
    (e.inElement count index).outline =
      (e.causeKind, (e.causeKind != .truncatedInput || count.spellable) && e.spellable) := by
  cases e with
  | truncated cause => simp [outline, inElement, causeKind, spellable, Truncation.spellable]
  | misuse m => cases m <;> rfl
  | _ => simp [outline, inElement, causeKind, spellable]

theorem outline_inElement (h : e.outline = e'.outline) (count : Numeral) (index : Nat) :
    (e.inElement count index).outline = (e'.inElement count.meaning index).outline := by
  rcases Prod.mk.injEq .. ▸ h with ⟨hcause, hspellable⟩
  rw [outline_inElement_eq, outline_inElement_eq, hcause, hspellable, Numeral.spellable_meaning]

end Error

/-- A result of which `f` says what matters. -/
def outcome (f : α → γ) : Except Error α → Except (ErrorKind × Bool) γ
  | .ok a => .ok (f a)
  | .error e => .error e.outline

/-- The same for a result with a state. -/
def runOutcome (f : α → γ) :
    EStateM.Result Error σ α → EStateM.Result (ErrorKind × Bool) σ γ
  | .ok a s => .ok (f a) s
  | .error e s => .error e.outline s

/-- From every state two computations come to the same state, with results that agree under `f`. -/
def Alike (f : α → γ) (x y : EStateM Error σ α) : Prop :=
  ∀ s, runOutcome f (x s) = runOutcome f (y s)

namespace Alike

variable {f : α → γ} {g : β → δ} {x y : EStateM Error σ α}

theorem refl (f : α → γ) (x : EStateM Error σ α) : Alike f x x := fun _ => rfl

/-- Two computations that are alike both succeed or both fail, in the same state. -/
theorem results (hx : Alike f x y) (s : σ) :
    (∃ a b t, x s = .ok a t ∧ y s = .ok b t ∧ f a = f b) ∨
      ∃ e e' t, x s = .error e t ∧ y s = .error e' t ∧ e.outline = e'.outline := by
  have hs := hx s
  cases hxs : x s with
  | ok a t =>
    cases hys : y s with
    | ok b t' =>
      rw [hxs, hys] at hs
      injection hs with hab ht
      exact .inl ⟨a, b, t, rfl, by rw [ht], hab⟩
    | error e t' =>
      rw [hxs, hys] at hs
      cases hs
  | error e t =>
    cases hys : y s with
    | ok b t' =>
      rw [hxs, hys] at hs
      cases hs
    | error e' t' =>
      rw [hxs, hys] at hs
      injection hs with he ht
      exact .inr ⟨e, e', t, rfl, by rw [ht], he⟩

theorem bind (hx : Alike f x y) {k k' : α → EStateM Error σ β}
    (hk : ∀ a b, f a = f b → Alike g (k a) (k' b)) : Alike g (x >>= k) (y >>= k') := by
  intro s
  simp only [Bind.bind, EStateM.bind]
  rcases hx.results s with ⟨a, b, t, ha, hb, hab⟩ | ⟨e, e', t, he, he', hee'⟩
  · rw [ha, hb]
    exact hk a b hab t
  · rw [he, he']
    exact congrArg (EStateM.Result.error · t) hee'

theorem bind_pure (hx : Alike f x y) {k k' : α → β} (hk : ∀ a b, f a = f b → g (k a) = g (k' b)) :
    Alike g (x >>= fun a => pure (k a)) (y >>= fun a => pure (k' a)) :=
  hx.bind fun a b hab s => congrArg (EStateM.Result.ok · s) (hk a b hab)

/-- Where the results agree exactly, so do the computations that go on from them. -/
theorem bind_same (hx : Alike id x y) {k k' : α → EStateM Error σ β}
    (hk : ∀ a, Alike g (k a) (k' a)) : Alike g (x >>= k) (y >>= k') := by
  refine hx.bind fun a b hab => ?_
  cases hab
  exact hk a

theorem decoding_ofExcept {x y : Except Error α} (h : outcome f x = outcome f y) :
    Alike f (Decoding.ofExcept x) (Decoding.ofExcept y) := by
  intro s
  cases x <;> cases y <;> simp_all [outcome, Decoding.ofExcept, runOutcome]

theorem encoding_ofExcept {x y : Except Error α} (h : outcome f x = outcome f y) :
    Alike f (Encoding.ofExcept x) (Encoding.ofExcept y) := by
  intro s
  cases x <;> cases y <;> simp_all [outcome, Encoding.ofExcept, runOutcome]

end Alike

/-! ## Primitives -/

theorem outcome_bytesOf (n : Int) (width : Numeral) :
    outcome id (Uint.bytesOf n width) = outcome id (Uint.bytesOf n width.meaning) := by
  have hfits : Uint.fits n width.meaning = Uint.fits n width := rfl
  unfold Uint.bytesOf
  rw [hfits]
  cases Uint.fits n width with
  | error e => rfl
  | ok fit => cases fit <;> rfl

theorem outcome_encode (v : Value) (width : Numeral) :
    outcome id (Uint.encode v width) = outcome id (Uint.encode v width.meaning) := by
  unfold Uint.encode
  cases Uint.integer? v with
  | some n => exact outcome_bytesOf n width
  | none => rfl

theorem outcome_exactly (width : Numeral) (content : List UInt8) :
    outcome id (Block.exactly width content) =
      outcome id (Block.exactly width.meaning content) := by
  unfold Block.exactly
  rw [Numeral.value_meaning]
  split <;> rfl

/-- A constant that can be written has the same bytes however it is spelt. -/
theorem encode_meaning {n size : Numeral} {content : List UInt8}
    (h : Uint.encode (.ofNumeral n) size = .ok content) :
    Uint.encode (.ofNumeral n.meaning) size.meaning = .ok content := by
  rcases Uint.encode_ok_iff.1 h with ⟨m, hm, hcontent⟩
  refine Uint.encode_ok_iff.2 ⟨m, ?_, ?_⟩
  · rw [Uint.integer?_ofNumeral hm]
    rfl
  · rw [Uint.bytesOf_ok_iff] at hcontent ⊢
    exact hcontent

theorem Value.spellable_ofNumeral_meaning (n : Numeral) :
    (ofNumeral n.meaning).spellable = (ofNumeral n).spellable := by
  cases n with
  | plain n => rfl
  -- truth values and chains stand for small integers
  | truth b =>
    have hsmall : (Numeral.truth b).value.natAbs < 2 ^ 63 := by cases b <;> decide
    exact spellable_of_lt hsmall
  | chain c =>
    have hsmall : (Numeral.chain c).value.natAbs < 2 ^ 63 := by cases c <;> decide
    exact spellable_of_lt hsmall

end WireLayout
