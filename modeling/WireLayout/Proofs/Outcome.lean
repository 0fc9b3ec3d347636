import WireLayout.Reader
import WireLayout.Registry
import WireLayout.Writer

/-!
# Outcome — when a computation in several steps succeeds

A computation that consists of two steps succeeds exactly if both do.  The lemmas here say so for
results that may fail, for readers and writers, and for registries; they are written as
equivalences, so that one `simp only` takes a computation apart or puts it together.
-/

namespace WireLayout

variable {α β ε σ : Type}

/-! ## Results that may fail -/

theorem Except.bind_ok_iff {x : Except ε α} {f : α → Except ε β} {b : β} :
    (x >>= f) = .ok b ↔ ∃ a, x = .ok a ∧ f a = .ok b := by
  cases x <;> simp [bind, Except.bind]

theorem Except.bind_error_iff {x : Except ε α} {f : α → Except ε β} {e : ε} :
    (x >>= f) = .error e ↔ x = .error e ∨ ∃ a, x = .ok a ∧ f a = .error e := by
  cases x <;> simp [bind, Except.bind]

theorem Except.seq_ok_iff {x : Except ε Unit} {f : Unit → Except ε β} {b : β} :
    (x >>= f) = .ok b ↔ x = .ok () ∧ f () = .ok b := by
  cases x <;> simp [bind, Except.bind]

theorem Except.append_ok_iff {x y : Except ε (List α)} {b : List α} :
    (do
      let first ← x
      let later ← y
      return first ++ later) = .ok b ↔
      ∃ first later, x = .ok first ∧ y = .ok later ∧ b = first ++ later := by
  cases x <;> cases y <;> simp [bind, Except.bind, pure, Except.pure, eq_comm]

theorem Except.pure_ok_iff {a b : α} : (pure a : Except ε α) = .ok b ↔ a = b := by
  simp [pure, Except.pure]

@[simp] theorem Except.ok_bind (a : α) (f : α → Except ε β) : (.ok a >>= f) = f a := rfl

@[simp] theorem Except.bind_ok_eq (x : Except ε α) : (x >>= fun a => .ok a) = x := by
  cases x <;> rfl

theorem Except.map_ok_iff {x : Except ε α} {f : α → β} {b : β} :
    x.map f = .ok b ↔ ∃ a, x = .ok a ∧ f a = b := by
  cases x <;> simp [Except.map]

/-! ## Computations with a state -/

theorem EStateM.bind_ok_iff {x : EStateM ε σ α} {f : α → EStateM ε σ β} {b : β} {s s' : σ} :
    (x >>= f) s = .ok b s' ↔ ∃ a t, x s = .ok a t ∧ f a t = .ok b s' := by
  cases h : x s with
  | error e t => simp [bind, EStateM.bind, h]
  | ok a t =>
      constructor
      · intro hf
        exact ⟨a, t, rfl, by simpa [bind, EStateM.bind, h] using hf⟩
      · rintro ⟨a', t', heq, hf⟩
        cases heq
        simpa [bind, EStateM.bind, h] using hf

theorem EStateM.bind_error_iff {x : EStateM ε σ α} {f : α → EStateM ε σ β} {e : ε} {s s' : σ} :
    (x >>= f) s = .error e s' ↔
      x s = .error e s' ∨ ∃ a t, x s = .ok a t ∧ f a t = .error e s' := by
  cases h : x s with
  | error e' t => simp [bind, EStateM.bind, h]
  | ok a t =>
    constructor
    · intro hf
      exact .inr ⟨a, t, rfl, by simpa [bind, EStateM.bind, h] using hf⟩
    · intro hf
      rcases hf with heq | ⟨a', t', heq, hf⟩
      · cases heq
      · cases heq
        simpa [bind, EStateM.bind, h] using hf

theorem Decoding.ofExcept_ok_iff {e : Except Error α} {a : α} {r r' : Reader} :
    Decoding.ofExcept e r = .ok a r' ↔ e = .ok a ∧ r = r' := by
  cases e <;> simp [Decoding.ofExcept]

theorem Building.ofExcept_ok_iff {e : Except Error α} {a : α} {s s' : Registry} :
    Building.ofExcept e s = .ok a s' ↔ e = .ok a ∧ s = s' := by
  cases e <;> simp [Building.ofExcept]

end WireLayout
