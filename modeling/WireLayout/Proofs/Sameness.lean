import WireLayout.Value.Equality

/-!
# Sameness — labels and values that stand for each other

* `Label.same_comm` — sameness of labels is symmetric;
* `Value.same_ofLabel` — labels are the same exactly if the values that spell them are;
* `Value.entry?_append` — entries with other keys do not matter for a look-up.
-/

namespace WireLayout

theorem Label.same_comm (a b : Label) : a.same b = b.same a := by
  unfold Label.same
  exact Bool.beq_comm

theorem Label.same_refl (a : Label) : a.same a = true := by
  simp

namespace Value

theorem same_int (m n : Int) : (int m).same (int n) = (m == n) := rfl

theorem same_text (s t : String) : (text s).same (text t) = (s == t) := rfl

@[simp] theorem same_raw (content : List UInt8) : (raw content).same (raw content) = true := by
  have h : (raw content).same (raw content) = (content == content) := rfl
  rw [h, beq_self_eq_true]

theorem same_ofNumeral (m n : Numeral) : (ofNumeral m).same (ofNumeral n) = m.same n := by
  cases m <;> cases n <;> rfl

/-- Values that spell labels are the same exactly if the labels are. -/
theorem same_ofLabel (a b : Label) : (ofLabel a).same (ofLabel b) = a.same b := by
  cases a with
  | text s =>
    cases b with
    | text t =>
      rw [ofLabel, ofLabel, same_text, Bool.eq_iff_iff, beq_iff_eq, Label.same_iff]
      simp
    | numeral n => cases n <;> rfl
    | absent => rfl
  | numeral m =>
    cases b with
    | text t => cases m <;> rfl
    | numeral n =>
      rw [ofLabel, ofLabel, same_ofNumeral, Bool.eq_iff_iff, Numeral.same_iff, Label.same_iff]
      simp [Label.meaning]
    | absent => cases m <;> rfl
  | absent =>
    cases b with
    | text t => rfl
    | numeral n => cases n <;> rfl
    | absent => rfl

theorem isKey_ofLabel (a : Label) : (ofLabel a).isKey = true := by
  cases a with
  | text s => rfl
  | numeral n => cases n <;> rfl
  | absent => rfl

/-! ## Entries -/

theorem entry?_cons_self (key : Label) (v : Value) (entries : List (Label × Value)) :
    entry? key ((key, v) :: entries) = some v := by
  unfold entry?
  rw [if_pos (Label.same_refl key)]

/-- Entries under other keys do not matter for a look-up. -/
theorem entry?_append {key : Label} {earlier : List (Label × Value)}
    (h : ∀ e ∈ earlier, e.1.same key = false) (later : List (Label × Value)) :
    entry? key (earlier ++ later) = entry? key later := by
  induction earlier with
  | nil => rfl
  | cons e earlier ih =>
    rcases List.forall_mem_cons.1 h with ⟨he, hearlier⟩
    rcases e with ⟨k, v⟩
    have hstep : entry? key ((k, v) :: (earlier ++ later)) = entry? key (earlier ++ later) := by
      have hk : k.same key = false := he
      simp only [hk, entry?]
      rfl
    rw [List.cons_append, hstep]
    exact ih hearlier

end Value
end WireLayout
