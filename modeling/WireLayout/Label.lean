import WireLayout.Numeral
import WireLayout.Text.Quoted

/-!
# Label — what fields, cases and entries are known by

A label is nearly always a text.  A description may also use a numeral, or leave a label out; an
absent label is a label like any other.

* `Label.same` — labels are the same when they have the same text, stand for the same integer, or
  are both absent;
* `Label.distinct` — whether no label of a list occurs twice;
* `Label.listed` — a label as it stands in a listing and inside a sentence.
-/

namespace WireLayout

/-- What a field, a case or an entry is known by. -/
inductive Label where
  | text (s : String)
  | numeral (n : Numeral)
  | absent
  deriving DecidableEq, Repr, Inhabited

namespace Label

instance : Coe String Label := ⟨text⟩

/-- The label with a numeral reduced to the integer it stands for. -/
def meaning : Label → Label
  | numeral n => numeral (.plain n.value)
  | l => l

/-- Labels are the same when they mean the same. -/
def same (a b : Label) : Bool := a.meaning == b.meaning

/-- Whether no label occurs twice. -/
def distinct : List Label → Bool
  | [] => true
  | l :: ls => !ls.any l.same && distinct ls

/-- A label as it stands in a listing. -/
def listed : Label → String
  | text s => Quoted.text s
  | numeral n => n.listed
  | absent => "None"

/-- Whether a label can be spelt. -/
def spellable : Label → Bool
  | numeral n => n.spellable
  | _ => true

/-! ## Laws -/

@[simp] theorem same_iff {a b : Label} : a.same b = true ↔ a.meaning = b.meaning := by
  simp [same]

@[simp] theorem meaning_text (s : String) : (text s).meaning = text s := rfl

/-- A text is the same as no label but itself. -/
theorem same_text_iff {l : Label} {s : String} : l.same (text s) = true ↔ l = text s := by
  cases l <;> simp [meaning]

end Label

end WireLayout
