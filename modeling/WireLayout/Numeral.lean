import WireLayout.Chain

/-!
# Numeral — integers as descriptions and values write them

Truth values and chains count as integers wherever one is expected: `true` is `1`, a chain is its
number.  A `Numeral` keeps the spelling next to the number, because sentences about it differ:

* `Numeral.value` — the integer meant;
* `Numeral.text` — the spelling inside a sentence;
* `Numeral.listed` — the spelling inside a listing of attributes.

An integer is spelt only up to `digitLimit` decimal digits; `spellable` says whether it can be.

Attributes may also be left out: `optionText`, `optionListed` and `sameOption` say how a missing
one is spelt and compared.
-/

namespace WireLayout

/-! ## Integers in texts -/

/-- The most decimal digits that an integer in a text may have; its sign does not count. -/
def digitLimit : Nat := 4300

/-- The least number that has too many digits. -/
def unspeltFrom : Nat := Nat.pow 10 digitLimit

/-- Whether an integer is short enough to be spelt. -/
def spellable (n : Int) : Bool := decide (n.natAbs < unspeltFrom)

/-! ## Numerals -/

/-- An integer together with the way it was written. -/
inductive Numeral where
  | plain (n : Int)
  | truth (b : Bool)
  | chain (c : Chain)
  deriving DecidableEq, Repr, Inhabited

/-- Truth values as text. -/
def truthText (b : Bool) : String := if b then "True" else "False"

namespace Numeral

/-- The integer a numeral stands for. -/
def value : Numeral → Int
  | .plain n => n
  | .truth b => if b then 1 else 0
  | .chain c => c.id

/-- A numeral inside a sentence; a chain shows its number. -/
def text : Numeral → String
  | .plain n => toString n
  | .truth b => truthText b
  | .chain c => toString c.id

/-- A chain inside a listing. -/
def chainListed (c : Chain) : String :=
  "<Chain." ++ c.name ++ ": " ++ toString c.id ++ ">"

/-- A numeral inside a listing; a chain shows its name and its number. -/
def listed : Numeral → String
  | .plain n => toString n
  | .truth b => truthText b
  | .chain c => chainListed c

/-- Whether a numeral can be spelt. -/
def spellable (n : Numeral) : Bool := WireLayout.spellable n.value

/-- Numerals are the same when they stand for the same integer. -/
def same (a b : Numeral) : Bool := a.value == b.value

/-- Whether a numeral that serves as a switch is on. -/
def isOn (n : Numeral) : Bool := n.value != 0

instance (n : Nat) : OfNat Numeral n := ⟨.plain n⟩

@[simp] theorem value_plain (n : Int) : (plain n).value = n := rfl

@[simp] theorem same_iff {a b : Numeral} : a.same b = true ↔ a.value = b.value := by
  simp [same]

end Numeral

/-! ## Attributes that may be missing -/

/-- Whether an attribute can be spelt; a missing one can. -/
def optionSpellable : Option Numeral → Bool
  | some n => n.spellable
  | none => true

/-- An attribute inside a sentence. -/
def optionText : Option Numeral → String
  | some n => n.text
  | none => "None"

/-- An attribute inside a listing. -/
def optionListed : Option Numeral → String
  | some n => n.listed
  | none => "None"

/-- Equality of attributes that may be missing. -/
def sameOption : Option Numeral → Option Numeral → Bool
  | some a, some b => a.same b
  | none, none => true
  | _, _ => false

end WireLayout
