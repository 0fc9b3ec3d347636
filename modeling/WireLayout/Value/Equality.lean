import WireLayout.Value

/-!
# Equality of values

`Value.same` compares what values mean, not how they are spelt:

* numerals by the integer they stand for, and a float with an integer if it denotes that integer;
* blocks of bytes by content, however they are held;
* lists with lists and tuples with tuples, element by element;
* dictionaries by their entries, in any order;
* fee parameters and commands of one kind field by field.
-/

namespace WireLayout
namespace Value

/-- Equality of values that have no parts. -/
def sameAtom (a b : Value) : Bool :=
  match a.numeral?, b.numeral?, a, b with
  | some m, some n, _, _ => m.same n
  | some m, Option.none, _, .float y => y.integer? == some m.value
  | Option.none, some n, .float x, _ => x.integer? == some n.value
  | _, _, .float x, .float y => x.same y
  | _, _, .none, .none => true
  | _, _, .text s, .text t => s == t
  | _, _, .bytes _ s, .bytes _ t => s == t
  | _, _, _, _ => false

mutual

/-- Equality of values by meaning. -/
def same : Value → Value → Bool
  | .list xs, .list ys => sameAll xs ys
  | .tuple xs, .tuple ys => sameAll xs ys
  | .dict es, .dict fs => es.length == fs.length && sameEntries es fs
  | .evmFees a b c, .evmFees x y z => same a x && same b y && same c z
  | .solanaFees a b c, .solanaFees x y z => same a x && same b y && same c z
  | .command a b, .command x y => same a x && same b y
  | .chainCommand a b, .chainCommand x y => same a x && same b y
  | a, b => sameAtom a b

/-- Equality of sequences, element by element. -/
def sameAll : List Value → List Value → Bool
  | [], [] => true
  | x :: xs, y :: ys => same x y && sameAll xs ys
  | _, _ => false

/-- Whether every entry of the first list has an equal one under its key in the second. -/
def sameEntries : List (Label × Value) → List (Label × Value) → Bool
  | [], _ => true
  | (k, v) :: rest, fs =>
    (match entry? k fs with
      | some w => same v w
      | Option.none => false) && sameEntries rest fs

end

end Value
end WireLayout
