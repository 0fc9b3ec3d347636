import WireLayout.Codec

/-!
# Registry — codecs compiled so far

Compiling a layout that equals an earlier one gives the earlier codec.  The registry keeps codecs in
the order of their compilation and never drops or changes one; a layout that is refused leaves it
as it was.  A codec is kept before it is reported, so one whose report fails is found when its
layout is compiled again.  The registry also issues the serial numbers by which conversions are told
apart.

`Building α` is a computation that compiles layouts and makes conversions.
-/

namespace WireLayout

/-- The codecs compiled so far and the next serial number. -/
structure Registry where
  codecs : List Codec
  nextSerial : Nat

/-- A computation that compiles layouts and makes conversions. -/
abbrev Building := EStateM Error Registry

namespace Building

/-- A computation that uses no registry. -/
def ofExcept {α : Type} : Except Error α → Building α
  | .ok a => fun s => .ok a s
  | .error e => fun s => .error e s

end Building

namespace Registry

/-- A registry without codecs. -/
def empty : Registry := ⟨[], 0⟩

/-- The first codec for an equal layout, with its place. -/
def findFrom (place : Nat) (l : Layout) : List Codec → Option (Nat × Codec)
  | [] => none
  | c :: cs => if c.layout.same l then some (place, c) else findFrom (place + 1) l cs

/-- The codec for an equal layout, with its place. -/
def find? (s : Registry) (l : Layout) : Option (Nat × Codec) := findFrom 0 l s.codecs

/-- The codec of a layout and its place; it is compiled at most once. -/
def compileAt (l : Layout) : Building (Nat × Codec) := fun s =>
  match Codec.lookUpForm l with
  | .error e => .error e s
  | .ok frozen =>
    match s.find? frozen with
    | some found => .ok found s
    | none =>
      match Codec.ofLayout frozen with
      | .error e => .error e s
      | .ok c =>
        let kept : Registry := { s with codecs := s.codecs ++ [c] }
        match c.report with
        | .ok _ => .ok (s.codecs.length, c) kept
        | .error e => .error e kept

/-- The codec of a layout. -/
def compile (l : Layout) : Building Codec := do
  let (_, c) ← compileAt l
  return c

/-- Issues the next serial number. -/
def issue : Building Nat := fun s =>
  .ok s.nextSerial { s with nextSerial := s.nextSerial + 1 }

end Registry

end WireLayout
