import WireLayout.Error

/-!
# MachineWord — unsigned integers in machine words, most significant byte first

A machine word has one, two, four or eight bytes.  Its integer passes through a register of 64 bits,
one byte at a time, by masks and shifts.

* `MachineWord.ofWidth?` — the word of a number of bytes, if there is one;
* `MachineWord.pack` — the bytes of an integer, if the word has room for it;
* `MachineWord.unpack` — the integer in the first bytes of a block that is long enough.
-/

namespace WireLayout

/-- The machine words. -/
inductive MachineWord where
  | byte
  | half
  | full
  | double
  deriving DecidableEq, Repr

namespace MachineWord

/-- The number of bytes of a word. -/
def width : MachineWord → Nat
  | .byte => 1
  | .half => 2
  | .full => 4
  | .double => 8

/-- The words that integers are written in, under their numbers of bytes. -/
def table : List (Int × MachineWord) := [(1, .byte), (2, .half), (4, .full), (8, .double)]

/-- The word of a number of bytes, if there is one. -/
def ofWidth? (width : Int) : Option MachineWord := table.lookup width

/-- The last bytes of a register, in front of the bytes that are there already. -/
def storeBefore : (width : Nat) → (register : UInt64) → List UInt8 → List UInt8
  | 0, _, bytes => bytes
  | width + 1, register, bytes =>
    storeBefore width (register >>> 8) ((register &&& 0xff).toUInt8 :: bytes)

/-- A register after the bytes of a block were shifted in. -/
def load (bytes : List UInt8) : UInt64 :=
  bytes.foldl (fun register b => register <<< 8 ||| b.toUInt64) 0

/-- The bytes of an integer.  One that the word has no room for is refused. -/
def pack (word : MachineWord) (n : Int) : Except Error (List UInt8) :=
  if 0 ≤ n ∧ n.toNat < 1 <<< (8 * word.width) then
    .ok (storeBefore word.width (UInt64.ofNat n.toNat) [])
  else .error (.misuse .outsideWord)

/-- The integer in the first bytes of a block.  A block that is shorter than the word is refused. -/
def unpack (word : MachineWord) (data : List UInt8) : Except Error Nat :=
  if data.length < word.width then .error (.misuse .outsideWord)
  else .ok (load (data.take word.width)).toNat

end MachineWord

end WireLayout
