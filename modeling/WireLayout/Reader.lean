import WireLayout.Error
import WireLayout.Slice

/-!
# Reader — a cursor over a fixed block of bytes

* `Reader.read` takes bytes at the cursor and moves it past them; asking for more than remain is a
  truncated input and moves nothing.
* `Reader.readRest` takes all that remains.
* `Reader.peek` shows bytes without moving; near the end it shows fewer.

`Reader.bytes` is the block as a list; the lemmas on `size` and `peek` speak of it.

`Decoding α` is a computation that reads from a cursor; a failure keeps the cursor where it was at
the moment of failing.
-/

namespace WireLayout

/-- Bytes and a position in them. -/
structure Reader where
  data : Array UInt8
  position : Int
  deriving DecidableEq, Repr, Inhabited

/-- A computation that moves a cursor. -/
abbrev Decoding := EStateM Error Reader

/-- A computation that reads nothing. -/
def Decoding.ofExcept {α : Type} : Except Error α → Decoding α
  | .ok a => fun r => .ok a r
  | .error e => fun r => .error e r

namespace Reader

/-- A reader at the start of its data. -/
def ofBytes (data : List UInt8) : Reader := ⟨data.toArray, 0⟩

/-- The bytes of the block. -/
def bytes (r : Reader) : List UInt8 := r.data.toList

/-- The number of bytes in all. -/
def size (r : Reader) : Nat := r.data.size

/-- The number of bytes after the cursor. -/
def remaining (r : Reader) : Int := r.size - r.position

/-- The next `n` bytes, or fewer near the end. -/
def peek (n : Int) (r : Reader) : List UInt8 :=
  sliceOfArray r.data r.position (r.position + n)

/-- Takes the next `n` bytes. -/
def read (n : Numeral) : Decoding (List UInt8) := fun r =>
  if r.remaining < n.value then
    .error (.truncated (.read n r.position r.remaining)) r
  else
    .ok (r.peek n.value) { r with position := r.position + n.value }

/-- Takes everything after the cursor. -/
def readRest : Decoding (List UInt8) := fun r =>
  .ok (sliceOfArray r.data r.position r.size) { r with position := r.size }

/-- Takes a number of bytes, or all that remain. -/
def readUpTo : Option Numeral → Decoding (List UInt8)
  | some n => read n
  | none => readRest

@[simp] theorem bytes_ofBytes (data : List UInt8) : (ofBytes data).bytes = data := rfl

@[simp] theorem size_ofBytes (data : List UInt8) : (ofBytes data).size = data.length := rfl

@[simp] theorem position_ofBytes (data : List UInt8) : (ofBytes data).position = 0 := rfl

@[simp] theorem length_bytes (r : Reader) : r.bytes.length = r.size := rfl

theorem peek_eq (n : Int) (r : Reader) :
    r.peek n = sliceBetween r.bytes r.position (r.position + n) :=
  sliceOfArray_eq r.data r.position (r.position + n)

theorem readRest_eq (r : Reader) :
    readRest r = .ok (sliceBetween r.bytes r.position r.size) { r with position := r.size } := by
  rw [readRest, sliceOfArray_eq, bytes]

end Reader

end WireLayout
