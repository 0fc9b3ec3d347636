import WireLayout.Error

/-!
# Writer — a growing block of bytes

`Encoding α` is a computation that appends to a writer; a failure keeps what was written before it.

`Writer.bytes` is what was written, as a list; `bytes_push` says how writing extends it.
-/

namespace WireLayout

/-- The bytes written so far. -/
structure Writer where
  content : Array UInt8
  deriving DecidableEq, Repr, Inhabited

/-- A computation that appends bytes. -/
abbrev Encoding := EStateM Error Writer

/-- A computation that writes nothing. -/
def Encoding.ofExcept {α : Type} : Except Error α → Encoding α
  | .ok a => fun w => .ok a w
  | .error e => fun w => .error e w

namespace Writer

/-- A writer without content. -/
def empty : Writer := ⟨#[]⟩

/-- The bytes written. -/
def bytes (w : Writer) : List UInt8 := w.content.toList

/-- The number of bytes written. -/
def size (w : Writer) : Nat := w.content.size

/-- The writer with more bytes at its end. -/
def push (w : Writer) (more : List UInt8) : Writer := ⟨w.content ++ more⟩

/-- Appends bytes. -/
def write (more : List UInt8) : Encoding Unit := fun w => .ok () (w.push more)

/-- Runs an encoding on a writer of its own and takes what it wrote. -/
def collect (run : Encoding Unit) : Except Error (List UInt8) :=
  match run empty with
  | .ok _ w => .ok w.bytes
  | .error e _ => .error e

@[simp] theorem bytes_empty : empty.bytes = [] := rfl

@[simp] theorem bytes_push (w : Writer) (more : List UInt8) :
    (w.push more).bytes = w.bytes ++ more := by
  simp [push, bytes]

@[simp] theorem length_bytes (w : Writer) : w.bytes.length = w.size := rfl

end Writer

end WireLayout
