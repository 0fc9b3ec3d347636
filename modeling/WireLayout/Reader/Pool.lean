import WireLayout.Reader

/-!
# Pool — several readers over parts of one block

A pool starts with one reader.  Each successful `slice` step adds the reader it cuts out at the end.
A step works on one reader, named by its place in the pool, and leaves the others alone.
-/

namespace WireLayout

/-- What can be asked of a reader. -/
inductive ReaderStep where
  | peek (count : Numeral)
  | read (count : Option Numeral)
  | slice (count : Option Numeral)
  | tell
  | remaining
  | size
  deriving DecidableEq, Repr

/-- The answer to a step. -/
inductive ReaderAnswer where
  | bytes (content : List UInt8)
  | number (n : Int)
  | reader (place : Nat)
  deriving DecidableEq, Repr

/-- Readers in the order of their creation. -/
structure ReaderPool where
  readers : List Reader
  deriving DecidableEq, Repr, Inhabited

namespace ReaderPool

/-- A pool of one reader at the start of its data. -/
def ofBytes (data : List UInt8) : ReaderPool := ⟨[Reader.ofBytes data]⟩

/-- The pool with one reader replaced. -/
def update (pool : ReaderPool) (place : Nat) (r : Reader) : ReaderPool :=
  ⟨pool.readers.set place r⟩

/-- Runs a step on the reader at a place; a failure changes nothing. -/
def step (pool : ReaderPool) (place : Nat) (s : ReaderStep) :
    Except Error (ReaderAnswer × ReaderPool) :=
  match pool.readers[place]? with
  | none => .error (.misuse .noKey)
  | some r =>
    match s with
    | .peek n => .ok (.bytes (r.peek n.value), pool)
    | .tell => .ok (.number r.position, pool)
    | .remaining => .ok (.number r.remaining, pool)
    | .size => .ok (.number r.size, pool)
    | .read count =>
      match Reader.readUpTo count r with
      | .ok content r' => .ok (.bytes content, pool.update place r')
      | .error e _ => .error e
    | .slice count =>
      match Reader.readUpTo count r with
      | .ok content r' =>
        .ok (.reader pool.readers.length,
          ⟨(pool.update place r').readers ++ [Reader.ofBytes content]⟩)
      | .error e _ => .error e

end ReaderPool

end WireLayout
