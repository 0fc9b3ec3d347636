import WireLayout.Layout.Text
import WireLayout.Primitive
import WireLayout.Reader
import WireLayout.Value.Equality

/-!
# Decode — reading a value in a layout

`Layout.decode l` reads one value from a cursor.

* A constant must stand in the input, unless it is omitted: then its bytes are skipped.
* A frame is cut out first and read on its own; it must be used up.
* A counted array reads as many elements as its count says, and names the one in which the input
  ends.  An unframed array reads elements until nothing is left; each must use up some input.
* A switch reads a number and then the record of the case with that number.
* A record reads its fields in order and leaves out constants that are omitted.
-/

namespace WireLayout

namespace Custom

variable {α : Type}

/-- The value as users of an item see it. -/
def afterDecode : Custom α → Value → Except Error Value
  | .converted c, v => c.afterDecode v
  | .unsuitable _, _ => .error (.misuse .noAttribute)
  | _, v => .ok v

end Custom

/-! ## Items -/

/-- Reads a constant; one that is left out is not looked at. -/
def readConstant (expected : Value) (content : List UInt8) (omission : Omission) :
    Decoding Value := do
  let data ← Reader.read (.plain content.length)
  if omission.isOn then return .none
  else if data = content then return expected
  else Decoding.ofExcept (.error (.fixedBytes content data))

/-- Reads an unsigned integer of a number of bytes. -/
def readNat (width : Numeral) : Decoding Nat := do
  let data ← Reader.read width
  Decoding.ofExcept (Uint.ofBytes data width)

/-- Reads an unsigned integer. -/
def readUint (size : Numeral) (custom : Custom Numeral) (omission : Omission) :
    Decoding Value := do
  match custom with
  | .constant n =>
    let content ← Decoding.ofExcept (Uint.encode (.ofNumeral n) size)
    readConstant (.ofNumeral n) content omission
  | custom =>
    let n ← readNat size
    Decoding.ofExcept (custom.afterDecode (.int n))

/-- Cuts out the bytes of a frame. -/
def readFrame : Framing → Decoding (List UInt8)
  | .fixed size => Reader.read size
  | .counted width => do
    let count ← readNat width
    Reader.read (.plain count)
  | .unframed => Reader.readRest

/-- Reads a block of bytes. -/
def readBlob (framing : Framing) (custom : Custom (List UInt8)) (omission : Omission) :
    Decoding Value := do
  match custom with
  | .constant content => readConstant (.raw content) content omission
  | custom =>
    let payload ← readFrame framing
    Decoding.ofExcept (custom.afterDecode (.raw payload))

/-- Reads a value that must use up all of some bytes. -/
def wholeFrame (inner : Decoding Value) (payload : List UInt8) : Except Error Value :=
  match inner (Reader.ofBytes payload) with
  | .ok v r =>
    if r.remaining = 0 then .ok v else .error (.frameLeft r.remaining r.size)
  | .error e _ => .error e

/-! ## Arrays -/

/-- The outcome of a run with values in front of those that it read. -/
def Decoding.behind (earlier : List Value) :
    EStateM.Result Error Reader (List Value) → EStateM.Result Error Reader (List Value)
  | .ok vs r => .ok (earlier ++ vs) r
  | .error e r => .error e r

/-- Reads `left` more elements of a counted array, the first of them with a given index, behind
those that were `seen`, the last of them first. -/
def readCounted (element : Decoding Value) (count : Numeral) :
    (left : Nat) → (index : Nat) → (seen : List Value) → Decoding (List Value)
  | 0, _, seen => fun r => .ok seen.reverse r
  | left + 1, index, seen => fun r =>
    match element r with
    | .error e r' => .error (e.inElement count index) r'
    | .ok v r' => readCounted element count left (index + 1) (v :: seen) r'

/-- What was seen before an element has no influence on it. -/
theorem readCounted_behind (element : Decoding Value) (count : Numeral) (left index : Nat)
    (seen : List Value) (r : Reader) :
    readCounted element count left index seen r
      = Decoding.behind seen.reverse (readCounted element count left index [] r) := by
  induction left generalizing index seen r with
  | zero => simp [readCounted, Decoding.behind]
  | succ left ih =>
    simp only [readCounted]
    cases element r with
    | error e r' => rfl
    | ok v r' =>
      simp only [ih (index + 1) (v :: seen), ih (index + 1) [v]]
      cases readCounted element count left (index + 1) [] r' <;> simp [Decoding.behind]

/-- Reads an element that has to use up some input. -/
def readMoving (element : Decoding Value) (index : Nat) : Decoding Value := fun r =>
  match element r with
  | .error e r' => .error e r'
  | .ok v r' =>
    if r'.position = r.position then .error (.definition (.idleElement index r.position)) r'
    else .ok v r'

/-- Reads elements until nothing is left, behind those that were `seen`, the last of them first.
Without negative sizes an element uses up at least one byte or is idle, so as many rounds as there
are bytes are enough.  With them it can move back, and reading need not come to an end; the idle
element that is reported where the rounds run out then stands for a reading that would go on. -/
def readAll (element : Decoding Value) :
    (rounds : Nat) → (index : Nat) → (seen : List Value) → Decoding (List Value)
  | 0, index, seen => fun r =>
    if r.remaining = 0 then .ok seen.reverse r
    else .error (.definition (.idleElement index r.position)) r
  | rounds + 1, index, seen => fun r =>
    if r.remaining = 0 then .ok seen.reverse r
    else
      match readMoving element index r with
      | .error e r' => .error e r'
      | .ok v r' => readAll element rounds (index + 1) (v :: seen) r'

/-- What was seen before an element has no influence on it. -/
theorem readAll_behind (element : Decoding Value) (rounds index : Nat) (seen : List Value)
    (r : Reader) :
    readAll element rounds index seen r
      = Decoding.behind seen.reverse (readAll element rounds index [] r) := by
  induction rounds generalizing index seen r with
  | zero =>
    simp only [readAll]
    split
    · simp [Decoding.behind]
    · rfl
  | succ rounds ih =>
    simp only [readAll]
    split
    · simp [Decoding.behind]
    · cases readMoving element index r with
      | error e r' => rfl
      | ok v r' =>
        simp only [ih (index + 1) (v :: seen), ih (index + 1) [v]]
        cases readAll element rounds (index + 1) [] r' <;> simp [Decoding.behind]

/-- Reads the elements of an array. -/
def readElements (framing : Framing) (element : Decoding Value) : Decoding (List Value) := do
  match framing with
  | .fixed n => readCounted element n n.value.toNat 0 []
  | .counted width =>
    let count ← readNat width
    readCounted element (.plain count) count 0 []
  | .unframed => fun r => readAll element r.remaining.toNat 0 [] r

/-! ## Layouts -/

namespace Layout

/-- Whether an item is left out of decoded records; only a constant can be. -/
def isOmitted : Layout → Bool
  | .uint _ (.constant _) omission => omission.isOn
  | .blob _ (.constant _) omission => omission.isOn
  | _ => false

mutual

/-- Reads one value. -/
def decode : Layout → Decoding Value
  | .uint size custom omission => readUint size custom omission
  | .blob framing custom omission => readBlob framing custom omission
  | .nested framing inner custom _ => do
    let raw ← match framing with
      | .unframed => decode inner
      | framing => do
        let payload ← readFrame framing
        Decoding.ofExcept (wholeFrame (decode inner) payload)
    Decoding.ofExcept (custom.afterDecode raw)
  | .array framing element custom => do
    let items ← readElements framing (decode element)
    Decoding.ofExcept (custom.afterDecode (.list items))
  | .switch idSize idTag cases custom => do
    let id ← readNat idSize
    let entries ← decodeCase idTag cases id
    Decoding.ofExcept (custom.afterDecode (.dict entries))
  | .record fields => do
    let entries ← decodeFields fields
    return .dict entries
  | l => Decoding.ofExcept (.error (.definition (.notALayout l.listing)))
termination_by structural l => l

/-- Reads the fields of a record. -/
def decodeFields : List Field → Decoding (List (Label × Value))
  | [] => Decoding.ofExcept (.ok [])
  | .mk name item :: rest => do
    let v ← decode item
    let entries ← decodeFields rest
    return if item.isOmitted then entries else (name, v) :: entries
termination_by structural fields => fields

/-- Reads the record of the case with a given number, under the case's name. -/
def decodeCase (idTag : Label) : List Case → Nat → Decoding (List (Label × Value))
  | [], id => Decoding.ofExcept (.error (.unknownCaseId id))
  | .mk caseId name fields :: rest, id =>
    if caseId.value = id then do
      let entries ← decodeFields fields
      return (idTag, .ofLabel name) :: entries
    else decodeCase idTag rest id
termination_by structural cases => cases

end

end Layout

end WireLayout
