import WireLayout.Value.Text

/-!
# Error — why describing, encoding or decoding failed

Each cause is a constructor that carries what its sentence mentions.

* `Error.kind` — the class of a failure, the part that programs branch on;
* `Error.message?` — the sentence; a misuse that no check foresees has none.

A failure is reported together with its sentence.  Where an integer in the sentence has too many
digits to be spelt, the sentence is lost, and with it the cause: what remains is the misuse of a
value.  So both functions ask `Error.spellable` first; `Error.causeKind` and `Error.sentence?` are
what they give where the sentence can be written.

A truncated input inside a counted array is wrapped by the array, which names the element; so
`Truncation` is nested, and no other class is.
-/

namespace WireLayout

/-! ## Causes -/

/-- The written form of an object, and whether all integers in it can be spelt. -/
structure Listing where
  text : String
  spellable : Bool
  deriving DecidableEq, Repr, Inhabited

/-- Faults of a layout description. -/
inductive DefinitionFault where
  | uintSize (size : Numeral)
  | fixedTooLarge (value size : Numeral)
  | omitsVariable
  | bytesFramedTwice
  | fixedBytesWrapLayout
  | fixedBytesSize (got : Nat) (size : Numeral)
  | arrayFramedTwice
  | noCases
  | repeatedCaseIds (ids : List (Option Numeral))
  | repeatedCaseNames (names : List Label)
  | caseIdTooLarge (id : Numeral) (idSize : Option Numeral)
  | caseNotRecord (name : Label)
  | caseHidesTag (name tag : Label)
  | unknownItem (listing : Listing)
  | notALayout (listing : Listing)
  | repeatedFieldNames (names : List Label)
  | emptyUnframedElement
  | idleElement (index : Nat) (offset : Int)
  | slotNotStatic
  | slotTooSmall (needed size : Numeral)
  | chainWithoutFees (chain : Chain)
  deriving Repr, Inhabited

/-- Ways in which input ends too early. -/
inductive Truncation where
  | read (wanted : Numeral) (offset available : Int)
  | integer (width : Numeral) (got : Nat)
  | bytes (width : Numeral) (got : Nat)
  | element (count : Numeral) (index : Nat) (cause : Truncation)
  | conversion (seen : Value)
  deriving Repr

/-- What a value should have been. -/
inductive Expectation where
  | integer
  | bytes
  | arrayItems
  | recordEntries
  | chain
  | chainCommand
  | fees
  deriving DecidableEq, Repr

/-- Uses of a value for which its kind has no meaning. -/
inductive Misuse where
  | wrongType
  | wrongValue
  | noAttribute
  | noKey
  | noElement
  | tooLarge
  /-- A machine word has no room for an integer, or is longer than the block that it is read from.
  It counts as a wrong value. -/
  | outsideWord
  deriving DecidableEq, Repr

/-- A failure with its cause. -/
inductive Error where
  | definition (fault : DefinitionFault)
  | outOfRange (value : Int) (width : Option Numeral)
  | byteCount (expected : Numeral) (got : Nat)
  | elementCount (expected : Numeral) (got : Nat)
  | truncated (cause : Truncation)
  | frameLeft (left : Int) (size : Nat)
  | inputLeft (left : Int)
  | unknownCaseName (name : Value)
  | unknownCaseId (id : Nat)
  | missingTag (tag : Label)
  | missingField (name : Label)
  | fixedValue (expected got : Value)
  | fixedBytes (expected got : List UInt8)
  | commandNotOnPlatform (name : String) (chain : Chain) (platform : Platform)
  | feesOfOtherPlatform (typeName : String) (chain : Chain) (platform : Platform)
  | chainNotAllowed (chain : Chain)
  | unknownChainId (raw : Value)
  | platformWithoutFees (platform : Platform)
  | unexpected (wanted : Expectation) (typeName : String)
  | notAChain (value : Value)
  | rejected (value : Value)
  | misuse (m : Misuse)
  deriving Repr, Inhabited

/-! ## Classes -/

/-- The class of a failure. -/
inductive ErrorKind where
  | layoutDefinition
  | integerRange
  | sizeMismatch
  | truncatedInput
  | trailingBytes
  | unknownDiscriminator
  | missingField
  | fixedValueMismatch
  | invalidCommandForPlatform
  | unsupportedChain
  | typeMisuse
  | valueMisuse
  | attributeMisuse
  | keyMisuse
  | indexMisuse
  | overflow
  deriving DecidableEq, Repr

/-- The class of a misuse. -/
def Misuse.kind : Misuse → ErrorKind
  | .wrongType => .typeMisuse
  | .wrongValue | .outsideWord => .valueMisuse
  | .noAttribute => .attributeMisuse
  | .noKey => .keyMisuse
  | .noElement => .indexMisuse
  | .tooLarge => .overflow

namespace Error

/-- The class that the cause of a failure belongs to. -/
def causeKind : Error → ErrorKind
  | .definition _ => .layoutDefinition
  | .outOfRange .. => .integerRange
  | .byteCount .. | .elementCount .. => .sizeMismatch
  | .truncated _ => .truncatedInput
  | .frameLeft .. | .inputLeft _ => .trailingBytes
  | .unknownCaseName _ | .unknownCaseId _ => .unknownDiscriminator
  | .missingTag _ | .missingField _ => .missingField
  | .fixedValue .. | .fixedBytes .. => .fixedValueMismatch
  | .commandNotOnPlatform .. | .feesOfOtherPlatform .. => .invalidCommandForPlatform
  | .chainNotAllowed _ | .unknownChainId _ | .platformWithoutFees _ => .unsupportedChain
  | .unexpected .. => .typeMisuse
  | .notAChain _ | .rejected _ => .valueMisuse
  | .misuse m => m.kind

/-- Names the element of a counted array in which the input ended; other failures stay. -/
def inElement (count : Numeral) (index : Nat) : Error → Error
  | .truncated cause => .truncated (.element count index cause)
  | e => e

@[simp] theorem causeKind_inElement (count : Numeral) (index : Nat) (e : Error) :
    (e.inElement count index).causeKind = e.causeKind := by
  cases e <;> rfl

end Error

/-! ## Sentences -/

/-- A count of bytes in a sentence. -/
def bytesText (n : Numeral) : String := n.text ++ " bytes"

/-- The sentence for a faulty description. -/
def DefinitionFault.message : DefinitionFault → String
  | .uintSize size => "Uint size must be positive, got " ++ size.text
  | .fixedTooLarge value size =>
    "Fixed value " ++ value.text ++ " does not fit in " ++ bytesText size
  | .omitsVariable => "Only fixed-value items can be omitted"
  | .bytesFramedTwice => "Bytes item cannot have both size and length_size"
  | .fixedBytesWrapLayout => "Fixed-value bytes cannot wrap a layout"
  | .fixedBytesSize got size =>
    "Fixed value has " ++ toString got ++ " bytes but size is " ++ size.text
  | .arrayFramedTwice => "Array item cannot have both length and length_size"
  | .noCases => "Switch item needs at least one case"
  | .repeatedCaseIds ids =>
    "Switch case ids must be unique: " ++ bracketed (ids.map optionListed)
  | .repeatedCaseNames names => "Switch case names must be unique: " ++ namesListed names
  | .caseIdTooLarge id idSize =>
    "Switch case id " ++ id.text ++ " does not fit in " ++ optionText idSize ++ " bytes"
  | .caseNotRecord name => "Switch case " ++ name.listed ++ " must be a record layout"
  | .caseHidesTag name tag =>
    "Switch case " ++ name.listed ++ " has a field named like the id tag " ++ tag.listed
  | .unknownItem listing => "Unknown layout item: " ++ listing.text
  | .notALayout listing => "Not a layout: " ++ listing.text
  | .repeatedFieldNames names => "Record field names must be unique: " ++ namesListed names
  | .emptyUnframedElement => "Unframed array elements must occupy at least one byte"
  | .idleElement index offset =>
    "Array element " ++ toString index ++ " consumed no input at offset " ++ toString offset
  | .slotNotStatic => "Slot layouts must have a static size"
  | .slotTooSmall needed size =>
    "Layout needs " ++ bytesText needed ++ " but the slot holds " ++ size.text
  | .chainWithoutFees chain =>
    chain.name ++ " runs on " ++ chain.platform.title ++ ", which has no fee parameters"

/-- The sentence for input that ends too early. -/
def Truncation.message : Truncation → String
  | .read wanted offset available =>
    "Expected " ++ bytesText wanted ++ " at offset " ++ toString offset ++ ", only "
      ++ toString available ++ " available"
  | .integer width got =>
    "Expected " ++ bytesText width ++ " for an integer, got " ++ toString got
  | .bytes width got => "Expected " ++ bytesText width ++ ", got " ++ toString got
  | .element count index cause =>
    "Array declares " ++ count.text ++ " elements but input ends in element " ++ toString index
      ++ ": " ++ cause.message
  | .conversion seen => "conversion saw " ++ seen.listed

/-- What was wanted, with its article. -/
def Expectation.text : Expectation → String
  | .integer => "an int"
  | .bytes => "bytes"
  | .arrayItems => "a list for array"
  | .recordEntries => "a mapping for record"
  | .chain => "a Chain"
  | .chainCommand => "a ChainCommand"
  | .fees => "fee parameters"

namespace Error

/-- The sentence for the cause of a failure, if its class comes with one. -/
def sentence? : Error → Option String
  | .definition fault => some fault.message
  | .outOfRange value width =>
    some (toString value ++ " does not fit in an unsigned " ++ optionText width ++ "-byte integer")
  | .byteCount expected got => some ("Expected " ++ bytesText expected ++ ", got " ++ toString got)
  | .elementCount expected got =>
    some ("Expected " ++ expected.text ++ " array elements, got " ++ toString got)
  | .truncated cause => some cause.message
  | .frameLeft left size =>
    some ("Nested layout left " ++ toString left ++ " of " ++ toString size ++ " bytes unread")
  | .inputLeft left => some (toString left ++ " bytes left after decoding")
  | .unknownCaseName name => some ("Unknown switch case " ++ name.listed)
  | .unknownCaseId id => some ("Unknown switch discriminator " ++ toString id)
  | .missingTag tag => some ("Switch value has no " ++ tag.listed ++ " entry")
  | .missingField name => some ("Missing field " ++ name.listed)
  | .fixedValue expected got =>
    some ("Expected fixed value " ++ expected.listed ++ ", got " ++ got.listed)
  | .fixedBytes expected got =>
    some ("Expected fixed value " ++ Hex.encode expected ++ ", got " ++ Hex.encode got)
  | .commandNotOnPlatform name chain platform =>
    some ("Invalid command " ++ name ++ " for " ++ chain.name ++ " (" ++ platform.title ++ ")")
  | .feesOfOtherPlatform typeName chain platform =>
    some (typeName ++ " cannot be sent to " ++ chain.name ++ " (" ++ platform.title ++ ")")
  | .chainNotAllowed chain => some ("Chain " ++ chain.name ++ " is not allowed here")
  | .unknownChainId raw => some ("Unknown chain id " ++ raw.shown)
  | .platformWithoutFees platform =>
    some ("No fee parameters defined for platform " ++ platform.title)
  | .unexpected wanted typeName => some ("Expected " ++ wanted.text ++ ", got " ++ typeName)
  | .notAChain value => some (value.listed ++ " is not a valid Chain")
  | .rejected value => some ("rejected " ++ value.listed)
  | .misuse _ => none

end Error

/-! ## Sentences that cannot be written -/

/-- Whether all integers in the sentence for a faulty description can be spelt. -/
def DefinitionFault.spellable : DefinitionFault → Bool
  | .uintSize size => size.spellable
  | .fixedTooLarge value size => value.spellable && size.spellable
  | .fixedBytesSize _ size => size.spellable
  | .repeatedCaseIds ids => ids.all optionSpellable
  | .repeatedCaseNames names | .repeatedFieldNames names => names.all Label.spellable
  | .caseIdTooLarge id idSize => id.spellable && optionSpellable idSize
  | .caseNotRecord name => name.spellable
  | .caseHidesTag name tag => name.spellable && tag.spellable
  | .unknownItem listing | .notALayout listing => listing.spellable
  | .idleElement _ offset => WireLayout.spellable offset
  | .slotTooSmall needed size => needed.spellable && size.spellable
  | _ => true

/-- Whether all integers in the sentence for input that ends too early can be spelt. -/
def Truncation.spellable : Truncation → Bool
  | .read wanted offset available =>
    wanted.spellable && WireLayout.spellable offset && WireLayout.spellable available
  | .integer width _ | .bytes width _ => width.spellable
  | .element count _ cause => count.spellable && cause.spellable
  | .conversion seen => seen.spellable

namespace Error

/-- Whether all integers in the sentence for a failure can be spelt. -/
def spellable : Error → Bool
  | .definition fault => fault.spellable
  | .outOfRange value width => WireLayout.spellable value && optionSpellable width
  | .byteCount expected _ | .elementCount expected _ => expected.spellable
  | .truncated cause => cause.spellable
  | .frameLeft left _ | .inputLeft left => WireLayout.spellable left
  | .unknownCaseName name => name.spellable
  | .unknownCaseId id => WireLayout.spellable id
  | .missingTag label | .missingField label => label.spellable
  | .fixedValue expected got => expected.spellable && got.spellable
  | .unknownChainId value | .notAChain value | .rejected value => value.spellable
  | _ => true

/-- The class of a failure. -/
def kind (e : Error) : ErrorKind := if e.spellable then e.causeKind else .valueMisuse

/-- The sentence for a failure, if its class comes with one and it can be written. -/
def message? (e : Error) : Option String := if e.spellable then e.sentence? else none

theorem kind_of_spellable {e : Error} (h : e.spellable = true) : e.kind = e.causeKind := by
  simp [kind, h]

/-- Naming the element in which input ended adds the count of elements to what has to be spelt. -/
theorem spellable_inElement {count : Numeral} {index : Nat} {e : Error}
    (h : count.spellable = true) :
    (e.inElement count index).spellable = e.spellable := by
  cases e <;> simp [inElement, spellable, Truncation.spellable, h]

theorem kind_inElement {count : Numeral} {index : Nat} {e : Error} (h : count.spellable = true) :
    (e.inElement count index).kind = e.kind := by
  rw [kind, kind, spellable_inElement h, causeKind_inElement]

end Error

end WireLayout
