import WireLayout.Error

/-!
# Conversion — reshaping values around a layout

A conversion is a pair of functions: `afterDecode` runs after a value was decoded, `beforeEncode`
before it is encoded.  Functions cannot be compared, so a conversion carries an identity; two
conversions are the same exactly when their identities are.
-/

namespace WireLayout

/-- What tells one conversion from another: a name of its own, or the number it was issued under. -/
inductive ConversionId where
  | named (name : String)
  | issued (serial : Nat)
  deriving DecidableEq, Repr, Inhabited

/-- A pair of functions around a layout. -/
structure Conversion where
  id : ConversionId
  afterDecode : Value → Except Error Value
  beforeEncode : Value → Except Error Value

namespace Conversion

instance : Inhabited Conversion := ⟨⟨default, .ok, .ok⟩⟩

/-- Whether two conversions are the same. -/
def same (a b : Conversion) : Bool := a.id == b.id

end Conversion

end WireLayout
