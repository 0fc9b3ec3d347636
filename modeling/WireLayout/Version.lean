/-!
# Version — the release of this library
-/

namespace WireLayout

/-- The release number. -/
def version : String := "0.1.0"

end WireLayout
