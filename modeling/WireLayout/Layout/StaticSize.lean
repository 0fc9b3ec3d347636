import WireLayout.Layout.Text

/-!
# StaticSize — encoded sizes that do not depend on the value

* `Layout.staticSize` — the number of bytes of every encoding, or nothing if it depends on the
  value;
* `Layout.itemSize` — the same for items only; a record is no item.

A record is measured field by field and given up at the first field without a static size, so what
stands after that field is not looked at.
-/

namespace WireLayout
namespace Layout

/-- The common size of the cases of a switch, if there is one. -/
def commonSize : List (Option Numeral) → Option Int
  | [] => none
  | none :: _ => none
  | some n :: rest =>
    if rest.all fun m => m.any n.same then some n.value else none

mutual

/-- The number of bytes of every encoding. -/
def staticSize : Layout → Except Error (Option Numeral)
  | .uint size _ _ => .ok (some size)
  | .blob framing custom _ =>
    match framing, custom with
    | .fixed n, _ => .ok (some n)
    | _, .constant content => .ok (some (.plain content.length))
    | _, _ => .ok none
  | .nested framing inner _ _ =>
    match framing with
    | .fixed n => .ok (some n)
    | .counted _ => .ok none
    | .unframed => staticSize inner
  | .array framing element _ =>
    match framing with
    | .fixed n => do
      let size ← staticSize element
      return size.map fun s => .plain (n.value * s.value)
    | _ => .ok none
  | .switch idSize _ cases _ => do
    let sizes ← caseSizes cases
    return (commonSize sizes).map fun s => .plain (idSize.value + s)
  | .record fields => recordSize 0 fields
  | .unknownItem => .error (.definition (.unknownItem (listing .unknownItem)))
  | .list items => .error (.definition (.notALayout (listing (.tuple items))))
  | l => .error (.definition (.notALayout l.listing))

/-- The size of a record, added to that of the fields before. -/
def recordSize (total : Int) : List Field → Except Error (Option Numeral)
  | [] => .ok (some (.plain total))
  | .mk _ item :: rest => do
    match ← staticSize item with
    | none => return none
    | some n => recordSize (total + n.value) rest

/-- The sizes of the cases of a switch. -/
def caseSizes : List Case → Except Error (List (Option Numeral))
  | [] => .ok []
  | .mk _ _ fields :: rest => do
    let size ← recordSize 0 fields
    let sizes ← caseSizes rest
    return size :: sizes

end

/-- The size of any description; a list counts as the sequence it becomes. -/
def measure (l : Layout) : Except Error (Option Numeral) := l.settle.staticSize

/-- The size of an item. -/
def itemSize (l : Layout) : Except Error (Option Numeral) :=
  if l.isItem then l.staticSize else .error (.definition (.unknownItem l.listing))

end Layout
end WireLayout
