import WireLayout.Reader
import WireLayout.Proofs.Outcome

/-!
# Cursor — what a reader has before it

A reader whose cursor stands inside its data is, for everything that reads forward, the list of the
bytes after the cursor.

* `Reader.InBounds` — the cursor stands at a byte or at the end;
* `Reader.rest` — the bytes after the cursor;
* `Reader.advance` — the reader with its cursor moved forward.

The lemmas say what the operations of a reader do to these.
-/

namespace WireLayout
namespace Reader

/-- The cursor stands at a byte or at the end. -/
def InBounds (r : Reader) : Prop := 0 ≤ r.position ∧ r.position ≤ r.size

/-- The bytes after the cursor. -/
def rest (r : Reader) : List UInt8 := r.bytes.drop r.position.toNat

/-- The reader with its cursor moved forward. -/
def advance (r : Reader) (n : Nat) : Reader := { r with position := r.position + n }

variable {r r' : Reader}

@[simp] theorem rest_ofBytes (data : List UInt8) : (ofBytes data).rest = data := by
  simp [rest]

theorem inBounds_ofBytes (data : List UInt8) : (ofBytes data).InBounds := by
  simp [InBounds]

@[simp] theorem bytes_advance (r : Reader) (n : Nat) : (r.advance n).bytes = r.bytes := rfl

@[simp] theorem size_advance (r : Reader) (n : Nat) : (r.advance n).size = r.size := rfl

@[simp] theorem position_advance (r : Reader) (n : Nat) :
    (r.advance n).position = r.position + n := rfl

@[simp] theorem advance_zero (r : Reader) : r.advance 0 = r := by
  simp [advance]

theorem advance_advance (r : Reader) (m n : Nat) :
    (r.advance m).advance n = r.advance (m + n) := by
  simp [advance, Int.add_assoc]

/-! ## The bytes after the cursor -/

theorem remaining_eq (h : r.InBounds) : r.remaining = r.rest.length := by
  rcases h with ⟨hlow, hhigh⟩
  simp only [remaining, rest, List.length_drop, length_bytes]
  omega

theorem remaining_advance_length (data : List UInt8) :
    ((ofBytes data).advance data.length).remaining = 0 := by
  simp [remaining]

theorem length_rest_le (r : Reader) : r.rest.length ≤ r.size := by
  simp [rest]

theorem rest_advance (h : r.InBounds) {bs tail : List UInt8} (hrest : r.rest = bs ++ tail) :
    (r.advance bs.length).rest = tail := by
  have hdrop : (r.position + (bs.length : Int)).toNat = r.position.toNat + bs.length := by
    have := h.1
    omega
  calc
    (r.advance bs.length).rest
        = r.bytes.drop (r.position.toNat + bs.length) := by rw [rest, bytes_advance,
          position_advance, hdrop]
    _ = (bs ++ tail).drop bs.length := by rw [← hrest, rest, List.drop_drop]
    _ = tail := List.drop_left

theorem inBounds_advance (h : r.InBounds) {bs tail : List UInt8} (hrest : r.rest = bs ++ tail) :
    (r.advance bs.length).InBounds := by
  have hremaining := remaining_eq h
  rw [hrest, List.length_append, remaining] at hremaining
  rcases h with ⟨hlow, _⟩
  constructor
  · rw [position_advance]
    omega
  · rw [position_advance, size_advance]
    omega

/-- The bytes that a cursor moved over are those between its two positions. -/
theorem sliceBetween_advance (h : r.InBounds) {bs tail : List UInt8} (hrest : r.rest = bs ++ tail) :
    sliceBetween r.bytes r.position (r.advance bs.length).position = bs := by
  have hremaining := remaining_eq h
  rw [hrest, List.length_append, remaining] at hremaining
  have hposition : r.position = (r.position.toNat : Int) := (Int.toNat_of_nonneg h.1).symm
  rw [position_advance, hposition, sliceBetween_of_le, ← rest, hrest, List.take_left]
  rw [length_bytes]
  omega

/-- The next bytes are the first of those after the cursor. -/
theorem peek_eq_take (h : r.InBounds) (n : Nat) : r.peek n = r.rest.take n := by
  have hposition : r.position = (r.position.toNat : Int) := (Int.toNat_of_nonneg h.1).symm
  have hlength : r.rest.length = r.size - r.position.toNat := by simp [rest]
  have hstart : placeOfBound r.size r.position = r.position.toNat := by
    have := h.2
    rw [placeOfBound, if_neg (by omega)]
    omega
  have hstop : placeOfBound r.size (r.position + n) = min (r.position.toNat + n) r.size := by
    rw [placeOfBound, if_neg (by omega)]
    omega
  rw [peek_eq, sliceBetween, length_bytes, hstart, hstop, ← rest]
  -- near the end both give all that is left
  by_cases hn : r.position.toNat + n ≤ r.size
  · congr 1
    omega
  · rw [List.take_of_length_le (by omega), List.take_of_length_le (by omega)]

/-! ## Reading -/

theorem read_ok_iff (h : r.InBounds) {n : Numeral} (hn : 0 ≤ n.value) {bs : List UInt8} :
    read n r = .ok bs r' ↔
      ∃ tail, r.rest = bs ++ tail ∧ (bs.length : Int) = n.value ∧ r' = r.advance bs.length := by
  have hremaining := remaining_eq h
  have hposition : r.position = (r.position.toNat : Int) := (Int.toNat_of_nonneg h.1).symm
  have hcount : n.value = (n.value.toNat : Int) := (Int.toNat_of_nonneg hn).symm
  have hsize : r.rest.length = r.size - r.position.toNat := by simp [rest]
  have hpeek : n.value ≤ r.remaining → r.peek n.value = r.rest.take n.value.toNat := by
    intro hle
    rw [hremaining, hsize] at hle
    rw [peek_eq, hcount, hposition, sliceBetween_of_le, ← rest, Int.toNat_natCast]
    rw [length_bytes]
    have := h.2
    omega
  unfold read
  split
  -- too few bytes are left: no prefix of them has the length asked for
  · rename_i hshort
    constructor
    · intro hread
      cases hread
    · intro hread
      rcases hread with ⟨tail, hrest, hlength, _⟩
      rw [hrest, List.length_append] at hremaining
      omega
  · rename_i henough
    rw [hpeek (by omega)]
    constructor
    · intro hread
      cases hread
      have hlength : (r.rest.take n.value.toNat).length = n.value.toNat := by
        rw [List.length_take]
        omega
      refine ⟨r.rest.drop n.value.toNat, (List.take_append_drop _ _).symm, by omega, ?_⟩
      rw [advance, hlength, ← hcount]
    · intro hread
      rcases hread with ⟨tail, hrest, hlength, rfl⟩
      have htoNat : n.value.toNat = bs.length := by omega
      rw [hrest, htoNat, List.take_left, advance, hlength]

theorem readRest_ok_iff (h : r.InBounds) {bs : List UInt8} :
    readRest r = .ok bs r' ↔ r.rest = bs ∧ r' = r.advance bs.length := by
  have hremaining := remaining_eq h
  have hposition : r.position = (r.position.toNat : Int) := (Int.toNat_of_nonneg h.1).symm
  have hsize : (r.size : Int) = r.position.toNat + (r.size - r.position.toNat : Nat) := by
    have := h.2
    omega
  have hslice : sliceBetween r.bytes r.position r.size = r.rest := by
    rw [hposition, hsize, sliceBetween_of_le, ← rest, List.take_of_length_le]
    · simp [rest]
    · rw [length_bytes]
      omega
  have hlast : (r.size : Int) = r.position + r.rest.length := by
    rw [← hremaining, remaining]
    omega
  -- reading the rest sets the cursor to the end instead of moving it
  have hend : { r with position := r.size } = r.advance r.rest.length := by
    rw [advance, ← hlast]
  rw [readRest_eq, hslice, hend]
  constructor
  · intro hread
    cases hread
    exact ⟨rfl, rfl⟩
  · intro hread
    rcases hread with ⟨rfl, rfl⟩
    rfl

end Reader
end WireLayout
