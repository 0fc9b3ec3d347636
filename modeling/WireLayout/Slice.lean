/-!
# Slice — parts of a sequence between two bounds

A bound counts from the start; a negative bound counts from the end.  Bounds outside the sequence
are moved to its nearer end, and crossed bounds give the empty part.

* `sliceBetween` — the elements between two bounds;
* `sliceOfArray` — the same for arrays, without a walk to the first bound;
* `elementAt?` — one element; here a place outside the sequence has none.
-/

namespace WireLayout

/-- The place in a sequence of `size` elements that a bound stands for. -/
def placeOfBound (size : Nat) (bound : Int) : Nat :=
  if bound < 0 then (bound + size).toNat else min bound.toNat size

/-- The elements from one bound up to another. -/
def sliceBetween {α : Type} (xs : List α) (start stop : Int) : List α :=
  let first := placeOfBound xs.length start
  (xs.drop first).take (placeOfBound xs.length stop - first)

/-- The elements of an array from one bound up to another. -/
def sliceOfArray {α : Type} (xs : Array α) (start stop : Int) : List α :=
  (xs.extract (placeOfBound xs.size start) (placeOfBound xs.size stop)).toList

/-- The element at a place. -/
def elementAt? {α : Type} (xs : List α) (place : Int) : Option α :=
  if 0 ≤ place then xs[place.toNat]?
  else if 0 ≤ place + xs.length then xs[(place + xs.length).toNat]?
  else none

/-- Bounds inside the sequence cut out exactly the elements between them. -/
theorem sliceBetween_of_le {α : Type} {xs : List α} {p n : Nat} (h : p + n ≤ xs.length) :
    sliceBetween xs p (p + n) = (xs.drop p).take n := by
  have hp : placeOfBound xs.length p = p := by
    rw [placeOfBound, if_neg (by omega)]
    omega
  have hn : placeOfBound xs.length (p + n) = p + n := by
    rw [placeOfBound, if_neg (by omega)]
    omega
  simp only [sliceBetween, hp, hn]
  congr 1
  omega

/-- The elements up to a bound inside the sequence are its first ones. -/
theorem sliceBetween_zero {α : Type} {xs : List α} {n : Nat} (h : n ≤ xs.length) :
    sliceBetween xs 0 n = xs.take n := by
  have hfirst := @sliceBetween_of_le _ xs 0 n (by omega)
  simpa using hfirst

/-- An array is cut like the list of its elements. -/
theorem sliceOfArray_eq {α : Type} (xs : Array α) (start stop : Int) :
    sliceOfArray xs start stop = sliceBetween xs.toList start stop := by
  simp [sliceOfArray, sliceBetween]

end WireLayout
