/-!
# BigEndian — natural numbers as bytes, most significant byte first

* `BigEndian.encode width n` — the `width` last base-256 digits of `n`;
* `BigEndian.decode` — the number that a run of bytes denotes;
* `BigEndian.fits width n` — whether `width` digits are enough for `n`.
-/

namespace WireLayout
namespace BigEndian

/-- The `width` last digits of a number, in front of the digits that are there already. -/
def encodeBefore : (width : Nat) → (n : Nat) → List UInt8 → List UInt8
  | 0, _, digits => digits
  | width + 1, n, digits => encodeBefore width (n / 256) (UInt8.ofNat (n % 256) :: digits)

/-- The `width` last base-256 digits of a number, most significant first. -/
def encode (width n : Nat) : List UInt8 := encodeBefore width n []

/-- The number that the digits denote. -/
def decode (digits : List UInt8) : Nat :=
  digits.foldl (fun n d => 256 * n + d.toNat) 0

/-- Whether a number has no more than `width` digits. -/
def fits (width n : Nat) : Bool := n == 0 || decide (n.log2 < 8 * width)

/-! ## Digits -/

theorem encodeBefore_eq (width n : Nat) (digits : List UInt8) :
    encodeBefore width n digits = encode width n ++ digits := by
  induction width generalizing n digits with
  | zero => rfl
  | succ width ih =>
    rw [encode, encodeBefore, encodeBefore, ih, ih (n / 256) [UInt8.ofNat (n % 256)]]
    simp

@[simp] theorem encode_zero (n : Nat) : encode 0 n = [] := rfl

/-- The last digit is the remainder; the digits before it are those of the quotient. -/
theorem encode_succ (width n : Nat) :
    encode (width + 1) n = encode width (n / 256) ++ [UInt8.ofNat (n % 256)] :=
  encodeBefore_eq width (n / 256) [UInt8.ofNat (n % 256)]

@[simp] theorem length_encode (width n : Nat) : (encode width n).length = width := by
  induction width generalizing n with
  | zero => rfl
  | succ width ih => simp [encode_succ, ih]

theorem decode_append_singleton (digits : List UInt8) (d : UInt8) :
    decode (digits ++ [d]) = 256 * decode digits + d.toNat := by
  simp [decode]

end BigEndian
end WireLayout
