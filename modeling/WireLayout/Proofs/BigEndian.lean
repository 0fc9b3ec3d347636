import Mathlib.Algebra.Group.Nat.Defs
import Mathlib.Data.List.Induction
import WireLayout.BigEndian

/-!
# BigEndian — numbers and their digits determine each other

* `BigEndian.decode_encode` — a number below `256 ^ width` is read back from its digits;
* `BigEndian.encode_decode` — digits are found again from the number that they denote;
* `BigEndian.fits_iff` — the numbers that have no more digits than a width;
* `BigEndian.decode_lt` — digits denote a number below the power of their count.
-/

namespace WireLayout

namespace BigEndian

theorem decode_encode {width n : Nat} (h : n < 256 ^ width) : decode (encode width n) = n := by
  induction width generalizing n with
  | zero =>
    have h0 : n = 0 := by simpa using h
    simp [decode, h0]
  | succ width ih =>
    have hdiv : n / 256 < 256 ^ width := by
      rw [Nat.div_lt_iff_lt_mul (by decide)]
      simpa [Nat.pow_succ] using h
    have hmod : (UInt8.ofNat (n % 256)).toNat = n % 256 := by
      simp
    rw [encode_succ, decode_append_singleton, ih hdiv, hmod]
    omega

/-- Numbers with at most `width` digits are those below `256 ^ width`. -/
theorem fits_iff {width n : Nat} : fits width n = true ↔ n < 256 ^ width := by
  have hpow : 256 ^ width = 2 ^ (8 * width) := by rw [Nat.pow_mul]
  rcases Nat.eq_zero_or_pos n with rfl | hn
  · exact ⟨fun _ => Nat.pow_pos (by decide), fun _ => rfl⟩
  · simp [fits, hpow, Nat.log2_lt (Nat.ne_of_gt hn), Nat.ne_of_gt hn]

theorem decode_lt (digits : List UInt8) : decode digits < 256 ^ digits.length := by
  -- from the last digit to the first, as the number is built up
  induction digits using List.reverseRecOn with
  | nil => simp [decode]
  | append_singleton digits d ih =>
    have hd : d.toNat < 256 := d.toNat_lt
    rw [decode_append_singleton, List.length_append, List.length_singleton, Nat.pow_succ]
    omega

theorem encode_decode (digits : List UInt8) : encode digits.length (decode digits) = digits := by
  induction digits using List.reverseRecOn with
  | nil => rfl
  | append_singleton digits d ih =>
    have hd : d.toNat < 256 := d.toNat_lt
    have hdiv : (256 * decode digits + d.toNat) / 256 = decode digits := by omega
    have hmod : (256 * decode digits + d.toNat) % 256 = d.toNat := by omega
    rw [decode_append_singleton, List.length_append, List.length_singleton, encode_succ, hdiv, hmod,
      ih, UInt8.ofNat_toNat]

end BigEndian

end WireLayout
