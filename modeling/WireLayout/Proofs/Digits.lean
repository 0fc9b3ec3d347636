import WireLayout.Primitive
import WireLayout.Proofs.MachineWord
import WireLayout.Proofs.Outcome
import WireLayout.Proofs.Sameness

/-!
# Digits — unsigned integers and their bytes determine each other

A number is read back from its digits, and digits are written again for the number that they denote.
Here is what both mean for the integers that layouts write, whether they are machine words or not.

* `Uint.bytesOf_eq`, `Uint.ofBytes_eq` — a machine word or not, an integer is written and read as
  its digits;
* `Uint.Fits` — the numbers that have room in a width;
* `Uint.bytesOf_ok_iff` — an integer is written exactly if it fits, and as its digits;
* `Uint.bytesOf_of_negative`, `Uint.bytesOf_of_large`, `Uint.bytesOf_of_wide` — the integers that
  are refused, by what is wrong with them;
* `Uint.bytesOf_decode` — bytes that were read as a number are written for that number;
* `Uint.same_of_encode` — the number that is read from the bytes of a value equals the value;
* `spellable_of_lt`, `spellable_of_le` — integers that are short enough to be spelt.
-/

namespace WireLayout

namespace Uint

/-- The numbers that have room in a width; the width has to be a size below the limit. -/
def Fits (n : Nat) (width : Numeral) : Prop :=
  0 ≤ width.value ∧ width.value < widthLimit ∧ n < 256 ^ width.value.toNat

/-! ## Room in a width -/

section

variable {n : Int} {width : Numeral}

theorem fits_of_negative (hn : n < 0) : fits n width = .ok false := if_pos hn

/-- The range of a width from the limit on cannot be formed. -/
theorem fits_of_wide (hn : 0 ≤ n) (hwide : widthLimit ≤ width.value) :
    fits n width = .error (.misuse .tooLarge) := by
  have hpositive : ¬ width.value < 0 := by
    unfold widthLimit at hwide
    omega
  rw [fits, if_neg (Int.not_lt.2 hn), if_neg hpositive, if_pos hwide]

/-- Below the limit, a number has room if it has no more digits than the width. -/
theorem fits_natCast {m : Nat} (hlow : 0 ≤ width.value) (hlimit : width.value < widthLimit) :
    fits m width = .ok (BigEndian.fits width.value.toNat m) := by
  rw [fits, if_neg (Int.not_lt.2 (Int.natCast_nonneg m)), if_neg (Int.not_lt.2 hlow),
    if_neg (Int.not_le.2 hlimit), Int.toNat_natCast]

theorem fits_ok_true_iff : fits n width = .ok true ↔ ∃ m : Nat, n = m ∧ Fits m width := by
  constructor
  · intro h
    unfold fits at h
    split at h
    · cases h
    split at h
    · cases h
    split at h
    · cases h
    -- what is left is the comparison itself
    rw [Except.ok.injEq, BigEndian.fits_iff] at h
    exact ⟨n.toNat, by omega, by omega, by omega, h⟩
  · rintro ⟨m, rfl, hlow, hlimit, hm⟩
    rw [fits_natCast hlow hlimit, Except.ok.injEq, BigEndian.fits_iff]
    exact hm

end

/-! ## Two ways to write and to read -/

/-- A number has its digits in a block of its own, if there is a block of that size and it has room
for them. -/
theorem digitsOf_eq {n : Nat} {width : Int} (hlow : 0 ≤ width) (hhigh : width < blockLimit)
    (hfits : n < 256 ^ width.toNat) :
    digitsOf n width = .ok (BigEndian.encode width.toNat n) := by
  have hroom : ¬ ((n : Int) < 0 ∨ ¬ BigEndian.fits width.toNat n = true) := by
    rw [BigEndian.fits_iff]
    omega
  rw [digitsOf, blockSize_of_lt hlow hhigh, Except.ok_bind, Int.toNat_natCast, if_neg hroom]
  rfl

section

variable {word : MachineWord} {width : Int} (hword : MachineWord.ofWidth? width = some word)
include hword

/-- Where there is a machine word, it holds the same digits as a block of that size. -/
theorem pack_eq_digitsOf {n : Nat} (h : n < 256 ^ width.toNat) :
    word.pack n = digitsOf n width := by
  have hwidth := MachineWord.ofWidth?_eq_some_iff.1 hword
  have hshort : width < blockLimit := by
    have hle := word.width_le
    unfold blockLimit
    omega
  have hsize : width.toNat = word.width := by omega
  rw [digitsOf_eq (by omega) hshort h, hsize]
  exact MachineWord.pack_eq (hsize ▸ h)

/-- Where there is a machine word, it is read from the same digits. -/
theorem unpack_eq_ofDigits {data : List UInt8} (h : width ≤ data.length) :
    word.unpack data = .ok (ofDigits data width) := by
  have hwidth := MachineWord.ofWidth?_eq_some_iff.1 hword
  have hlength : word.width ≤ data.length := by omega
  rw [ofDigits, hwidth, sliceBetween_zero hlength]
  exact MachineWord.unpack_eq hlength

end

/-- Whether it is a machine word or not, an integer is written as its digits. -/
theorem bytesOf_eq (n : Int) (width : Numeral) :
    bytesOf n width = (do
      if ← fits n width then return BigEndian.encode width.value.toNat n.toNat
      else .error (.outOfRange n (some width))) := by
  unfold bytesOf
  cases hfit : fits n width with
  | error e => rfl
  | ok fit =>
    cases fit with
    | false => rfl
    | true =>
      rcases fits_ok_true_iff.1 hfit with ⟨m, rfl, hlow, hlimit, hm⟩
      -- the word and the block would refuse only what was refused before
      have hblock : width.value < blockLimit := Int.lt_trans hlimit (by decide)
      have hdigits := digitsOf_eq hlow hblock hm
      simp only [Except.ok_bind, if_true, Int.toNat_natCast]
      split
      · rename_i hword
        exact (pack_eq_digitsOf hword hm).trans hdigits
      · exact hdigits

/-- Whether it is a machine word or not, an integer is read from its digits. -/
theorem ofBytes_eq (data : List UInt8) (width : Numeral) :
    ofBytes data width =
      if (data.length : Int) < width.value then .error (.truncated (.integer width data.length))
      else .ok (ofDigits data width.value) := by
  unfold ofBytes
  split
  · rfl
  · rename_i henough
    split
    · rename_i hword
      exact unpack_eq_ofDigits hword (Int.not_lt.1 henough)
    · rfl

/-! ## Writing and reading again -/

theorem bytesOf_ok_iff {n : Int} {width : Numeral} {bs : List UInt8} :
    bytesOf n width = .ok bs ↔
      ∃ m : Nat, n = m ∧ Fits m width ∧ bs = BigEndian.encode width.value.toNat m := by
  have hfits := @fits_ok_true_iff n width
  rw [bytesOf_eq, Except.bind_ok_iff]
  constructor
  · intro h
    rcases h with ⟨fit, hfit, h⟩
    cases fit with
    | false => cases h
    | true =>
      rcases hfits.1 hfit with ⟨m, rfl, hm⟩
      cases h
      exact ⟨m, rfl, hm, by simp⟩
  · intro h
    rcases h with ⟨m, rfl, hm, rfl⟩
    exact ⟨true, hfits.2 ⟨m, rfl, hm⟩, by simp [pure, Except.pure]⟩

/-- A negative integer has no room in any width. -/
theorem bytesOf_of_negative {n : Int} {width : Numeral} (hn : n < 0) :
    bytesOf n width = .error (.outOfRange n (some width)) := by
  rw [bytesOf, fits_of_negative hn]
  rfl

/-- The range of so many bytes cannot be formed, so no other integer is compared with it. -/
theorem bytesOf_of_wide {n : Int} {width : Numeral} (hn : 0 ≤ n)
    (hwide : widthLimit ≤ width.value) : bytesOf n width = .error (.misuse .tooLarge) := by
  rw [bytesOf, fits_of_wide hn hwide]
  rfl

/-- A number with more digits than the width is refused. -/
theorem bytesOf_of_large {m : Nat} {width : Numeral} (hlow : 0 ≤ width.value)
    (hlimit : width.value < widthLimit) (hm : 256 ^ width.value.toNat ≤ m) :
    bytesOf m width = .error (.outOfRange m (some width)) := by
  have hroom : BigEndian.fits width.value.toNat m = false := by
    rw [← Bool.not_eq_true, BigEndian.fits_iff]
    exact Nat.not_lt.2 hm
  rw [bytesOf, fits_natCast hlow hlimit, hroom]
  rfl

/-- What was written has the width asked for and reads as the integer. -/
theorem of_bytesOf_ok {n : Int} {width : Numeral} {bs : List UInt8}
    (h : bytesOf n width = .ok bs) :
    (bs.length : Int) = width.value ∧ (BigEndian.decode bs : Int) = n := by
  rcases bytesOf_ok_iff.1 h with ⟨m, rfl, hfits, rfl⟩
  rw [BigEndian.length_encode, BigEndian.decode_encode hfits.2.2]
  exact ⟨Int.toNat_of_nonneg hfits.1, rfl⟩

/-- Bytes that were read as a number are what is written for it. -/
theorem bytesOf_decode {bs : List UInt8} {width : Numeral}
    (hwidth : (bs.length : Int) = width.value) (hlimit : (bs.length : Int) < widthLimit) :
    bytesOf (BigEndian.decode bs) width = .ok bs := by
  have hlength : width.value.toNat = bs.length := by omega
  refine bytesOf_ok_iff.2 ⟨BigEndian.decode bs, rfl, ⟨by omega, by omega, ?_⟩, ?_⟩
  -- as many digits as the width has denote no number that is too large
  · rw [hlength]
    exact BigEndian.decode_lt bs
  · rw [hlength, BigEndian.encode_decode]

/-- No other bytes are written for a number than those that it was read from. -/
theorem eq_of_bytesOf_decode {bs written : List UInt8} {width : Numeral}
    (hwidth : (bs.length : Int) = width.value)
    (h : bytesOf (BigEndian.decode bs) width = .ok written) : written = bs := by
  rcases bytesOf_ok_iff.1 h with ⟨n, hn, _, rfl⟩
  have hlength : width.value.toNat = bs.length := by omega
  rw [← Int.natCast_inj.1 hn, hlength, BigEndian.encode_decode]

theorem integer?_ofNumeral {m : Numeral} {n : Int} (h : integer? (.ofNumeral m) = some n) :
    n = m.value := by
  cases m <;> simp_all [integer?, Value.ofNumeral, Numeral.value]

theorem encode_ok_iff {v : Value} {width : Numeral} {bs : List UInt8} :
    encode v width = .ok bs ↔ ∃ n, integer? v = some n ∧ bytesOf n width = .ok bs := by
  unfold encode
  cases integer? v <;> simp

theorem length_of_encode {v : Value} {width : Numeral} {bs : List UInt8}
    (h : encode v width = .ok bs) : (bs.length : Int) = width.value := by
  rcases encode_ok_iff.1 h with ⟨n, _, hn⟩
  exact (of_bytesOf_ok hn).1

/-- An integer equals the value that spells it. -/
theorem same_of_integer? {v : Value} {n : Int} (h : integer? v = some n) :
    (Value.int n).same v = true := by
  cases v with
  | int m =>
    cases h
    rw [Value.same_int, beq_self_eq_true]
  | chain c =>
    cases h
    exact beq_self_eq_true _
  | _ => cases h

/-- The bytes of a value are read as a number that equals it. -/
theorem same_of_encode {v : Value} {width : Numeral} {bs : List UInt8}
    (h : encode v width = .ok bs) : (Value.int (BigEndian.decode bs)).same v = true := by
  rcases encode_ok_iff.1 h with ⟨n, hn, hbs⟩
  rw [(of_bytesOf_ok hbs).2]
  exact same_of_integer? hn

/-- How a width is spelt does not matter for what is written. -/
theorem encode_ok_congr {v : Value} {width width' : Numeral} (h : width.value = width'.value)
    {bs : List UInt8} : encode v width = .ok bs ↔ encode v width' = .ok bs := by
  simp only [encode_ok_iff, bytesOf_ok_iff, Fits, h]

theorem ofBytes_of_length {bs : List UInt8} {width : Numeral}
    (h : (bs.length : Int) = width.value) : ofBytes bs width = .ok (BigEndian.decode bs) := by
  have hall : sliceBetween bs 0 width.value = bs := by
    rw [← h, sliceBetween_zero (Nat.le_refl _), List.take_length]
  rw [ofBytes_eq, if_neg (by omega), ofDigits, hall]

end Uint

/-! ## Integers that can be spelt -/

theorem spellable_of_lt {n : Int} (h : n.natAbs < 2 ^ 63) : spellable n = true := by
  -- a bound for all limits, so that the power is never evaluated
  have hpowers : ∀ digits, 19 ≤ digits → 10 ^ 19 ≤ Nat.pow 10 digits :=
    fun digits hdigits => Nat.pow_le_pow_right (n := 10) (by decide) hdigits
  have hdigits : 19 ≤ digitLimit := by decide
  have hlimit : 10 ^ 19 ≤ unspeltFrom := by
    unfold unspeltFrom
    exact hpowers digitLimit hdigits
  rw [spellable, decide_eq_true_iff]
  omega

/-- A size that is short enough can be reported. -/
theorem optionSpellable_of_lt {n : Int} (h : n.natAbs < 2 ^ 63) :
    optionSpellable (some (.plain n)) = true := by
  rw [optionSpellable, Numeral.spellable, Numeral.value_plain]
  exact spellable_of_lt h

/-- An integer that is no further from zero than one that can be spelt can be spelt itself. -/
theorem spellable_of_le {m n : Int} (h : m.natAbs ≤ n.natAbs) (hn : spellable n = true) :
    spellable m = true := by
  rw [spellable, decide_eq_true_iff] at hn ⊢
  exact Nat.lt_of_le_of_lt h hn

end WireLayout
