import Mathlib.Data.Nat.Digits.Defs
import WireLayout.Proofs.Digits

/-!
# Ordering — integers and their bytes come in the same order

At every width the integers in range and the blocks of that many bytes determine each other, and the
order of the integers is the order in which their blocks stand in a dictionary.

* `BigEndian.value` — the number that digits denote, the last of them being the least significant;
* `BigEndian.decode_lt_decode_iff` — of two blocks of one length, that which denotes less is first;
* `Uint.encode_ok_iff_value` — the bytes of an integer are as many as the width says, and denote it;
* `Uint.bytesOf_of_outside` — an integer that has no room is refused as out of range;
* `Uint.OrdersDigits`, `Uint.WordsHoldDigits` — what writing and reading at a width come to, and
  that machine words come to the same;
* `Uint.ordered_bijection` — both, for all widths.
-/

namespace WireLayout

/-! ## Digits in order -/

namespace BigEndian

/-- The number that base-256 digits denote, the last of them being the least significant. -/
def value (digits : List UInt8) : Nat := Nat.ofDigits 256 (digits.reverse.map UInt8.toNat)

theorem decode_eq_value (digits : List UInt8) : decode digits = value digits := by
  induction digits using List.reverseRecOn with
  | nil => rfl
  | append_singleton digits d ih =>
    have hlast : value (digits ++ [d]) = d.toNat + 256 * value digits := by
      rw [value, List.reverse_concat, List.map_cons, Nat.ofDigits_cons, value]
    rw [decode_append_singleton, ih, hlast, Nat.add_comm]

/-- The first digit counts for the digits after it. -/
theorem decode_cons (d : UInt8) (digits : List UInt8) :
    decode (d :: digits) = decode digits + 256 ^ digits.length * d.toNat := by
  rw [decode_eq_value, decode_eq_value, value, List.reverse_cons, List.map_append,
    Nat.ofDigits_append, List.length_map, List.length_reverse, List.map_singleton,
    Nat.ofDigits_singleton, value]

/-- Of two blocks of one length, the one that denotes less comes first. -/
theorem decode_lt_decode_iff {a b : List UInt8} (hlength : a.length = b.length) :
    decode a < decode b ↔ a < b := by
  -- on the first digits, since they decide; the digits after them denote less than one of them
  induction a generalizing b with
  | nil =>
    cases b with
    | nil => simp
    | cons y b => cases hlength
  | cons x a ih =>
    cases b with
    | nil => cases hlength
    | cons y b =>
      have hrest : a.length = b.length := Nat.succ.inj hlength
      have ha : decode a < 256 ^ b.length := hrest ▸ decode_lt a
      have hb : decode b < 256 ^ b.length := decode_lt b
      have hmore : ∀ {m n : Nat}, m < n →
          256 ^ b.length * m + 256 ^ b.length ≤ 256 ^ b.length * n :=
        fun h => Nat.mul_le_mul_left (256 ^ b.length) h
      rw [decode_cons, decode_cons, hrest, List.cons_lt_cons_iff, ← ih hrest, UInt8.lt_iff_toNat_lt,
        ← UInt8.toNat_inj]
      rcases Nat.lt_trichotomy x.toNat y.toNat with hxy | hxy | hxy
      · have hstep := hmore hxy
        simp only [hxy, true_or, iff_true]
        omega
      · simp only [hxy, Nat.lt_irrefl, false_or, true_and]
        omega
      · have hstep := hmore hxy
        have hnot : ¬ (x.toNat < y.toNat ∨ x.toNat = y.toNat ∧ decode a < decode b) := by omega
        simp only [hnot, iff_false]
        omega

end BigEndian

/-! ## Integers in order -/

namespace Uint

variable {width : Numeral} {v : Value} {n : Int} {bs : List UInt8}

theorem encode_eq_bytesOf (hv : integer? v = some n) : encode v width = bytesOf n width := by
  unfold encode
  rw [hv]

/-- Bytes that stand at the start of a block are read as the number that they denote. -/
theorem decode_append (form : BytesForm) (hlength : (bs.length : Int) = width.value)
    (later : List UInt8) :
    decode (.bytes form (bs ++ later)) width = .ok (BigEndian.decode bs) := by
  have hall : bs.length ≤ (bs ++ later).length := by simp
  have hfirst : ofDigits (bs ++ later) width.value = BigEndian.decode bs := by
    rw [ofDigits, ← hlength, sliceBetween_zero hall, List.take_left]
  have hread : ofBytes (bs ++ later) width = .ok (BigEndian.decode bs) := by
    rw [ofBytes_eq, if_neg (by omega), hfirst]
  exact hread

/-- That an integer is out of range can be said unless it or the width has too many digits. -/
theorem kind_outOfRange (hn : spellable n = true) (hwidth : width.spellable = true) :
    (Error.outOfRange n (some width)).kind = .integerRange := by
  refine Error.kind_of_spellable ?_
  rw [Error.spellable, hn, optionSpellable, hwidth]
  rfl

/-- Writing and reading unsigned integers of a width are inverse to each other and keep the
order. -/
structure OrdersDigits (width : Numeral) : Prop where
  /-- An integer is written exactly if it is in range. -/
  written_iff : ∀ v n, integer? v = some n →
    ((∃ bs, encode v width = .ok bs) ↔ 0 ≤ n ∧ n < 256 ^ width.value.toNat)
  /-- It is written as the only bytes of that width that denote it. -/
  written_as : ∀ v n bs, integer? v = some n →
    (encode v width = .ok bs ↔
      bs.length = width.value.toNat ∧ (BigEndian.value bs : Int) = n)
  /-- Otherwise it is refused as out of range. -/
  refused : ∀ v n, integer? v = some n → ¬ (0 ≤ n ∧ n < 256 ^ width.value.toNat) →
    encode v width = .error (.outOfRange n (some width)) ∧
      (spellable n = true → (Error.outOfRange n (some width)).kind = .integerRange)
  /-- Whatever follows its bytes, it is read from them again. -/
  read_back : ∀ v n bs, integer? v = some n → encode v width = .ok bs → ∀ form later,
    ∃ m : Nat, decode (.bytes form (bs ++ later)) width = .ok m ∧ (m : Int) = n
  /-- The first bytes of a block are written again for the number that is read from them. -/
  rewritten : ∀ form data, width.value ≤ data.length → ∃ m : Nat,
    decode (.bytes form data) width = .ok m ∧
      encode (.int m) width = .ok (data.take width.value.toNat)
  /-- The less of two integers has the bytes that come first. -/
  ordered : ∀ v v' n n' bs bs', integer? v = some n → integer? v' = some n' →
    encode v width = .ok bs → encode v' width = .ok bs' → (n < n' ↔ bs < bs')

/-- A width is that of a machine word if it has one, two, four or eight bytes.  The word refuses
nothing that is in range, and holds the digits that a block of its own would hold. -/
structure WordsHoldDigits (width : Numeral) : Prop where
  isWord_iff : (∃ word, MachineWord.ofWidth? width.value = some word) ↔
    width.value = 1 ∨ width.value = 2 ∨ width.value = 4 ∨ width.value = 8
  packed : ∀ word (n : Nat), MachineWord.ofWidth? width.value = some word →
    n < 256 ^ width.value.toNat →
      word.pack n = digitsOf n width.value ∧
        word.pack n = .ok (BigEndian.encode width.value.toNat n)
  unpacked : ∀ word (data : List UInt8), MachineWord.ofWidth? width.value = some word →
    width.value ≤ data.length → word.unpack data = .ok (ofDigits data width.value)

section

variable (hwidth : 0 ≤ width.value) (hlimit : width.value < widthLimit)
include hwidth hlimit

/-- The bytes of an integer are as many as the width says, and denote it. -/
theorem encode_ok_iff_value (hv : integer? v = some n) :
    encode v width = .ok bs ↔
      bs.length = width.value.toNat ∧ (BigEndian.value bs : Int) = n := by
  rw [encode_eq_bytesOf hv, ← BigEndian.decode_eq_value]
  constructor
  · intro h
    rcases of_bytesOf_ok h with ⟨hlength, hn⟩
    exact ⟨by omega, hn⟩
  · rintro ⟨hlength, rfl⟩
    exact bytesOf_decode (by omega) (by omega)

/-- An integer in range has bytes. -/
theorem exists_encode_of_inside (hv : integer? v = some n) (hlow : 0 ≤ n)
    (hhigh : n < 256 ^ width.value.toNat) : ∃ bs, encode v width = .ok bs := by
  have hn : n.toNat < 256 ^ width.value.toNat := by
    rw [← Int.ofNat_lt, Int.toNat_of_nonneg hlow]
    exact_mod_cast hhigh
  rw [encode_eq_bytesOf hv]
  exact ⟨_, bytesOf_ok_iff.2 ⟨n.toNat, by omega, ⟨hwidth, hlimit, hn⟩, rfl⟩⟩

/-- An integer that is negative or has too many digits is refused. -/
theorem bytesOf_of_outside (hn : ¬ (0 ≤ n ∧ n < 256 ^ width.value.toNat)) :
    bytesOf n width = .error (.outOfRange n (some width)) := by
  rcases Int.lt_or_le n 0 with hnegative | hlow
  · exact bytesOf_of_negative hnegative
  rcases Int.eq_ofNat_of_zero_le hlow with ⟨m, rfl⟩
  refine bytesOf_of_large hwidth hlimit (Nat.not_lt.1 fun hm => hn ⟨hlow, ?_⟩)
  exact_mod_cast hm

theorem ordersDigits : OrdersDigits width := by
  have hspelt : width.spellable = true := by
    unfold widthLimit at hlimit
    exact spellable_of_lt (by omega)
  -- what was written is known by its length and the number that it denotes
  have hvalue : ∀ {v n bs}, integer? v = some n → encode v width = .ok bs →
      bs.length = width.value.toNat ∧ (BigEndian.decode bs : Int) = n := by
    intro v n bs hv h
    rw [BigEndian.decode_eq_value]
    exact (encode_ok_iff_value hwidth hlimit hv).1 h
  constructor
  case written_iff =>
    intro v n hv
    constructor
    · rintro ⟨bs, h⟩
      rcases hvalue hv h with ⟨hlength, rfl⟩
      have hlt := BigEndian.decode_lt bs
      rw [hlength] at hlt
      exact ⟨Int.natCast_nonneg _, by exact_mod_cast hlt⟩
    · rintro ⟨hlow, hhigh⟩
      exact exists_encode_of_inside hwidth hlimit hv hlow hhigh
  case written_as => exact fun v n bs hv => encode_ok_iff_value hwidth hlimit hv
  case refused =>
    intro v n hv hn
    rw [encode_eq_bytesOf hv]
    exact ⟨bytesOf_of_outside hwidth hlimit hn, fun hspelt' => kind_outOfRange hspelt' hspelt⟩
  case read_back =>
    intro v n bs hv h form later
    rcases hvalue hv h with ⟨hlength, hn⟩
    exact ⟨_, decode_append form (by omega) later, hn⟩
  case rewritten =>
    intro form data hdata
    have hlength : (data.take width.value.toNat).length = width.value.toNat := by
      rw [List.length_take]
      omega
    have hwhole : ((data.take width.value.toNat).length : Int) = width.value := by omega
    have hread := decode_append form hwhole (data.drop width.value.toNat)
    rw [List.take_append_drop] at hread
    refine ⟨_, hread, (encode_ok_iff_value hwidth hlimit rfl).2 ⟨hlength, ?_⟩⟩
    rw [BigEndian.decode_eq_value]
  case ordered =>
    intro v v' n n' bs bs' hv hv' h h'
    rcases hvalue hv h with ⟨hlength, rfl⟩
    rcases hvalue hv' h' with ⟨hlength', rfl⟩
    rw [Int.ofNat_lt, BigEndian.decode_lt_decode_iff (hlength.trans hlength'.symm)]

end

theorem wordsHoldDigits (width : Numeral) : WordsHoldDigits width := by
  constructor
  case isWord_iff =>
    constructor
    · rintro ⟨word, hword⟩
      rw [MachineWord.ofWidth?_eq_some_iff] at hword
      cases word <;> simp [hword, MachineWord.width]
    · rintro (h | h | h | h) <;> exact ⟨_, by rw [h]; rfl⟩
  case packed =>
    intro word n hword hn
    have hwidth := MachineWord.ofWidth?_eq_some_iff.1 hword
    have hsize : width.value.toNat = word.width := by omega
    refine ⟨pack_eq_digitsOf hword hn, ?_⟩
    rw [hsize] at hn ⊢
    exact MachineWord.pack_eq hn
  case unpacked => exact fun word data hword h => unpack_eq_ofDigits hword h

/-- Negative integers are out of range at every width.  At widths below the limit, writing and
reading unsigned integers are inverse to each other and keep the order; from the limit on, no other
integer can be written.  Machine words make no difference. -/
theorem ordered_bijection (hwidth : 0 ≤ width.value) :
    (∀ v n, integer? v = some n → n < 0 →
      encode v width = .error (.outOfRange n (some width)) ∧
        (spellable n = true → width.spellable = true →
          (Error.outOfRange n (some width)).kind = .integerRange)) ∧
    (width.value < widthLimit → OrdersDigits width) ∧
    (widthLimit ≤ width.value → ∀ v n, integer? v = some n → 0 ≤ n →
      encode v width = .error (.misuse .tooLarge) ∧ (Error.misuse .tooLarge).kind = .overflow) ∧
    WordsHoldDigits width := by
  refine ⟨fun v n hv hn => ?_, ordersDigits hwidth, fun hwide v n hv hn => ?_,
    wordsHoldDigits width⟩
  · rw [encode_eq_bytesOf hv]
    exact ⟨bytesOf_of_negative hn, kind_outOfRange⟩
  · rw [encode_eq_bytesOf hv]
    exact ⟨bytesOf_of_wide hn hwide, rfl⟩

/-- Three bytes are no machine word, and two are one.  Both hold what is below their power of 256,
in order. -/
theorem ordered_bijection_triple :
    (0 ≤ (3 : Numeral).value ∧ (3 : Numeral).value < widthLimit) ∧
      (0 ≤ (2 : Numeral).value ∧ (2 : Numeral).value < widthLimit) ∧
      encode (.int (-1)) 3 = .error (.outOfRange (-1) (some 3)) ∧
      encode (.int 66051) 3 = .ok [1, 2, 3] ∧ encode (.chain .base) 3 = .ok [0, 0, 30] ∧
      encode (.int 16777216) 3 = .error (.outOfRange 16777216 (some 3)) ∧
      (∃ m : Nat, decode (.bytes .view ([1, 2, 3] ++ [9])) 3 = .ok m ∧ (m : Int) = 66051) ∧
      (∃ m : Nat, decode (.bytes .growing [255, 0, 7, 7]) 3 = .ok m ∧
        encode (.int m) 3 = .ok [255, 0, 7]) ∧
      ([0, 0, 30] : List UInt8) < [1, 2, 3] ∧
      encode (.int 513) 2 = .ok [2, 1] ∧
      encode (.int 65536) 2 = .error (.outOfRange 65536 (some 2)) ∧
      (MachineWord.half.pack 513 = digitsOf 513 2 ∧ MachineWord.half.pack 513 = .ok [2, 1]) ∧
      MachineWord.half.unpack [2, 1, 9] = .ok (ofDigits [2, 1, 9] 2) := by
  have hwidth : 0 ≤ (3 : Numeral).value := by decide
  have hlimit : (3 : Numeral).value < widthLimit := by decide
  have hwordWidth : 0 ≤ (2 : Numeral).value := by decide
  have hwordLimit : (2 : Numeral).value < widthLimit := by decide
  rcases ordered_bijection hwidth with ⟨hnegative, hthree, _, _⟩
  rcases ordered_bijection hwordWidth with ⟨_, htwo, _, hwords⟩
  have orders := hthree hlimit
  have hint : encode (.int 66051) 3 = .ok [1, 2, 3] := (orders.written_as _ _ _ rfl).2 ⟨rfl, rfl⟩
  have hchain : encode (.chain .base) 3 = .ok [0, 0, 30] :=
    (orders.written_as _ _ _ rfl).2 ⟨rfl, rfl⟩
  refine ⟨⟨hwidth, hlimit⟩, ⟨hwordWidth, hwordLimit⟩, (hnegative _ _ rfl (by decide)).1, hint,
    hchain, (orders.refused _ _ rfl (by decide)).1, ?_, ?_, ?_, ?_, ?_, ?_, ?_⟩
  · exact orders.read_back _ _ _ rfl hint .view [9]
  · exact orders.rewritten .growing [255, 0, 7, 7] (by decide)
  · exact (orders.ordered _ _ _ _ _ _ rfl rfl hchain hint).1 (by decide)
  · exact ((htwo hwordLimit).written_as _ _ _ rfl).2 ⟨rfl, rfl⟩
  · exact ((htwo hwordLimit).refused _ _ rfl (by decide)).1
  · exact hwords.packed .half 513 rfl (by decide)
  · exact hwords.unpacked .half [2, 1, 9] rfl (by decide)

/-! ## A width from the limit on -/

/-- A width of `2 ^ 70` bytes. -/
def wideWidth : Numeral := .plain 1180591620717411303424

/-- One is in range at every width, and still cannot be written with so many bytes. -/
theorem encode_wideWidth :
    0 ≤ wideWidth.value ∧ (1 : Int) < 256 ^ wideWidth.value.toNat ∧
      encode (.int 1) wideWidth = .error (.misuse .tooLarge) ∧
      (Error.misuse .tooLarge).kind = .overflow := by
  -- shown of all widths, so that the power is never evaluated
  have hrange : ∀ w : Nat, w ≠ 0 → (1 : Int) < 256 ^ w := fun w hw => one_lt_pow₀ (by decide) hw
  refine ⟨by decide, hrange _ (by decide), ?_, rfl⟩
  rw [encode_eq_bytesOf rfl]
  exact bytesOf_of_wide (by decide) (by decide)

end Uint

end WireLayout
