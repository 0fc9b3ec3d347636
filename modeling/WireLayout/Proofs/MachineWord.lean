import WireLayout.MachineWord
import WireLayout.Proofs.BigEndian

/-!
# MachineWord — the bytes of a word are the digits of its integer

What goes through the register of a machine word, byte by byte, is the same as what is divided and
multiplied digit by digit.

* `MachineWord.ofWidth?_eq_some_iff` — the words by their widths;
* `MachineWord.storeBefore_eq` — storing a register writes the last digits of its number;
* `MachineWord.toNat_load` — loading digits gives the number that they denote;
* `MachineWord.pack_eq`, `MachineWord.unpack_eq` — packing and unpacking where nothing is refused.
-/

namespace WireLayout

namespace MachineWord

variable {word : MachineWord}

/-- No word is longer than the register. -/
theorem width_le (word : MachineWord) : word.width ≤ 8 := by
  cases word <;> decide

/-- Each word stands in the table under its own width, and nothing else does. -/
theorem ofWidth?_eq_some_iff {n : Int} : ofWidth? n = some word ↔ n = word.width := by
  constructor
  · intro h
    have hentry : (n, word) ∈ table := by
      rcases List.lookup_eq_some_iff.1 h with ⟨before, after, htable, _⟩
      rw [htable]
      simp
    simp only [table, List.mem_cons, Prod.mk.injEq, List.not_mem_nil, or_false] at hentry
    rcases hentry with ⟨rfl, rfl⟩ | ⟨rfl, rfl⟩ | ⟨rfl, rfl⟩ | ⟨rfl, rfl⟩ <;> rfl
  · rintro rfl
    cases word <;> rfl

/-! ## Registers -/

/-- Shifting out a byte divides. -/
theorem toNat_shiftRight (register : UInt64) : (register >>> 8).toNat = register.toNat / 256 := by
  rw [UInt64.toNat_shiftRight, Nat.shiftRight_eq_div_pow]
  rfl

/-- The mask leaves the remainder. -/
theorem toUInt8_and (register : UInt64) :
    (register &&& 0xff).toUInt8 = UInt8.ofNat (register.toNat % 256) := by
  have hmask : (register &&& 0xff).toNat = register.toNat % 256 :=
    Nat.and_two_pow_sub_one_eq_mod register.toNat 8
  apply UInt8.toNat_inj.1
  rw [UInt64.toNat_toUInt8, hmask, UInt8.toNat_ofNat']

/-- Storing a register writes the last digits of its number. -/
theorem storeBefore_eq (width : Nat) (register : UInt64) (bytes : List UInt8) :
    storeBefore width register bytes = BigEndian.encodeBefore width register.toNat bytes := by
  induction width generalizing register bytes with
  | zero => rfl
  | succ width ih => rw [storeBefore, BigEndian.encodeBefore, ih, toNat_shiftRight, toUInt8_and]

/-- Shifting in a byte multiplies, as long as there is room for it. -/
theorem toNat_shiftLeft_or {register : UInt64} (b : UInt8) (h : register.toNat < 2 ^ 56) :
    (register <<< 8 ||| b.toUInt64).toNat = 256 * register.toNat + b.toNat := by
  -- nothing is shifted out, and the byte that is shifted in meets zero bits only
  have hshift : (register <<< 8).toNat = 2 ^ 8 * register.toNat := by
    rw [UInt64.toNat_shiftLeft, Nat.shiftLeft_eq]
    change register.toNat * 2 ^ 8 % 2 ^ 64 = _
    omega
  rw [UInt64.toNat_or, hshift, UInt8.toNat_toUInt64, ← Nat.two_pow_add_eq_or_of_lt b.toNat_lt]

theorem load_append_singleton (bytes : List UInt8) (b : UInt8) :
    load (bytes ++ [b]) = load bytes <<< 8 ||| b.toUInt64 := by
  simp [load]

/-- Loading digits gives the number that they denote, as long as the register holds them all. -/
theorem toNat_load {bytes : List UInt8} (h : bytes.length ≤ 8) :
    (load bytes).toNat = BigEndian.decode bytes := by
  -- from the last byte to the first, as the register is filled
  induction bytes using List.reverseRecOn with
  | nil => rfl
  | append_singleton bytes b ih =>
    rw [List.length_append, List.length_singleton] at h
    have hlength : bytes.length ≤ 7 := by omega
    have hloaded := ih (by omega)
    have hroom : (load bytes).toNat < 2 ^ 56 :=
      calc (load bytes).toNat
          = BigEndian.decode bytes := hloaded
        _ < 256 ^ bytes.length := BigEndian.decode_lt bytes
        _ ≤ 256 ^ 7 := Nat.pow_le_pow_right (by decide) hlength
    rw [load_append_singleton, toNat_shiftLeft_or b hroom, BigEndian.decode_append_singleton,
      hloaded]

/-! ## Words -/

/-- A number with no more digits than the word has bytes is packed as its digits. -/
theorem pack_eq {n : Nat} (h : n < 256 ^ word.width) :
    word.pack n = .ok (BigEndian.encode word.width n) := by
  have hfits : (n : Int).toNat < 1 <<< (8 * word.width) := by
    rw [Int.toNat_natCast, Nat.one_shiftLeft, Nat.pow_mul]
    exact h
  have hregister : n < UInt64.size :=
    calc n
        < 256 ^ word.width := h
      _ ≤ 256 ^ 8 := Nat.pow_le_pow_right (by decide) word.width_le
  rw [pack, if_pos ⟨Int.natCast_nonneg n, hfits⟩, Int.toNat_natCast, storeBefore_eq,
    UInt64.toNat_ofNat_of_lt' hregister, BigEndian.encode]

/-- A block that is long enough is unpacked as the number that its first digits denote. -/
theorem unpack_eq {data : List UInt8} (h : word.width ≤ data.length) :
    word.unpack data = .ok (BigEndian.decode (data.take word.width)) := by
  have hlength : (data.take word.width).length ≤ 8 := by
    rw [List.length_take]
    have hwidth := word.width_le
    omega
  rw [unpack, if_neg (Nat.not_lt.2 h), toNat_load hlength]

end MachineWord

end WireLayout
