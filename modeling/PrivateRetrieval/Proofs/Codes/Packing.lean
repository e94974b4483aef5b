/-
# Bits in bytes

Packing bits into bytes loses nothing and adds only zeros at the end, fewer than eight of them.

A bitmap is read and written bit by bit. What a bitmap holds is which of its bits are set, and
two bitmaps of one size that hold the same are equal, so a bitmap that was written bit by bit
can be compared to one that was packed from a list.
-/

import Mathlib
import PrivateRetrieval.Bits.Packed

namespace PrivateRetrieval.Bits

theorem value_digits (width number : Nat) : value (digits width number) = number % 2 ^ width := by
  induction width generalizing number with
  | zero => simp [digits, value, Nat.mod_one]
  | succ width ih =>
      have parity : (number % 2 == 1).toNat = number % 2 := by
        rcases Nat.mod_two_eq_zero_or_one number with h | h <;> simp [h]
      rw [digits, value, ih, parity, Nat.pow_succ, Nat.mul_comm (2 ^ width) 2, Nat.mod_mul]

/-- Only the lowest digits count. -/
theorem digits_mod (width number : Nat) :
    digits width (number % 2 ^ width) = digits width number := by
  have lowest := digits_value (digits width number)
  rwa [value_digits, length_digits] at lowest

theorem value_append (bits more : List Bool) :
    value (bits ++ more) = value bits + 2 ^ bits.length * value more := by
  induction bits with
  | nil => rw [List.nil_append, value, List.length_nil, Nat.pow_zero, Nat.one_mul, Nat.zero_add]
  | cons bit bits ih =>
      rw [List.cons_append, value, value, ih, List.length_cons, Nat.pow_succ]
      ring

theorem value_lt (bits : List Bool) : value bits < 2 ^ bits.length := by
  induction bits with
  | nil => simp [value]
  | cons bit rest ih =>
      have : bit.toNat ≤ 1 := by cases bit <;> simp
      simp only [value, List.length_cons, Nat.pow_succ]
      omega

/-- The digits of a value are its bits, filled up with zeros. -/
theorem digits_value_of_le {bits : List Bool} {width : Nat} (short : bits.length ≤ width) :
    digits width (value bits) = bits ++ List.replicate (width - bits.length) false := by
  induction bits generalizing width with
  | nil =>
      rw [List.nil_append, List.length_nil, Nat.sub_zero, value]
      clear short
      induction width with
      | zero => rfl
      | succ width ih =>
          rw [digits, Nat.zero_div, ih, List.replicate_succ]
          rfl
  | cons bit rest ih =>
      cases width with
      | zero => cases short
      | succ width =>
          have shorter : rest.length ≤ width := Nat.le_of_succ_le_succ short
          have parity : (bit.toNat + 2 * value rest) % 2 = bit.toNat := by
            cases bit <;> simp [Nat.add_mul_mod_self_left]
          have half : (bit.toNat + 2 * value rest) / 2 = value rest := by
            have := Bool.toNat_le bit
            omega
          have first : (bit.toNat == 1) = bit := by cases bit <;> rfl
          rw [value, digits, parity, half, first, ih shorter, List.cons_append, List.length_cons,
            Nat.add_sub_add_right]

theorem take_digits {count width : Nat} (short : count ≤ width) (number : Nat) :
    (digits width number).take count = digits count number := by
  induction width generalizing count number with
  | zero =>
      obtain rfl := Nat.le_zero.mp short
      rfl
  | succ width ih =>
      cases count with
      | zero => rfl
      | succ count => rw [digits, List.take_succ_cons, ih (Nat.le_of_succ_le_succ short), digits]

theorem getElem?_digits {width number digit : Nat} (inside : digit < width) :
    (digits width number)[digit]? = some (number.testBit digit) := by
  induction width generalizing number digit with
  | zero => cases inside
  | succ width ih =>
      cases digit with
      | zero =>
          rw [digits, List.getElem?_cons_zero, Nat.testBit_zero]
          rfl
      | succ digit =>
          rw [digits, List.getElem?_cons_succ, ih (Nat.lt_of_succ_lt_succ inside),
            Nat.testBit_succ]

theorem digits_eq_map_range (width number : Nat) :
    digits width number = (List.range width).map number.testBit := by
  refine List.ext_getElem? fun index => ?_
  rcases Nat.lt_or_ge index width with inside | beyond
  · rw [getElem?_digits inside, List.getElem?_map, List.getElem?_range inside, Option.map_some]
  · rw [List.getElem?_eq_none (by rwa [length_digits]),
      List.getElem?_eq_none (by rwa [List.length_map, List.length_range])]

theorem unpack_cons (byte : UInt8) (bytes : List UInt8) :
    unpack (byte :: bytes) = digits 8 byte.toNat ++ unpack bytes := List.flatMap_cons

theorem unpack_append (bytes more : List UInt8) :
    unpack (bytes ++ more) = unpack bytes ++ unpack more := List.flatMap_append

@[simp]
theorem length_unpack (bytes : List UInt8) : (unpack bytes).length = 8 * bytes.length := by
  induction bytes with
  | nil => rfl
  | cons byte rest ih =>
      rw [unpack_cons, List.length_append, length_digits, ih, List.length_cons]
      omega

@[simp]
theorem length_packInto (count : Nat) (bits : List Bool) :
    (packInto count bits).length = count := by
  induction count generalizing bits with
  | zero => rfl
  | succ count ih => rw [packInto, List.length_cons, ih]

@[simp]
theorem length_pack (bits : List Bool) : (pack bits).length = byteCount bits.length :=
  length_packInto _ _

theorem unpack_packInto {count : Nat} {bits : List Bool} (room : bits.length ≤ 8 * count) :
    unpack (packInto count bits) = bits ++ List.replicate (8 * count - bits.length) false := by
  induction count generalizing bits with
  | zero =>
      rw [Nat.mul_zero, Nat.le_zero, List.length_eq_zero_iff] at room
      rw [room]
      rfl
  | succ count ih =>
      have short : (bits.take 8).length ≤ 8 := List.length_take_le 8 bits
      have small : value (bits.take 8) < 256 :=
        Nat.lt_of_lt_of_le (value_lt _) (Nat.pow_le_pow_right (by decide) short)
      have byte : (UInt8.ofNat (value (bits.take 8))).toNat = value (bits.take 8) :=
        UInt8.toNat_ofNat_of_lt' small
      have roomAfter : (bits.drop 8).length ≤ 8 * count := by
        rw [List.length_drop]
        omega
      rw [packInto, unpack_cons, byte, digits_value_of_le short, ih roomAfter]
      by_cases long : 8 ≤ bits.length
      · -- A full byte: the filling zeros all stand in the bytes after it.
        have full : (bits.take 8).length = 8 := List.length_take_of_le long
        rw [full, Nat.sub_self, List.replicate_zero, List.append_nil, ← List.append_assoc,
          List.take_append_drop, List.length_drop]
        congr 2
        omega
      · -- The last bits: the filling zeros begin in this byte.
        have all : bits.take 8 = bits := List.take_of_length_le (by omega)
        have none : bits.drop 8 = [] := List.drop_of_length_le (by omega)
        rw [all, none, List.nil_append, List.length_nil, List.append_assoc,
          List.replicate_append_replicate]
        congr 2
        omega

theorem packInto_unpack (bytes : List UInt8) : packInto bytes.length (unpack bytes) = bytes := by
  induction bytes with
  | nil => rfl
  | cons byte bytes ih =>
      have eight : (digits 8 byte.toNat).length = 8 := length_digits 8 byte.toNat
      have first : (digits 8 byte.toNat ++ unpack bytes).take 8 = digits 8 byte.toNat :=
        List.take_left' eight
      have others : (digits 8 byte.toNat ++ unpack bytes).drop 8 = unpack bytes :=
        List.drop_left' eight
      rw [List.length_cons, packInto, unpack_cons, first, others, value_digits, ih,
        Nat.mod_eq_of_lt byte.toNat_lt, UInt8.ofNat_toNat]

/-- Bytes are known by their bits. -/
theorem unpack_injective : Function.Injective unpack := by
  intro bytes more same
  have length : bytes.length = more.length := by
    have lengths := congrArg List.length same
    rw [length_unpack, length_unpack] at lengths
    omega
  rw [← packInto_unpack bytes, same, length, packInto_unpack]

theorem byteCount_spec (bits : Nat) : bits ≤ 8 * byteCount bits := by
  rw [byteCount]
  omega

/-- Packed bits read back, and fewer than eight zeros after them. -/
theorem unpack_pack (bits : List Bool) :
    ∃ filling, filling.length < 8 ∧ unpack (pack bits) = bits ++ filling := by
  refine ⟨_, ?_, unpack_packInto ?_⟩
  · rw [List.length_replicate, byteCount]
    omega
  · exact byteCount_spec bits.length

section Bitmaps

/-- Whether the bit of a bitmap at an index is set. No bit beyond the last byte is. -/
def isSet (bitmap : Array UInt8) (index : Nat) : Bool :=
  (bitmap.getD (index / 8) 0).toNat.testBit (index % 8)

variable {bitmap : Array UInt8} {index : Nat}

theorem bitAt_eq_isSet (inside : index < 8 * bitmap.size) :
    bitAt bitmap index = .ok (isSet bitmap index) := by
  have byte : index / 8 < bitmap.size := Nat.div_lt_of_lt_mul inside
  rw [bitAt, dif_pos byte, isSet, Array.getD, dif_pos byte]
  rfl

theorem isSet_replicate (count index : Nat) : isSet (Array.replicate count 0) index = false := by
  have byte : (Array.replicate count (0 : UInt8)).getD (index / 8) 0 = 0 := by
    rw [Array.getD_eq_getD_getElem?, Array.getElem?_replicate]
    split <;> rfl
  rw [isSet, byte]
  exact Nat.zero_testBit _

/-- A bit within a bitmap can be set, and no other bit changes. -/
theorem setBit_spec (inside : index < 8 * bitmap.size) :
    ∃ after, setBit bitmap index = .ok after ∧ after.size = bitmap.size ∧
      ∀ other, isSet after other = true ↔ isSet bitmap other = true ∨ other = index := by
  have byte : index / 8 < bitmap.size := Nat.div_lt_of_lt_mul inside
  rw [setBit, dif_pos byte]
  refine ⟨_, rfl, Array.size_set .., fun other => ?_⟩
  rw [isSet, isSet, Array.getD_eq_getD_getElem?, Array.getD_eq_getD_getElem?, Array.getElem?_set]
  by_cases same : index / 8 = other / 8
  · -- The byte that was written: its other bits differ from the index in the last digit.
    have mask : (UInt8.ofNat (1 <<< (index % 8))).toNat = 2 ^ (index % 8) := by
      rw [Nat.one_shiftLeft]
      exact UInt8.toNat_ofNat_of_lt'
        (Nat.pow_lt_pow_right Nat.one_lt_two (Nat.mod_lt index (by decide : 0 < 8)))
    have isIndex : other = index ↔ index % 8 = other % 8 := by omega
    rw [if_pos same, ← same, Array.getElem?_eq_getElem byte, Option.getD_some, Option.getD_some,
      UInt8.toNat_or, mask, Nat.testBit_or, Nat.testBit_two_pow, Bool.or_eq_true,
      decide_eq_true_iff, isIndex]
  · have differ : other ≠ index := fun equal => same (congrArg (· / 8) equal.symm)
    rw [if_neg same, or_iff_left differ]

/-- Bitmaps of one size with the same bits set are equal. -/
theorem bitmap_ext {other : Array UInt8} (sizes : bitmap.size = other.size)
    (same : ∀ index, isSet bitmap index = isSet other index) : bitmap = other := by
  refine Array.ext sizes fun place inside insideOther => UInt8.toNat_inj.mp ?_
  apply Nat.eq_of_testBit_eq
  intro digit
  by_cases low : digit < 8
  · have bit := same (8 * place + digit)
    have isPlace : (8 * place + digit) / 8 = place := by omega
    have isDigit : (8 * place + digit) % 8 = digit := by omega
    rwa [isSet, isSet, isPlace, isDigit, Array.getD, dif_pos inside, Array.getD,
      dif_pos insideOther] at bit
  · have wide : 2 ^ 8 ≤ 2 ^ digit := Nat.pow_le_pow_right Nat.two_pos (Nat.not_lt.mp low)
    rw [Nat.testBit_lt_two_pow (Nat.lt_of_lt_of_le (UInt8.toNat_lt _) wide),
      Nat.testBit_lt_two_pow (Nat.lt_of_lt_of_le (UInt8.toNat_lt _) wide)]

theorem getElem?_unpack (bytes : List UInt8) {index : Nat} (inside : index < 8 * bytes.length) :
    (unpack bytes)[index]? = some (isSet bytes.toArray index) := by
  induction bytes generalizing index with
  | nil => cases inside
  | cons byte rest ih =>
      rw [unpack_cons]
      by_cases low : index < 8
      · have first : index / 8 = 0 := Nat.div_eq_of_lt low
        rw [List.getElem?_append_left (by rwa [length_digits]), getElem?_digits low, isSet, first,
          Nat.mod_eq_of_lt low]
        rfl
      · obtain ⟨before, rfl⟩ := Nat.exists_eq_add_of_le' (Nat.not_lt.mp low)
        rw [List.length_cons] at inside
        rw [List.getElem?_append_right (by rw [length_digits]; omega), length_digits,
          Nat.add_sub_cancel, ih (by omega), isSet, isSet, Nat.add_div_right before (by decide),
          Nat.add_mod_right, Array.getD_eq_getD_getElem?, Array.getD_eq_getD_getElem?,
          List.getElem?_toArray, List.getElem?_toArray, List.getElem?_cons_succ]

theorem isSet_of_le {bytes : List UInt8} {index : Nat} (beyond : 8 * bytes.length ≤ index) :
    isSet bytes.toArray index = false := by
  have absent : bytes[index / 8]? = none := List.getElem?_eq_none (by omega)
  rw [isSet, Array.getD_eq_getD_getElem?, List.getElem?_toArray, absent]
  exact Nat.zero_testBit _

/-- The bits of a bitmap that was packed are the packed ones, and no bit after them is set. -/
theorem isSet_pack (bits : List Bool) (index : Nat) :
    isSet (pack bits).toArray index = bits.getD index false := by
  have room := byteCount_spec bits.length
  rcases Nat.lt_or_ge index (8 * (pack bits).length) with inside | beyond
  · refine Option.some.inj ((getElem?_unpack _ inside).symm.trans ?_)
    rw [length_pack] at inside
    rw [pack, unpack_packInto room, List.getD_eq_getElem?_getD]
    rcases Nat.lt_or_ge index bits.length with held | filled
    · rw [List.getElem?_append_left held, List.getElem?_eq_getElem held, Option.getD_some]
    · rw [List.getElem?_append_right filled, List.getElem?_eq_none filled,
        List.getElem?_replicate_of_lt (by omega), Option.getD_none]
  · have absent : bits[index]? = none := by
      rw [length_pack] at beyond
      exact List.getElem?_eq_none (by omega)
    rw [isSet_of_le beyond, List.getD_eq_getElem?_getD, absent, Option.getD_none]

end Bitmaps

end PrivateRetrieval.Bits
