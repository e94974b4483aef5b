/-
# The cipher on numbers

A word of fixed width is slow to compute with in a proof, and a number is not. Here the columns of
the cipher are numbers, its substitution is listed, and what a byte contributes to a column is
looked up in one large number for each row. Nothing else is different: the two forms of the cipher
agree on every key and every label, so that what the cipher does to given labels can be computed.

The listed substitution is the only thing that is compared byte by byte.
-/

import Mathlib
import PrivateRetrieval.Label.Cipher

namespace PrivateRetrieval

/-! ## Entries of a number -/

/-- Entries of so many bits in one number, the first one lowest. -/
def packEntries (width : Nat) : List Nat → Nat
  | [] => 0
  | entry :: rest => entry + packEntries width rest <<< width

/-- The entry in a place. -/
def entryAt (width packed place : Nat) : Nat := packed >>> (width * place) % 2 ^ width

theorem entryAt_packEntries {width : Nat} {entries : List Nat}
    (small : ∀ entry ∈ entries, entry < 2 ^ width) {place : Nat} (inside : place < entries.length) :
    entryAt width (packEntries width entries) place = entries[place] := by
  induction entries generalizing place with
  | nil => cases inside
  | cons entry rest ih =>
      obtain ⟨smallFirst, smallRest⟩ := List.forall_mem_cons.mp small
      rw [packEntries, entryAt]
      cases place with
      | zero =>
          rw [Nat.mul_zero, Nat.shiftRight_zero, Nat.shiftLeft_eq, Nat.add_mul_mod_self_right,
            Nat.mod_eq_of_lt smallFirst, List.getElem_cons_zero]
      | succ place =>
          have behind : (entry + packEntries width rest <<< width) >>> width =
              packEntries width rest := by
            rw [Nat.shiftRight_eq_div_pow, Nat.shiftLeft_eq,
              Nat.add_mul_div_right _ _ (Nat.two_pow_pos width), Nat.div_eq_of_lt smallFirst,
              Nat.zero_add]
          rw [Nat.mul_succ, Nat.add_comm (width * place), Nat.shiftRight_add, behind,
            List.getElem_cons_succ]
          exact ih smallRest _

/-- What is checked for all bytes holds of each of them. -/
theorem forall_byte {property : UInt8 → Prop}
    (checked : ∀ byte : Fin 256, property (UInt8.ofNat byte)) (byte : UInt8) : property byte := by
  have holds := checked ⟨byte.toNat, byte.toNat_lt⟩
  rwa [UInt8.ofNat_toNat] at holds

/-- A table of all bytes gives for a byte what it was computed from. -/
theorem Vector.get_ofBytes {Entry : Type} (table : Vector Entry 256) (entry : UInt8 → Entry)
    (computed : table.toArray = ((List.range 256).map fun byte => entry (UInt8.ofNat byte)).toArray)
    (byte : UInt8) : table.get byte.toFin = entry byte := by
  rw [Vector.get]
  simp only [computed]
  rw [List.getElem_toArray, List.getElem_map, List.getElem_range]
  exact congrArg entry UInt8.ofNat_toNat

/-- Four columns of the cipher's state, or of a round key, as numbers. -/
structure Columns where
  first : Nat
  second : Nat
  third : Nat
  fourth : Nat
  deriving Inhabited

namespace Columns

/-- The columns of a block. -/
def ofBlock (block : Block) : Columns :=
  ⟨block.first.toNat, block.second.toNat, block.third.toNat, block.fourth.toNat⟩

/-! ## Bytes -/

/-- The substitution of every byte. -/
def substitutions : List Nat :=
  [0x63, 0x7c, 0x77, 0x7b, 0xf2, 0x6b, 0x6f, 0xc5, 0x30, 0x01, 0x67, 0x2b, 0xfe, 0xd7, 0xab, 0x76,
    0xca, 0x82, 0xc9, 0x7d, 0xfa, 0x59, 0x47, 0xf0, 0xad, 0xd4, 0xa2, 0xaf, 0x9c, 0xa4, 0x72, 0xc0,
    0xb7, 0xfd, 0x93, 0x26, 0x36, 0x3f, 0xf7, 0xcc, 0x34, 0xa5, 0xe5, 0xf1, 0x71, 0xd8, 0x31, 0x15,
    0x04, 0xc7, 0x23, 0xc3, 0x18, 0x96, 0x05, 0x9a, 0x07, 0x12, 0x80, 0xe2, 0xeb, 0x27, 0xb2, 0x75,
    0x09, 0x83, 0x2c, 0x1a, 0x1b, 0x6e, 0x5a, 0xa0, 0x52, 0x3b, 0xd6, 0xb3, 0x29, 0xe3, 0x2f, 0x84,
    0x53, 0xd1, 0x00, 0xed, 0x20, 0xfc, 0xb1, 0x5b, 0x6a, 0xcb, 0xbe, 0x39, 0x4a, 0x4c, 0x58, 0xcf,
    0xd0, 0xef, 0xaa, 0xfb, 0x43, 0x4d, 0x33, 0x85, 0x45, 0xf9, 0x02, 0x7f, 0x50, 0x3c, 0x9f, 0xa8,
    0x51, 0xa3, 0x40, 0x8f, 0x92, 0x9d, 0x38, 0xf5, 0xbc, 0xb6, 0xda, 0x21, 0x10, 0xff, 0xf3, 0xd2,
    0xcd, 0x0c, 0x13, 0xec, 0x5f, 0x97, 0x44, 0x17, 0xc4, 0xa7, 0x7e, 0x3d, 0x64, 0x5d, 0x19, 0x73,
    0x60, 0x81, 0x4f, 0xdc, 0x22, 0x2a, 0x90, 0x88, 0x46, 0xee, 0xb8, 0x14, 0xde, 0x5e, 0x0b, 0xdb,
    0xe0, 0x32, 0x3a, 0x0a, 0x49, 0x06, 0x24, 0x5c, 0xc2, 0xd3, 0xac, 0x62, 0x91, 0x95, 0xe4, 0x79,
    0xe7, 0xc8, 0x37, 0x6d, 0x8d, 0xd5, 0x4e, 0xa9, 0x6c, 0x56, 0xf4, 0xea, 0x65, 0x7a, 0xae, 0x08,
    0xba, 0x78, 0x25, 0x2e, 0x1c, 0xa6, 0xb4, 0xc6, 0xe8, 0xdd, 0x74, 0x1f, 0x4b, 0xbd, 0x8b, 0x8a,
    0x70, 0x3e, 0xb5, 0x66, 0x48, 0x03, 0xf6, 0x0e, 0x61, 0x35, 0x57, 0xb9, 0x86, 0xc1, 0x1d, 0x9e,
    0xe1, 0xf8, 0x98, 0x11, 0x69, 0xd9, 0x8e, 0x94, 0x9b, 0x1e, 0x87, 0xe9, 0xce, 0x55, 0x28, 0xdf,
    0x8c, 0xa1, 0x89, 0x0d, 0xbf, 0xe6, 0x42, 0x68, 0x41, 0x99, 0x2d, 0x0f, 0xb0, 0x54, 0xbb, 0x16]

/-- Multiplication by `x`. -/
def double (byte : Nat) : Nat := if byte < 128 then 2 * byte else 2 * byte ^^^ 0x11b

/-- A column moved up, without the bits that leave it. -/
def movedUp (column places : Nat) : Nat := column <<< places % 2 ^ 32

/-- The column that a substituted byte contributes when it stands in the topmost row. -/
def contribution (image : Nat) : Nat :=
  double image ||| movedUp image 8 ||| movedUp image 16 ||| movedUp (double image ^^^ image) 24

/-- A column turned downwards by some rows. -/
def turned (column row : Nat) : Nat := movedUp column (8 * row) ||| column >>> (32 - 8 * row)

/-- The substitutions of all bytes in one number. -/
def substitutionTable : Nat := packEntries 8 substitutions

/-- What all bytes contribute in some row, in one number. -/
def mixingTable (row : Nat) : Nat :=
  packEntries 32 (substitutions.map fun image => turned (contribution image) row)

/-- The byte of a column in a row. -/
def byteAt (column row : Nat) : Nat := column >>> (8 * row) % 256

/-- The substitution of a byte, by table. -/
def substituted (byte : Nat) : Nat := entryAt 8 substitutionTable byte

/-- The contribution of a byte in a given row, by table. -/
def mixed (byte row : Nat) : Nat := entryAt 32 (mixingTable row) byte

theorem toNat_double (byte : UInt8) : (ByteField.double byte).toNat = double byte.toNat := by
  revert byte
  exact forall_byte (by decide +kernel)

/-- The substitutions that the arithmetic of bytes computes are those that are listed. -/
theorem substitutions_eq :
    (List.range 256).map (fun byte => (ByteField.substitute (UInt8.ofNat byte)).toNat) =
      substitutions := by
  decide +kernel

theorem length_substitutions : substitutions.length = 256 := by
  rw [← substitutions_eq, List.length_map, List.length_range]

theorem getElem_substitutions (byte : UInt8)
    (inside : byte.toNat < substitutions.length) :
    substitutions[byte.toNat] = (ByteField.substitute byte).toNat := by
  simp only [← substitutions_eq, List.getElem_map, List.getElem_range, UInt8.ofNat_toNat]

theorem toNat_substituted (byte : UInt8) :
    (Block.substituted byte).toNat = substituted byte.toNat := by
  have inside : byte.toNat < substitutions.length := by
    rw [length_substitutions]
    exact byte.toNat_lt
  rw [substituted, substitutionTable, entryAt_packEntries (by decide +kernel) inside,
    getElem_substitutions, Block.substituted, UInt8.toNat_toUInt32,
    Vector.get_ofBytes _ ByteField.substitute rfl]

theorem toNat_shiftLeft_of_lt (column : UInt32) {places : UInt32} (few : places.toNat < 32) :
    (column <<< places).toNat = movedUp column.toNat places.toNat := by
  rw [UInt32.toNat_shiftLeft, Nat.mod_eq_of_lt few, movedUp]

theorem toNat_mixedColumn (byte : UInt8) :
    (Block.mixedColumn byte).toNat = contribution (ByteField.substitute byte).toNat := by
  simp only [Block.mixedColumn, contribution, UInt32.toNat_or, UInt8.toNat_toUInt32,
    toNat_double, UInt8.toNat_xor, toNat_shiftLeft_of_lt _ (show (8 : UInt32).toNat < 32 by decide),
    toNat_shiftLeft_of_lt _ (show (16 : UInt32).toNat < 32 by decide),
    toNat_shiftLeft_of_lt _ (show (24 : UInt32).toNat < 32 by decide)]
  rfl

/-- The places by which a byte of a row is moved. -/
theorem toNat_eight_mul {row : UInt32} (inside : row.toNat < 4) :
    (8 * row).toNat = 8 * row.toNat := by
  simp only [UInt32.toNat_mul, UInt32.reduceToNat]
  omega

theorem toNat_byteAt (column : UInt32) {row : UInt32} (inside : row.toNat < 4) :
    (Block.byteAt column row).toNat = byteAt column.toNat row.toNat := by
  have places : 8 * row.toNat < 32 := by omega
  rw [Block.byteAt, UInt32.toNat_toUInt8, UInt32.toNat_shiftRight, toNat_eight_mul inside,
    Nat.mod_eq_of_lt places, byteAt]

theorem toNat_turned (column : UInt32) {row : UInt32} (inside : row.toNat < 4) :
    (if row = 0 then column else (column <<< (8 * row)) ||| (column >>> (32 - 8 * row))).toNat =
      turned column.toNat row.toNat := by
  have places := toNat_eight_mul inside
  have others : (32 - 8 * row).toNat = 32 - 8 * row.toNat := by
    rw [UInt32.toNat_sub_of_le, places]
    · rfl
    · simp only [UInt32.le_iff_toNat_le, places, UInt32.reduceToNat]
      omega
  split
  · rename_i topmost
    rw [topmost, turned, movedUp]
    show column.toNat = column.toNat % 2 ^ 32 ||| column.toNat >>> 32
    rw [Nat.mod_eq_of_lt column.toNat_lt, Nat.shiftRight_eq_div_pow,
      Nat.div_eq_of_lt column.toNat_lt, Nat.or_zero]
  · rename_i lower
    have positive : 0 < row.toNat := Nat.pos_of_ne_zero fun none => lower (UInt32.toNat_inj.mp none)
    rw [UInt32.toNat_or, toNat_shiftLeft_of_lt _ (by rw [places]; omega), places,
      UInt32.toNat_shiftRight, others, Nat.mod_eq_of_lt (by omega), turned]

theorem toNat_mixed (byte : UInt8) {row : UInt32} (inside : row.toNat < 4) :
    (Block.mixed byte row).toNat = mixed byte.toNat row.toNat := by
  have isByte : byte.toNat < substitutions.length := by
    rw [length_substitutions]
    exact byte.toNat_lt
  have small : ∀ entry ∈ substitutions.map fun image => turned (contribution image) row.toNat,
      entry < 2 ^ 32 := by
    intro entry member
    rw [← substitutions_eq, List.map_map] at member
    obtain ⟨other, -, rfl⟩ := List.mem_map.mp member
    rw [Function.comp_apply, ← toNat_mixedColumn, ← toNat_turned _ inside]
    exact UInt32.toNat_lt _
  rw [mixed, mixingTable, entryAt_packEntries small (by rwa [List.length_map]), List.getElem_map,
    getElem_substitutions, ← toNat_mixedColumn, ← toNat_turned _ inside, Block.mixed,
    Vector.get_ofBytes _ Block.mixedColumn rfl]

/-! ## Rounds -/

/-- One column of a full round. -/
def roundColumn (top second third bottom : Nat) : Nat :=
  mixed (byteAt top 0) 0 ^^^ mixed (byteAt second 1) 1 ^^^ mixed (byteAt third 2) 2
    ^^^ mixed (byteAt bottom 3) 3

/-- One column of four substituted bytes. -/
def substitutedColumn (top second third bottom : Nat) : Nat :=
  substituted top ||| movedUp (substituted second) 8 ||| movedUp (substituted third) 16
    ||| movedUp (substituted bottom) 24

/-- One column of the last round. -/
def lastColumn (top second third bottom : Nat) : Nat :=
  substitutedColumn (byteAt top 0) (byteAt second 1) (byteAt third 2) (byteAt bottom 3)

/-- Columns are combined bit by bit. -/
instance : XorOp Columns where
  xor left right :=
    ⟨left.first ^^^ right.first, left.second ^^^ right.second,
      left.third ^^^ right.third, left.fourth ^^^ right.fourth⟩

/-- A full round under a round key. -/
def round (state key : Columns) : Columns :=
  let ⟨a, b, c, d⟩ := state
  ⟨roundColumn a b c d, roundColumn b c d a, roundColumn c d a b, roundColumn d a b c⟩ ^^^ key

/-- The last round under its round key. -/
def lastRound (state key : Columns) : Columns :=
  let ⟨a, b, c, d⟩ := state
  ⟨lastColumn a b c d, lastColumn b c d a, lastColumn c d a b, lastColumn d a b c⟩ ^^^ key

/-- The round key that follows another one. -/
def nextKey (constant : Nat) (key : Columns) : Columns :=
  let column := key.fourth
  let first := key.first
    ^^^ substitutedColumn (byteAt column 1) (byteAt column 2) (byteAt column 3) (byteAt column 0)
    ^^^ constant
  let second := key.second ^^^ first
  let third := key.third ^^^ second
  ⟨first, second, third, key.fourth ^^^ third⟩

/-- The given number of round keys from a key on, the key itself included. -/
def keySchedule : Nat → Nat → Columns → List Columns
  | 0, _, _ => []
  | count + 1, constant, key => key :: keySchedule count (double constant) (nextKey constant key)

theorem toNat_roundColumn (top second third bottom : UInt32) :
    (Block.roundColumn top second third bottom).toNat =
      roundColumn top.toNat second.toNat third.toNat bottom.toNat := by
  simp [Block.roundColumn, roundColumn, toNat_mixed, toNat_byteAt]

theorem toNat_substitutedColumn (top second third bottom : UInt8) :
    (Block.substituted top ||| (Block.substituted second <<< 8)
      ||| (Block.substituted third <<< 16) ||| (Block.substituted bottom <<< 24)).toNat =
      substitutedColumn top.toNat second.toNat third.toNat bottom.toNat := by
  simp only [UInt32.toNat_or, toNat_substituted, substitutedColumn,
    toNat_shiftLeft_of_lt _ (show (8 : UInt32).toNat < 32 by decide),
    toNat_shiftLeft_of_lt _ (show (16 : UInt32).toNat < 32 by decide),
    toNat_shiftLeft_of_lt _ (show (24 : UInt32).toNat < 32 by decide)]
  rfl

theorem toNat_lastColumn (top second third bottom : UInt32) :
    (Block.lastColumn top second third bottom).toNat =
      lastColumn top.toNat second.toNat third.toNat bottom.toNat := by
  rw [Block.lastColumn, toNat_substitutedColumn, lastColumn]
  simp [toNat_byteAt]

theorem ofBlock_default : ofBlock default = default := rfl

theorem ofBlock_xor (left right : Block) :
    ofBlock (left ^^^ right) = ofBlock left ^^^ ofBlock right := by
  rfl

theorem ofBlock_round (state key : Block) :
    ofBlock (state.round key) = (ofBlock state).round (ofBlock key) := by
  simp only [round, Block.round, ofBlock, UInt32.toNat_xor, toNat_roundColumn]
  rfl

theorem ofBlock_lastRound (state key : Block) :
    ofBlock (state.lastRound key) = (ofBlock state).lastRound (ofBlock key) := by
  simp only [lastRound, Block.lastRound, ofBlock, UInt32.toNat_xor, toNat_lastColumn]
  rfl

theorem ofBlock_nextKey (constant : UInt8) (key : Block) :
    ofBlock (key.nextKey constant) = (ofBlock key).nextKey constant.toNat := by
  simp only [nextKey, Block.nextKey, ofBlock, UInt32.toNat_xor, toNat_substitutedColumn,
    UInt8.toNat_toUInt32, toNat_byteAt _ (show (0 : UInt32).toNat < 4 by decide),
    toNat_byteAt _ (show (1 : UInt32).toNat < 4 by decide),
    toNat_byteAt _ (show (2 : UInt32).toNat < 4 by decide),
    toNat_byteAt _ (show (3 : UInt32).toNat < 4 by decide)]
  rfl

theorem ofBlock_keySchedule (count : Nat) (constant : UInt8) (key : Block) :
    (Block.keySchedule count constant key).map ofBlock =
      keySchedule count constant.toNat (ofBlock key) := by
  induction count generalizing constant key with
  | zero => rfl
  | succ count ih =>
      rw [Block.keySchedule, List.map_cons, ih, ofBlock_nextKey, toNat_double, keySchedule]

/-- The columns of two words. -/
def ofWords (words : Nat × Nat) : Columns :=
  ⟨words.1 % 2 ^ 32, words.1 >>> 32, words.2 % 2 ^ 32, words.2 >>> 32⟩

/-- Columns read as two words. -/
def toWords (columns : Columns) : Nat × Nat :=
  (columns.first ||| columns.second <<< 32, columns.third ||| columns.fourth <<< 32)

end Columns

/-- The two words of a label, as numbers. -/
def Label.words (label : Label) : Nat × Nat := (label.low.toNat, label.high.toNat)

theorem Columns.ofBlock_ofLabel (label : Label) :
    ofBlock (Block.ofLabel label) = ofWords label.words := by
  have low := label.low.toNat_lt
  have high := label.high.toNat_lt
  have upper {word : UInt64} : (word >>> 32).toUInt32.toNat = word.toNat >>> 32 := by
    rw [UInt64.toNat_toUInt32, UInt64.toNat_shiftRight]
    have := word.toNat_lt
    show word.toNat >>> 32 % 2 ^ 32 = _
    rw [Nat.shiftRight_eq_div_pow]
    omega
  simp only [ofBlock, Block.ofLabel, ofWords, Label.words, UInt64.toNat_toUInt32, upper]

theorem Columns.words_toLabel (block : Block) : block.toLabel.words = (ofBlock block).toWords := by
  have moved {column : UInt32} : (column.toUInt64 <<< 32).toNat = column.toNat <<< 32 := by
    have := column.toNat_lt
    rw [UInt64.toNat_shiftLeft, UInt32.toNat_toUInt64]
    show column.toNat <<< 32 % 2 ^ 64 = _
    rw [Nat.shiftLeft_eq]
    omega
  simp only [Label.words, Block.toLabel, UInt64.toNat_or, UInt32.toNat_toUInt64, moved]
  rfl

/-- An expanded key, in columns. -/
structure ColumnCipher where
  whitening : Columns
  full : List Columns
  last : Columns

namespace ColumnCipher

/-- The columns of an expanded key. -/
def ofCipher (cipher : Cipher) : ColumnCipher :=
  ⟨.ofBlock cipher.whitening, cipher.full.map .ofBlock, .ofBlock cipher.last⟩

/-- The cipher under the key of two words. -/
def ofKey (words : Nat × Nat) : ColumnCipher :=
  let schedule := Columns.keySchedule 11 1 (.ofWords words)
  ⟨schedule.headD default, (schedule.drop 1).take 9, schedule.getLastD default⟩

/-- The encryption of two words. -/
def encrypt (cipher : ColumnCipher) (words : Nat × Nat) : Nat × Nat :=
  let state := cipher.full.foldl Columns.round (Columns.ofWords words ^^^ cipher.whitening)
  (Columns.lastRound state cipher.last).toWords

theorem ofCipher_ofKey (key : Label) : ofCipher (.ofKey key) = ofKey key.words := by
  have schedule := Columns.ofBlock_keySchedule 11 1 (Block.ofLabel key)
  rw [Columns.ofBlock_ofLabel, UInt8.toNat_one] at schedule
  simp only [ofCipher, Cipher.ofKey, ofKey, ← schedule, List.map_take, List.map_drop,
    List.headD_eq_head?_getD, List.head?_map, List.getLastD_eq_getLast?, List.getLast?_map,
    ← Columns.ofBlock_default, Option.getD_map]

/-- The two forms of the cipher agree. -/
theorem words_encrypt (cipher : Cipher) (label : Label) :
    (cipher.encrypt label).words = (ofCipher cipher).encrypt label.words := by
  have folded (keys : List Block) (state : Block) :
      Columns.ofBlock (keys.foldl Block.round state) =
        (keys.map .ofBlock).foldl Columns.round (.ofBlock state) := by
    rw [List.foldl_map]
    have step (state key : Block) := (Columns.ofBlock_round state key).symm
    exact (List.foldl_hom Columns.ofBlock step).symm
  rw [Cipher.encrypt, Columns.words_toLabel, Columns.ofBlock_lastRound, folded, Columns.ofBlock_xor,
    Columns.ofBlock_ofLabel]
  rfl

/-- The encryption of two words with the words added. -/
def compress (cipher : ColumnCipher) (words : Nat × Nat) : Nat × Nat :=
  let image := cipher.encrypt words
  (image.1 ^^^ words.1, image.2 ^^^ words.2)

theorem words_compress (cipher : Cipher) (label : Label) :
    (cipher.compress label).words = (ofCipher cipher).compress label.words := by
  rw [compress, ← words_encrypt]
  rfl

end ColumnCipher

end PrivateRetrieval
