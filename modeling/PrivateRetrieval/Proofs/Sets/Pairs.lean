/-
# Sets of two elements

Whether the two elements of a set differ depends on its number and on the key. Here this is
computed from the words of the key, so that the numbers that a generator uses up can be counted for
a given key.
-/

import PrivateRetrieval.Proofs.Label.Columns
import PrivateRetrieval.Proofs.Random.Searching
import PrivateRetrieval.Proofs.Sets.Drawing

namespace PrivateRetrieval

/-- The cipher that expands nodes, in columns. -/
def nodeColumns : ColumnCipher := .ofKey (0, 0)

theorem words_compress_nodeCipher (label : Label) :
    (nodeCipher.compress label).words = nodeColumns.compress label.words := by
  rw [nodeCipher, ColumnCipher.words_compress, ColumnCipher.ofCipher_ofKey]
  rfl

/-- The element that the two words of a leaf stand for. -/
def elementOfWords (domain : Nat) (words : Nat × Nat) : Nat := (words.1 ^^^ words.2) % domain

theorem SetTree.element_eq_elementOfWords (tree : SetTree) (leaf : Label) :
    tree.element leaf = elementOfWords tree.domain leaf.words := by
  rw [element, UInt64.toNat_xor]
  rfl

/-- The two elements below a root. -/
def elementPair (domain : Nat) (root : Nat × Nat) : Nat × Nat :=
  (elementOfWords domain (nodeColumns.compress root),
    elementOfWords domain (nodeColumns.compress (root.1 ^^^ 1, root.2)))

/-- A set of two elements has those below its root. -/
theorem SetTree.elements_of_pair {tree : SetTree} (size : tree.size = 2)
    (standard : tree.children = Label.children) (root : Label) :
    tree.elements root =
      [(elementPair tree.domain root.words).1, (elementPair tree.domain root.words).2] := by
  have unmarked : (root.mark 0).words = root.words := by
    rw [Label.words, Label.mark, UInt64.toNat_xor]
    exact congrArg (·, root.high.toNat) (Nat.xor_zero _)
  have leaves : tree.elements root =
      [tree.element (Label.children root).1, tree.element (Label.children root).2] := by
    rw [elements, height, size, standard]
    rfl
  rw [leaves, element_eq_elementOfWords, element_eq_elementOfWords, Label.children,
    words_compress_nodeCipher, words_compress_nodeCipher, unmarked]
  rfl

/-- The block of a tag and a counter is one word. -/
theorem Cipher.words_taggedBlock (tag : UInt8) (counter : UInt32) :
    (taggedBlock tag counter).words = (tag.toNat ||| counter.toNat <<< 8, 0) := by
  have counterSmall := counter.toNat_lt
  have moved : (counter.toUInt64 <<< 8).toNat = counter.toNat <<< 8 := by
    rw [UInt64.toNat_shiftLeft, UInt32.toNat_toUInt64]
    show counter.toNat <<< 8 % 2 ^ 64 = _
    rw [Nat.shiftLeft_eq]
    omega
  rw [Label.words, taggedBlock, UInt64.toNat_or, moved]
  rfl

namespace SetGenerator

/-- Whether the two elements of the set of a number differ. -/
def pairDiffers (cipher : ColumnCipher) (domain number : Nat) : Bool :=
  let pair := elementPair domain (cipher.encrypt (rootTag.toNat ||| number <<< 8, 0))
  pair.1 != pair.2

variable {generator : SetGenerator}

theorem nodup_elements_iff (size : generator.tree.size = 2)
    (standard : generator.tree.children = Label.children) (number : UInt32) :
    (generator.tree.elements (generator.rootOf number)).Nodup ↔
      pairDiffers (.ofCipher generator.cipher) generator.tree.domain number.toNat = true := by
  have root : (generator.rootOf number).words =
      (ColumnCipher.ofCipher generator.cipher).encrypt
        (rootTag.toNat ||| number.toNat <<< 8, 0) := by
    rw [rootOf, Cipher.derive, ColumnCipher.words_encrypt, Cipher.words_taggedBlock]
  rw [SetTree.elements_of_pair size standard, root, pairDiffers, bne_iff_ne]
  simp

/-- So many sets of two elements use up no number beyond as many whose elements differ. -/
theorem drawsMany_le_of_pairDiffers (size : generator.tree.size = 2)
    (standard : generator.tree.children = Label.children) {count width : Nat}
    (small : generator.nextNumber.toNat + width < 2 ^ 32)
    (enough : count ≤ ((List.range' generator.nextNumber.toNat width).filter
      (pairDiffers (.ofCipher generator.cipher) generator.tree.domain)).length) :
    generator.drawsMany count ≤ width := by
  set numbers := (List.range' generator.nextNumber.toNat width).filter
    (pairDiffers (.ofCipher generator.cipher) generator.tree.domain)
  have isCount : (numbers.take count).length = count := List.length_take_of_le enough
  have ascending : (numbers.take count).Pairwise (· < ·) :=
    ((List.pairwise_lt_range' _).filter _).take
  have bounded : generator.nextNumber.toNat + generator.drawsMany (numbers.take count).length ≤
      generator.nextNumber.toNat + width := by
    apply drawsMany_le ascending small (Nat.le_add_right _ _)
    intro number member
    obtain ⟨inRange, differs⟩ := List.mem_filter.mp (List.mem_of_mem_take member)
    obtain ⟨later, inside⟩ := List.mem_range'_1.mp inRange
    refine ⟨later, inside, ?_⟩
    rw [nodup_elements_iff size standard, UInt32.toNat_ofNat_of_lt' (inside.trans small)]
    exact differs
  rw [isCount] at bounded
  exact Nat.le_of_add_le_add_left bounded

/-- Under the key of zeros, the first three sets of two out of three rows have distinct
elements. -/
theorem draws_of_zeroKey (domain : generator.tree.domain = 3)
    (size : generator.tree.size = 2) (standard : generator.tree.children = Label.children)
    (cipher : generator.cipher = .ofKey .zero) (early : generator.nextNumber.toNat ≤ 2) :
    generator.draws = 1 := by
  apply draws_eq_one
  rw [nodup_elements_iff size standard, cipher, ColumnCipher.ofCipher_ofKey, domain]
  interval_cases generator.nextNumber.toNat
  · decide +kernel
  · decide +kernel
  · decide +kernel

/-- Under the key of zeros, two sets of two out of three rows are drawn without skipping numbers. -/
theorem drawsMany_of_zeroKey (domain : generator.tree.domain = 3)
    (size : generator.tree.size = 2) (standard : generator.tree.children = Label.children)
    (cipher : generator.cipher = .ofKey .zero) (early : generator.nextNumber.toNat ≤ 1) :
    generator.drawsMany 2 = 2 := by
  have first := draws_of_zeroKey domain size standard cipher (early.trans (by decide))
  have numbers : generator.HasNumbersLeft := by
    rw [HasNumbersLeft, first]
    omega
  obtain ⟨set, after, isFresh, draws⟩ := exists_fresh numbers
  have second : after.draws = 1 := by
    apply draws_of_zeroKey (draws.tree ▸ domain) (draws.tree ▸ size) (draws.tree ▸ standard)
      (draws.cipher.trans cipher)
    rw [draws.nextNumber, first]
    omega
  rw [drawsMany, isFresh, first]
  dsimp only
  rw [drawsMany, second]
  cases after.fresh with
  | error failure => rfl
  | ok drawn => rfl

section Circle

variable (domain : generator.tree.domain = 3) (size : generator.tree.size = 2)
  (standard : generator.tree.children = Label.children)
include domain size standard

/-- Under the first label of the tape in a circle, the sets of a hint of three rows are found among
the first two hundred numbers. -/
theorem drawsMany_le_of_circle (cipher : generator.cipher = .ofKey Tape.circle.label.1)
    (next : generator.nextNumber = 0) : generator.drawsMany 132 ≤ 200 := by
  have words : Tape.circle.label.1.words = (0, 2 ^ 32) := by decide
  apply drawsMany_le_of_pairDiffers size standard
  · rw [next]
    decide
  · rw [cipher, ColumnCipher.ofCipher_ofKey, words, domain, next]
    decide +kernel

/-- Under the second label, the two numbers after them are those of sets. -/
theorem add_drawsMany_le_of_circle (cipher : generator.cipher = .ofKey Tape.circle.label.2.label.1)
    (early : generator.nextNumber.toNat ≤ 200) :
    generator.nextNumber.toNat + generator.drawsMany 2 ≤ 202 := by
  have words : Tape.circle.label.2.label.1.words = (2 * 2 ^ 32, 3 * 2 ^ 32) := by decide
  have differ : ∀ number ∈ [200, 201],
      pairDiffers (.ofKey (2 * 2 ^ 32, 3 * 2 ^ 32)) 3 number = true := by
    decide +kernel
  have ascending : [200, 201].Pairwise (· < ·) := by decide
  apply drawsMany_le ascending (by decide) (by omega)
  intro number member
  have differs := differ number member
  have bounds : 200 ≤ number ∧ number < 202 := by
    simp only [List.mem_cons, List.not_mem_nil, or_false] at member
    omega
  rw [nodup_elements_iff size standard, cipher, ColumnCipher.ofCipher_ofKey, words, domain,
    UInt32.toNat_ofNat_of_lt' (bounds.2.trans (by decide))]
  exact ⟨early.trans bounds.1, bounds.2, differs⟩

end Circle

end SetGenerator

end PrivateRetrieval
