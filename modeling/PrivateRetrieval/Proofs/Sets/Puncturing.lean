/-
# Punctured sets

Puncturing a set at a leaf loses that leaf and nothing else: the copath determines all other
leaves, in their order. This holds for every tree and every way to expand a node, also when the
last level is cut off. The way to a leaf is told by halves of the tree or by the digits of its
number.

For a server it means that the set which it receives is the set of the client without one element,
wherever that set came from and however it is shifted.
-/

import PrivateRetrieval.Proofs.Table.Sums
import PrivateRetrieval.Retrieval.Server

namespace PrivateRetrieval

/-- A tree of the least height has enough leaves. -/
theorem le_two_pow_treeHeight (wanted : Nat) : wanted ≤ 2 ^ treeHeight wanted := by
  rw [treeHeight]
  split
  · rename_i few
    exact few
  · rename_i many
    have below := Nat.lt_log2_self (n := wanted - 1)
    omega

/-- The height of a tree is the binary logarithm of the number of its leaves, rounded up. -/
theorem treeHeight_eq_clog (wanted : Nat) : treeHeight wanted = Nat.clog 2 wanted := by
  apply Nat.le_antisymm
  · rw [treeHeight]
    split
    · exact Nat.zero_le _
    · rename_i many
      have enough : wanted ≤ 2 ^ Nat.clog 2 wanted := Nat.le_pow_clog Nat.one_lt_two wanted
      exact (Nat.log2_lt (by omega)).mpr (by omega)
  · exact Nat.clog_le_of_le_pow (le_two_pow_treeHeight wanted)

namespace LabelTree

variable (children : Label → Label × Label)

theorem leaves_none (height : Nat) (node : Label) : leaves children height node 0 = [] := by
  cases height <;> rfl

theorem leaves_succ (height : Nat) (node : Label) (wanted : Nat) :
    leaves children (height + 1) node wanted =
      leaves children height (children node).1 wanted ++
        leaves children height (children node).2 (wanted - 2 ^ height) := by
  rw [← Nat.one_shiftLeft]
  cases wanted with
  | zero => rw [Nat.zero_sub, leaves_none, leaves_none, leaves_none, List.append_nil]
  | succ wanted => rfl

theorem copath_succ (height : Nat) (node : Label) (leaf : Nat) :
    copath children (height + 1) node leaf =
      if leaf < 2 ^ height then (children node).2 :: copath children height (children node).1 leaf
      else (children node).1 :: copath children height (children node).2 (leaf - 2 ^ height) := by
  rw [← Nat.one_shiftLeft]
  rfl

theorem leavesExcept_cons (sibling : Label) (below : List Label) (hole wanted : Nat) :
    leavesExcept children (sibling :: below) hole wanted =
      if hole < 2 ^ below.length then
        leavesExcept children below hole wanted ++
          leaves children below.length sibling (wanted - 2 ^ below.length)
      else
        leaves children below.length sibling wanted ++
          leavesExcept children below (hole - 2 ^ below.length) (wanted - 2 ^ below.length) := by
  rw [← Nat.one_shiftLeft]
  rfl

theorem length_leaves (height : Nat) (node : Label) (wanted : Nat) :
    (leaves children height node wanted).length = min wanted (2 ^ height) := by
  induction height generalizing node wanted with
  | zero =>
      cases wanted with
      | zero => rfl
      | succ wanted =>
          rw [Nat.pow_zero, Nat.min_eq_right (Nat.succ_le_succ (Nat.zero_le wanted))]
          rfl
  | succ height ih =>
      rw [leaves_succ, List.length_append, ih, ih, Nat.pow_succ]
      omega

theorem length_copath (height : Nat) (node : Label) (leaf : Nat) :
    (copath children height node leaf).length = height := by
  induction height generalizing node leaf with
  | zero => rfl
  | succ height ih =>
      rw [copath_succ]
      split
      · rw [List.length_cons, ih]
      · rw [List.length_cons, ih]

/-- A list of siblings determines all leaves but one, whether or not it is a copath of a tree. -/
theorem length_leavesExcept (below : List Label) {hole wanted : Nat}
    (inTree : hole < 2 ^ below.length) (isWanted : hole < wanted) :
    (leavesExcept children below hole wanted).length + 1 = min wanted (2 ^ below.length) := by
  induction below generalizing hole wanted with
  | nil =>
      rw [List.length_nil, Nat.pow_zero, Nat.min_eq_right (Nat.one_le_of_lt isWanted)]
      rfl
  | cons sibling below ih =>
      rw [leavesExcept_cons, List.length_cons, Nat.pow_succ]
      by_cases isLeft : hole < 2 ^ below.length
      · have left := ih isLeft isWanted
        rw [if_pos isLeft, List.length_append, length_leaves]
        omega
      · have inRight : hole - 2 ^ below.length < 2 ^ below.length := by
          rw [List.length_cons, Nat.pow_succ] at inTree
          omega
        have isWantedRight : hole - 2 ^ below.length < wanted - 2 ^ below.length := by omega
        have right := ih inRight isWantedRight
        rw [if_neg isLeft, List.length_append, length_leaves]
        omega

/-- A copath determines all leaves but one. -/
theorem leavesExcept_copath {height : Nat} {leaf : Nat} (node : Label) {wanted : Nat}
    (inTree : leaf < 2 ^ height) (isWanted : leaf < wanted) :
    leavesExcept children (copath children height node leaf) leaf wanted =
      (leaves children height node wanted).eraseIdx leaf := by
  induction height generalizing node leaf wanted with
  | zero =>
      obtain rfl : leaf = 0 := Nat.lt_one_iff.mp inTree
      cases wanted with
      | zero => cases isWanted
      | succ wanted => rfl
  | succ height ih =>
      rw [leaves_succ, copath_succ]
      by_cases isLeft : leaf < 2 ^ height
      · have inLeft : leaf < (leaves children height (children node).1 wanted).length := by
          rw [length_leaves]
          exact Nat.lt_min.mpr ⟨isWanted, isLeft⟩
        rw [if_pos isLeft, leavesExcept_cons, length_copath, if_pos isLeft,
          ih (children node).1 isLeft isWanted, List.eraseIdx_append_of_lt_length inLeft]
      · have wholeLeft : (leaves children height (children node).1 wanted).length = 2 ^ height := by
          rw [length_leaves]
          omega
        have inRight : leaf - 2 ^ height < 2 ^ height := by
          rw [Nat.pow_succ] at inTree
          omega
        rw [if_neg isLeft, leavesExcept_cons, length_copath, if_neg isLeft,
          ih (children node).2 inRight (by omega),
          List.eraseIdx_append_of_length_le (by omega), wholeLeft]

/-- The copath of a leaf by the binary digits of its number, the highest one first: 1 leads to the
right. -/
def copathByDigits : Nat → Label → Nat → List Label
  | 0, _, _ => []
  | height + 1, node, leaf =>
      let (left, right) := children node
      if leaf.testBit height then left :: copathByDigits height right leaf
      else right :: copathByDigits height left leaf

theorem copathByDigits_succ (height : Nat) (node : Label) (leaf : Nat) :
    copathByDigits children (height + 1) node leaf =
      if leaf.testBit height then
        (children node).1 :: copathByDigits children height (children node).2 leaf
      else (children node).2 :: copathByDigits children height (children node).1 leaf := rfl

/-- The digits of a leaf lead to where its place in the tree is. Only as many digits matter as the
tree has levels. -/
theorem copathByDigits_eq (height : Nat) (node : Label) (leaf : Nat) :
    copathByDigits children height node leaf = copath children height node (leaf % 2 ^ height) := by
  induction height generalizing node with
  | zero => rfl
  | succ height ih =>
      have below : leaf % 2 ^ height < 2 ^ height := Nat.mod_lt _ (Nat.two_pow_pos height)
      have split : leaf % 2 ^ (height + 1) =
          leaf % 2 ^ height + 2 ^ height * (leaf.testBit height).toNat := by
        rw [Nat.mod_pow_succ, Nat.toNat_testBit]
      rw [copath_succ, copathByDigits_succ, ih, ih]
      cases digit : leaf.testBit height with
      | false =>
          rw [digit, Bool.toNat_false, Nat.mul_zero] at split
          rw [split, Nat.add_zero, if_pos below, if_neg Bool.false_ne_true]
      | true =>
          rw [digit, Bool.toNat_true, Nat.mul_one] at split
          have right : ¬ leaf % 2 ^ height + 2 ^ height < 2 ^ height := by omega
          rw [split, if_pos rfl, if_neg right, Nat.add_sub_cancel]

end LabelTree

namespace SetTree

/-- What a tree for sets of some size over some domain is. -/
theorem of_make {domain size : Nat} {tree : SetTree} (made : make domain size = .ok tree) :
    tree.domain = domain ∧ tree.size = size ∧ tree.children = Label.children := by
  rw [make] at made
  split at made
  · split at made
    · cases made
      exact ⟨rfl, rfl, rfl⟩
    · cases made
  · cases made

/-- A tree is made again from its domain and its size. -/
theorem make_eq_self {tree : SetTree} (standard : tree.children = Label.children) :
    make tree.domain tree.size = .ok tree := by
  rw [make, dif_pos tree.size_pos, dif_pos tree.size_le, ← standard]

theorem length_elements (tree : SetTree) (root : Label) :
    (tree.elements root).length = tree.size := by
  rw [elements, List.length_map, LabelTree.length_leaves]
  exact Nat.min_eq_left (le_two_pow_treeHeight tree.size)

theorem lt_of_mem_elements {tree : SetTree} {root : Label} {element : Nat}
    (member : element ∈ tree.elements root) : element < tree.domain := by
  obtain ⟨leaf, -, rfl⟩ := List.mem_map.mp member
  exact tree.element_lt leaf

/-- Puncturing a set at a leaf loses that leaf only. -/
theorem elementsExcept_puncture (tree : SetTree) (root : Label) {leaf : Nat}
    (inside : leaf < tree.size) :
    ∃ copath, tree.puncture root leaf = .ok copath ∧ copath.length = tree.height ∧
      tree.elementsExcept copath leaf = .ok ((tree.elements root).eraseIdx leaf) := by
  have length := LabelTree.length_copath tree.children tree.height root leaf
  have inTree : leaf < 2 ^ tree.height :=
    Nat.lt_of_lt_of_le inside (le_two_pow_treeHeight tree.size)
  refine ⟨_, if_pos inside, length, ?_⟩
  rw [elementsExcept, if_pos length, if_pos inside,
    LabelTree.leavesExcept_copath tree.children root inTree inside, elements, List.eraseIdx_map]

/-- The digits of a leaf tell what puncturing the set at the leaf reveals. -/
theorem puncture_eq_copathByDigits (tree : SetTree) (root : Label) (leaf : Nat) :
    tree.puncture root leaf =
      if leaf < tree.size then
        .ok (LabelTree.copathByDigits tree.children tree.height root leaf)
      else .error (.breach .leafOutOfRange) := by
  rw [puncture]
  split
  · rename_i inside
    have inTree : leaf < 2 ^ tree.height :=
      Nat.lt_of_lt_of_le inside (le_two_pow_treeHeight tree.size)
    rw [LabelTree.copathByDigits_eq, Nat.mod_eq_of_lt inTree]
  · rfl

/-- Whatever labels are given in place of a copath, they stand for one element less than a set has,
and all of these are rows of the domain. -/
theorem elementsExcept_of_length (tree : SetTree) {copath : List Label} {hole : Nat}
    (length : copath.length = tree.height) (inside : hole < tree.size) :
    ∃ elements, tree.elementsExcept copath hole = .ok elements ∧
      elements.length = tree.size - 1 ∧ ∀ element ∈ elements, element < tree.domain := by
  have enough : tree.size ≤ 2 ^ tree.height := le_two_pow_treeHeight tree.size
  have inTree : hole < 2 ^ copath.length := by
    rw [length]
    exact Nat.lt_of_lt_of_le inside enough
  have oneLess := LabelTree.length_leavesExcept tree.children copath inTree inside
  rw [length, Nat.min_eq_left enough] at oneLess
  refine ⟨_, by rw [elementsExcept, if_pos length, if_pos inside], ?_, ?_⟩
  · rw [List.length_map]
    omega
  · intro element member
    obtain ⟨leaf, -, rfl⟩ := List.mem_map.mp member
    exact tree.element_lt leaf

/-- A set has as many elements as its tree says, and puncturing it at a leaf reveals one label for
each level of the tree, from which all elements but that of the leaf can be told, in their order.
Any labels in the place of these stand for as many elements. -/
theorem puncture_loses_one_element (tree : SetTree) (root : Label) :
    tree.height = Nat.clog 2 tree.size ∧ (tree.elements root).length = tree.size ∧
      (∀ leaf < tree.size, ∃ copath, tree.puncture root leaf = .ok copath ∧
        copath.length = tree.height ∧
        tree.elementsExcept copath leaf = .ok ((tree.elements root).eraseIdx leaf)) ∧
      ∀ (copath : List Label) (hole : Nat), copath.length = tree.height → hole < tree.size →
        ∃ elements, tree.elementsExcept copath hole = .ok elements ∧
          elements.length = tree.size - 1 ∧ ∀ element ∈ elements, element < tree.domain :=
  ⟨treeHeight_eq_clog tree.size, tree.length_elements root,
    fun _ inside => tree.elementsExcept_puncture root inside,
    fun _ _ length inside => tree.elementsExcept_of_length length inside⟩

/-- Three out of five rows, on a tree whose second half has one leaf only. -/
theorem puncture_last_of_three :
    ∃ tree : SetTree, tree.domain = 5 ∧ tree.size = 3 ∧ tree.elements ⟨1, 0⟩ = [4, 0, 1] ∧
      (∃ copath, 2 < tree.size ∧ tree.puncture ⟨1, 0⟩ 2 = .ok copath ∧ copath.length = 2 ∧
        tree.elementsExcept copath 2 = .ok [4, 0]) ∧
      ∃ elements, [Label.zero, ⟨3, 9⟩].length = tree.height ∧ 1 < tree.size ∧
        tree.elementsExcept [Label.zero, ⟨3, 9⟩] 1 = .ok elements ∧ elements.length = 2 := by
  -- The children of a node have twice its number, and one more.
  let tree : SetTree := ⟨5, 3, by decide, by decide,
    fun parent => (⟨2 * parent.low, 0⟩, ⟨2 * parent.low + 1, 0⟩)⟩
  have areElements : tree.elements ⟨1, 0⟩ = [4, 0, 1] := by decide
  have height : tree.height = 2 := by decide
  obtain ⟨-, -, punctured, anyLabels⟩ := puncture_loses_one_element tree ⟨1, 0⟩
  obtain ⟨copath, isCopath, length, rest⟩ := punctured 2 (by decide)
  obtain ⟨elements, areRest, count, -⟩ := anyLabels [Label.zero, ⟨3, 9⟩] 1 (by decide) (by decide)
  rw [areElements] at rest
  exact ⟨tree, rfl, rfl, areElements, ⟨copath, by decide, isCopath, length.trans height, rest⟩,
    elements, by decide, by decide, areRest, count⟩

end SetTree

theorem length_shiftElements (domain : Nat) (shift : UInt32) (elements : List Nat) :
    (shiftElements domain shift elements).length = elements.length := by
  rw [shiftElements]
  split
  · rfl
  · rw [List.length_map]

/-- Shifted elements stay in the domain. -/
theorem lt_of_mem_shiftElements {domain : Nat} (positive : 0 < domain) (shift : UInt32)
    {elements : List Nat} (inside : ∀ element ∈ elements, element < domain) {element : Nat}
    (member : element ∈ shiftElements domain shift elements) : element < domain := by
  rw [shiftElements] at member
  split at member
  · exact inside element member
  · obtain ⟨unshifted, -, rfl⟩ := List.mem_map.mp member
    exact Nat.mod_lt _ positive

theorem eraseIdx_shiftElements (domain : Nat) (shift : UInt32) (elements : List Nat)
    (place : Nat) :
    shiftElements domain shift (elements.eraseIdx place) =
      (shiftElements domain shift elements).eraseIdx place := by
  rw [shiftElements, shiftElements]
  split
  · rfl
  · rw [List.eraseIdx_map]

namespace SetGenerator

/-- A set belongs to a generator if the generator rebuilds it from its handle. -/
def Owns (generator : SetGenerator) (set : KeyedSet) : Prop :=
  generator.rebuild set.handle = set

theorem owns_rebuild (generator : SetGenerator) (handle : SetHandle) :
    generator.Owns (generator.rebuild handle) := rfl

theorem Owns.elements {generator : SetGenerator} {set : KeyedSet} (owns : generator.Owns set) :
    set.elements = shiftElements generator.tree.domain set.handle.shift
      (generator.tree.elements set.root) := by
  rw [← owns]
  rfl

theorem Owns.length_elements {generator : SetGenerator} {set : KeyedSet}
    (owns : generator.Owns set) : set.elements.length = generator.tree.size := by
  rw [owns.elements, length_shiftElements, SetTree.length_elements]

theorem Owns.lt_domain {generator : SetGenerator} {set : KeyedSet} (owns : generator.Owns set)
    {element : Nat} (member : element ∈ set.elements) : element < generator.tree.domain := by
  rw [owns.elements] at member
  exact lt_of_mem_shiftElements generator.tree.domain_pos _
    (fun element => SetTree.lt_of_mem_elements) member

/-- A set without one of its elements. -/
structure Lacks (punctured : PuncturedSet) (generator : SetGenerator) (set : KeyedSet)
    (element : Nat) : Prop where
  domain : punctured.domain = generator.tree.domain
  size : punctured.size + 1 = generator.tree.size
  copath : punctured.copath.length = generator.tree.height
  hole : punctured.hole < generator.tree.size
  isHole : set.elements[punctured.hole]? = some element
  elements : punctured.elements = .ok (set.elements.eraseIdx punctured.hole)

/-- A set of a tree as of generators can be punctured at each of its elements. The generator that
punctures only has to have the same tree, since a server takes the shape of the set from the
message. -/
theorem exists_puncture {generator other : SetGenerator} {set : KeyedSet}
    (standard : generator.tree.children = Label.children) (sameTree : other.tree = generator.tree)
    (owns : generator.Owns set) {element : Nat} (member : element ∈ set.elements) :
    ∃ punctured, other.puncture set element = .ok punctured ∧
      Lacks punctured generator set element := by
  obtain ⟨hole, isHole⟩ : ∃ hole, set.elements.idxOf? element = some hole :=
    Option.isSome_iff_exists.mp (List.isSome_idxOf?.mpr member)
  obtain ⟨inside, held, -⟩ := List.idxOf?_eq_some_iff.mp isHole
  have insideTree : hole < generator.tree.size := owns.length_elements ▸ inside
  obtain ⟨copath, isCopath, length, elements⟩ :=
    generator.tree.elementsExcept_puncture set.root insideTree
  have size : generator.tree.size - 1 + 1 = generator.tree.size :=
    Nat.sub_add_cancel generator.tree.size_pos
  refine ⟨⟨generator.tree.domain, generator.tree.size - 1, copath, hole, set.handle.shift⟩, ?_,
    rfl, size, length, insideTree, ?_, ?_⟩
  · rw [puncture, isHole, sameTree]
    simp only [isCopath]
    rfl
  · rw [List.getElem?_eq_getElem inside, held]
  · rw [PuncturedSet.elements, size, SetTree.make_eq_self standard]
    simp only [bind, Except.bind, elements]
    rw [eraseIdx_shiftElements, ← owns.elements]
    rfl

end SetGenerator

namespace Table

/-- The answer to a query for a punctured set: the sum over the set without the element, and the
extra row. -/
theorem answerSet_of_lacks {table : Table} {generator : SetGenerator} {set : KeyedSet}
    {punctured : PuncturedSet} {element extra : Nat}
    (domain : generator.tree.domain = table.rowCount) (owns : generator.Owns set)
    (lacks : SetGenerator.Lacks punctured generator set element)
    (extraInside : extra < table.rowCount) :
    ∃ rest, table.answerSet ⟨punctured, extra⟩ = .ok ⟨rest, table.rowAt extra⟩ ∧
      rest.length = table.rowLength ∧
      table.sumAt set.elements = rest.xor (table.rowAt element) := by
  have contains : table.Contains set.elements := by
    intro index member
    rw [← domain]
    exact owns.lt_domain member
  have containsRest : table.Contains (set.elements.eraseIdx punctured.hole) :=
    fun index member => contains index (List.mem_of_mem_eraseIdx member)
  refine ⟨table.sumAt (set.elements.eraseIdx punctured.hole), ?_, length_sumAt containsRest,
    sumAt_eraseIdx contains lacks.isHole⟩
  have fits : ¬ (punctured.domain < punctured.size + 1 ∨ punctured.size + 1 ≤ punctured.hole ∨
      punctured.copath.length ≠ treeHeight (punctured.size + 1)) := by
    rw [lacks.size, lacks.domain, lacks.copath, SetTree.height]
    have inside := lacks.hole
    have sizes := generator.tree.size_le
    omega
  rw [answerSet, if_neg (by rw [lacks.domain, domain]; exact Nat.lt_irrefl _), if_neg fits,
    lacks.elements]
  simp only [bind, Except.bind]
  rw [xorRows_eq_sumAt containsRest, row_eq_rowAt extraInside]
  rfl

end Table

end PrivateRetrieval
