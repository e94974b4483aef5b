/-
# Fresh sets

A fresh set belongs to its generator, its elements are distinct rows of the domain, and its
number is one that no earlier set of the generator has. A set that is drawn for a row contains
that row.

Numbers are words, so all this holds as long as they do not wrap around. How many numbers a draw
uses up depends on the key: `SetGenerator.draws` counts them. A generator that has so many
numbers left finds a set.
-/

import PrivateRetrieval.Proofs.Sets.Puncturing

namespace PrivateRetrieval

/-- Moving elements in a circle keeps them distinct. -/
theorem nodup_shiftElements {domain : Nat} (shift : UInt32) {elements : List Nat}
    (inside : ∀ element ∈ elements, element < domain) (distinct : elements.Nodup) :
    (shiftElements domain shift elements).Nodup := by
  rw [shiftElements]
  split
  · exact distinct
  · apply distinct.map_on
    intro first isFirst second isSecond same
    have congruent : first ≡ second [MOD domain] := Nat.ModEq.add_right_cancel' shift.toNat same
    exact congruent.eq_of_lt_of_lt (inside first isFirst) (inside second isSecond)

namespace SetGenerator

variable {generator : SetGenerator}

theorem of_make {key : Label} {first : UInt32} {domain size : Nat}
    (made : make key first domain size = .ok generator) :
    generator.tree.domain = domain ∧ generator.tree.size = size ∧
      generator.tree.children = Label.children ∧ generator.nextNumber = first ∧
      SetTree.make domain size = .ok generator.tree := by
  rw [make] at made
  cases isTree : SetTree.make domain size with
  | error failure =>
      rw [isTree] at made
      cases made
  | ok tree =>
      rw [isTree] at made
      cases made
      obtain ⟨isDomain, isSize, standard⟩ := SetTree.of_make isTree
      exact ⟨isDomain, isSize, standard, rfl, rfl⟩

theorem cipher_of_make {key : Label} {first : UInt32} {domain size : Nat}
    (made : make key first domain size = .ok generator) :
    generator.cipher = .ofKey key := by
  rw [make, (of_make made).2.2.2.2] at made
  rw [← Except.ok.inj made]

/-- The constant that moves an element to a target. -/
theorem difference_spec {domain target element : Nat} (few : domain ≤ 2 ^ 32)
    (targetInside : target < domain) (elementInside : element < domain) :
    difference domain target element < domain ∧
      (element + difference domain target element) % domain = target := by
  have size : UInt64.size = 2 ^ 64 := rfl
  have small : Int.bmod ((target : Int) - element) UInt64.size = (target : Int) - element :=
    Int.bmod_eq_of_le (by omega) (by omega)
  have domainSmall : Int.bmod domain UInt64.size = (domain : Int) :=
    Int.bmod_eq_of_le (by omega) (by omega)
  have isRemainder : difference domain target element =
      (((target : Int) - element) % domain).toNat := by
    rw [difference, small, domainSmall]
    rfl
  have positive : (0 : Int) < domain := by omega
  have nonneg := Int.emod_nonneg ((target : Int) - element) (ne_of_gt positive)
  have below := Int.emod_lt_of_pos ((target : Int) - element) positive
  rw [isRemainder]
  refine ⟨by omega, ?_⟩
  zify
  rw [Int.toNat_of_nonneg nonneg, Int.add_emod_emod, add_sub_cancel,
    Int.emod_eq_of_lt (by omega) (by omega)]

/-- How many numbers a search for distinct elements goes through. -/
def triesFrom (generator : SetGenerator) : Nat → UInt32 → Nat
  | 0, _ => 0
  | tries + 1, number =>
      if (generator.tree.elements (generator.rootOf number)).Nodup then 1
      else generator.triesFrom tries (number + 1) + 1

/-- How many numbers the next set uses up. -/
def draws (generator : SetGenerator) : Nat :=
  generator.triesFrom numberCount generator.nextNumber

/-- Whether the numbers that the next set uses up are left. -/
def HasNumbersLeft (generator : SetGenerator) : Prop :=
  generator.nextNumber.toNat + generator.draws < 2 ^ 32

theorem distinctFrom_eq_some {tries : Nat} {start number : UInt32} {elements : List Nat}
    (found : generator.distinctFrom tries start = some (number, elements)) :
    0 < generator.triesFrom tries start ∧
      number = start + UInt32.ofNat (generator.triesFrom tries start - 1) ∧
      elements = generator.tree.elements (generator.rootOf number) ∧ elements.Nodup := by
  induction tries generalizing start with
  | zero => cases found
  | succ tries ih =>
      rw [distinctFrom] at found
      rw [triesFrom]
      split at found
      · rename_i distinct
        cases found
        rw [if_pos distinct]
        exact ⟨Nat.one_pos, (UInt32.add_zero _).symm, rfl, distinct⟩
      · rename_i repeats
        obtain ⟨positive, isNumber, areElements, distinct⟩ := ih found
        rw [if_neg repeats]
        refine ⟨Nat.succ_pos _, ?_, areElements, distinct⟩
        have later : generator.triesFrom tries (start + 1) + 1 - 1 =
            1 + (generator.triesFrom tries (start + 1) - 1) := by omega
        rw [isNumber, later, UInt32.ofNat_add, ← UInt32.add_assoc]
        rfl

theorem triesFrom_of_none {tries : Nat} {start : UInt32}
    (absent : generator.distinctFrom tries start = none) :
    generator.triesFrom tries start = tries := by
  induction tries generalizing start with
  | zero => rfl
  | succ tries ih =>
      rw [distinctFrom] at absent
      rw [triesFrom]
      split at absent
      · cases absent
      · rename_i repeats
        rw [if_neg repeats, ih absent]

/-- A number whose elements are distinct is used up alone. -/
theorem draws_eq_one
    (distinct : (generator.tree.elements (generator.rootOf generator.nextNumber)).Nodup) :
    generator.draws = 1 := by
  show generator.triesFrom (UInt32.size - 1 + 1) generator.nextNumber = 1
  rw [triesFrom, if_pos distinct]

theorem triesFrom_le {tries distance : Nat} {start number : UInt32}
    (isDistance : start.toNat + distance = number.toNat) (allowed : distance < tries)
    (distinct : (generator.tree.elements (generator.rootOf number)).Nodup) :
    generator.triesFrom tries start ≤ distance + 1 := by
  induction tries generalizing start distance with
  | zero => cases allowed
  | succ tries ih =>
      rw [triesFrom]
      split
      · exact Nat.le_add_left 1 distance
      · rename_i repeats
        cases distance with
        | zero =>
            obtain rfl : start = number := UInt32.toNat_inj.mp isDistance
            exact absurd distinct repeats
        | succ distance =>
            have small := number.toNat_lt
            have next : (start + 1).toNat = start.toNat + 1 := by
              rw [UInt32.toNat_add, UInt32.toNat_one, Nat.mod_eq_of_lt (by omega)]
            exact Nat.succ_le_succ (ih (by omega) (Nat.lt_of_succ_lt_succ allowed))

/-- The next set uses up no number beyond one whose elements are distinct. -/
theorem draws_le {number : UInt32} (later : generator.nextNumber.toNat ≤ number.toNat)
    (distinct : (generator.tree.elements (generator.rootOf number)).Nodup) :
    generator.nextNumber.toNat + generator.draws ≤ number.toNat + 1 := by
  have isDistance := Nat.add_sub_of_le later
  have allowed : number.toNat - generator.nextNumber.toNat < numberCount :=
    Nat.lt_of_le_of_lt (Nat.sub_le _ _) number.toNat_lt
  have fewTries : generator.draws ≤ number.toNat - generator.nextNumber.toNat + 1 :=
    triesFrom_le isDistance allowed distinct
  omega

/-- A generator that has numbers left finds distinct elements. -/
theorem exists_nextDistinct (left : generator.HasNumbersLeft) :
    ∃ number elements after,
      generator.nextDistinct = .ok ((number, elements), after) ∧
      after.tree = generator.tree ∧ after.cipher = generator.cipher ∧
      after.nextNumber.toNat = generator.nextNumber.toNat + generator.draws ∧
      generator.nextNumber.toNat ≤ number.toNat ∧ number.toNat < after.nextNumber.toNat ∧
      elements = generator.tree.elements (generator.rootOf number) ∧ elements.Nodup := by
  rw [HasNumbersLeft] at left
  rw [nextDistinct]
  cases found : generator.distinctFrom numberCount generator.nextNumber with
  | none =>
      rw [draws, triesFrom_of_none found] at left
      exact absurd left (Nat.not_lt.mpr (Nat.le_add_left _ _))
  | some pair =>
      obtain ⟨number, elements⟩ := pair
      obtain ⟨positive, isNumber, areElements, distinct⟩ := distinctFrom_eq_some found
      rw [← draws] at positive isNumber
      have small : generator.draws - 1 < 2 ^ 32 := by omega
      have isSum : number.toNat = generator.nextNumber.toNat + (generator.draws - 1) := by
        rw [isNumber, UInt32.toNat_add, UInt32.toNat_ofNat_of_lt' small,
          Nat.mod_eq_of_lt (by omega)]
      have next : (number + 1).toNat = generator.nextNumber.toNat + generator.draws := by
        rw [UInt32.toNat_add, isSum, UInt32.toNat_one, Nat.mod_eq_of_lt (by omega)]
        omega
      refine ⟨number, elements, _, rfl, rfl, rfl, next, by omega, ?_, areElements, distinct⟩
      show number.toNat < (number + 1).toNat
      omega

/-- A fresh set of a generator, and the generator after it. -/
structure Draws (generator : SetGenerator) (set : KeyedSet) (after : SetGenerator) : Prop where
  tree : after.tree = generator.tree
  cipher : after.cipher = generator.cipher
  nextNumber : after.nextNumber.toNat = generator.nextNumber.toNat + generator.draws
  number_ge : generator.nextNumber.toNat ≤ set.handle.number.toNat
  number_lt : set.handle.number.toNat < after.nextNumber.toNat
  owns : generator.Owns set
  distinct : set.elements.Nodup

/-- Whichever shift a set gets, it is fresh. -/
theorem draws_of_nextDistinct {number : UInt32} {elements : List Nat} {after : SetGenerator}
    (tree : after.tree = generator.tree) (cipher : after.cipher = generator.cipher)
    (nextNumber : after.nextNumber.toNat = generator.nextNumber.toNat + generator.draws)
    (number_ge : generator.nextNumber.toNat ≤ number.toNat)
    (number_lt : number.toNat < after.nextNumber.toNat)
    (areElements : elements = generator.tree.elements (generator.rootOf number))
    (distinct : elements.Nodup) (shift : Nat) :
    generator.Draws (generator.shifted number elements shift) after where
  tree := tree
  cipher := cipher
  nextNumber := nextNumber
  number_ge := number_ge
  number_lt := number_lt
  owns := by
    rw [Owns, rebuild, shifted, areElements]
  distinct := by
    refine nodup_shiftElements _ (fun element member => ?_) distinct
    rw [areElements] at member
    exact SetTree.lt_of_mem_elements member

theorem exists_fresh (left : generator.HasNumbersLeft) :
    ∃ set after, generator.fresh = .ok (set, after) ∧ generator.Draws set after := by
  obtain ⟨number, elements, after, found, tree, cipher, next, ge, lt, areElements, distinct⟩ :=
    exists_nextDistinct left
  set shift := generator.shiftWord number % generator.tree.domain
  refine ⟨generator.shifted number elements shift, after, ?_,
    draws_of_nextDistinct tree cipher next ge lt areElements distinct shift⟩
  rw [fresh, found]
  rfl

/-- A set that is drawn for a row is fresh, whichever row it is. -/
theorem draws_of_freshWith (left : generator.HasNumbersLeft) {target : Nat} {set : KeyedSet}
    {after : SetGenerator} (drawn : generator.freshWith target = .ok (set, after)) :
    generator.Draws set after := by
  obtain ⟨number, elements, next, found, tree, cipher, advanced, ge, lt, areElements, distinct⟩ :=
    exists_nextDistinct left
  rw [freshWith, found] at drawn
  cases drawn
  exact draws_of_nextDistinct tree cipher advanced ge lt areElements distinct _

/-- A set that is drawn for a row contains it. -/
theorem exists_freshWith (few : generator.tree.domain ≤ 2 ^ 32) (left : generator.HasNumbersLeft)
    {target : Nat} (inside : target < generator.tree.domain) :
    ∃ set after, generator.freshWith target = .ok (set, after) ∧ generator.Draws set after ∧
      target ∈ set.elements := by
  obtain ⟨number, elements, after, found, tree, cipher, next, ge, lt, areElements, distinct⟩ :=
    exists_nextDistinct left
  set leaf := generator.shiftWord number % generator.tree.size
  set shift := difference generator.tree.domain target (elements.getD leaf 0) with isShift
  refine ⟨generator.shifted number elements shift, after, ?_,
    draws_of_nextDistinct tree cipher next ge lt areElements distinct _, ?_⟩
  · rw [freshWith, found]
    rfl
  · have leafInside : leaf < elements.length := by
      rw [areElements, SetTree.length_elements]
      exact Nat.mod_lt _ generator.tree.size_pos
    have isElement : elements.getD leaf 0 = elements[leaf] := by
      rw [List.getD_eq_getElem?_getD, List.getElem?_eq_getElem leafInside, Option.getD_some]
    have member := List.getElem_mem leafInside
    have elementInside : elements[leaf] < generator.tree.domain := by
      have inSet : elements[leaf] ∈ generator.tree.elements (generator.rootOf number) := by
        rw [← areElements]
        exact member
      exact SetTree.lt_of_mem_elements inSet
    obtain ⟨shiftSmall, moved⟩ := difference_spec few inside elementInside
    rw [← isElement, ← isShift] at shiftSmall moved
    have shiftWord : (UInt32.ofNat shift).toNat = shift :=
      UInt32.toNat_ofNat_of_lt' (Nat.lt_of_lt_of_le shiftSmall few)
    show target ∈ shiftElements generator.tree.domain (UInt32.ofNat shift) elements
    rw [shiftElements]
    split
    · rename_i none
      have noShift : shift = 0 := by
        rw [← shiftWord, none]
        rfl
      rw [noShift, Nat.add_zero, Nat.mod_eq_of_lt (isElement ▸ elementInside)] at moved
      rw [← moved, isElement]
      exact member
    · refine List.mem_map.mpr ⟨elements.getD leaf 0, isElement ▸ member, ?_⟩
      rw [shiftWord]
      exact moved

/-- How many numbers so many fresh sets use up. -/
def drawsMany : Nat → SetGenerator → Nat
  | 0, _ => 0
  | count + 1, generator =>
      generator.draws +
        match generator.fresh with
        | .ok (_, after) => drawsMany count after
        | .error _ => 0

/-- Fresh sets of a generator in a row, and the generator after them. -/
structure DrawsMany (generator : SetGenerator) (sets : List KeyedSet) (after : SetGenerator) :
    Prop where
  tree : after.tree = generator.tree
  cipher : after.cipher = generator.cipher
  nextNumber : after.nextNumber.toNat = generator.nextNumber.toNat + drawsMany sets.length generator
  number_ge : ∀ set ∈ sets, generator.nextNumber.toNat ≤ set.handle.number.toNat
  number_lt : ∀ set ∈ sets, set.handle.number.toNat < after.nextNumber.toNat
  owns : ∀ set ∈ sets, generator.Owns set
  distinct : ∀ set ∈ sets, set.elements.Nodup
  /-- No number is used twice. -/
  ascending : (sets.map fun set => set.handle.number.toNat).Pairwise (· < ·)

/-- After a fresh set, the sets after it are drawn from the generator that is left. -/
theorem Draws.drawsMany_succ {set : KeyedSet} {after : SetGenerator}
    (draws : generator.Draws set after) (left : generator.HasNumbersLeft) (count : Nat) :
    generator.drawsMany (count + 1) = generator.draws + after.drawsMany count := by
  obtain ⟨other, next, drawn, isNext⟩ := exists_fresh left
  -- Tree, key and next number are all that a generator has.
  have same : next = after := by
    have number : next.nextNumber = after.nextNumber :=
      UInt32.toNat_inj.mp (isNext.nextNumber.trans draws.nextNumber.symm)
    have tree := isNext.tree.trans draws.tree.symm
    have cipher := isNext.cipher.trans draws.cipher.symm
    cases next
    cases after
    cases number
    cases tree
    cases cipher
    rfl
  rw [drawsMany, drawn, same]

theorem owns_congr {first second : SetGenerator} (tree : second.tree = first.tree)
    (cipher : second.cipher = first.cipher) {set : KeyedSet} :
    second.Owns set ↔ first.Owns set := by
  rw [Owns, Owns, rebuild, rebuild, rootOf, rootOf, tree, cipher]

namespace DrawsMany

/-- A generator from which nothing was drawn yet. -/
theorem nil (generator : SetGenerator) : generator.DrawsMany [] generator where
  tree := rfl
  cipher := rfl
  nextNumber := rfl
  number_ge := List.forall_mem_nil _
  number_lt := List.forall_mem_nil _
  owns := List.forall_mem_nil _
  distinct := List.forall_mem_nil _
  ascending := .nil

/-- A fresh set, and those that are drawn from the generator after it. -/
theorem cons {set : KeyedSet} {sets : List KeyedSet} {next after : SetGenerator}
    (first : generator.Draws set next) (rest : next.DrawsMany sets after)
    (draws : generator.drawsMany (sets.length + 1) =
      generator.draws + next.drawsMany sets.length) :
    generator.DrawsMany (set :: sets) after := by
  have restNext := rest.nextNumber
  have later : ∀ other ∈ sets, set.handle.number.toNat < other.handle.number.toNat :=
    fun other member => Nat.lt_of_lt_of_le first.number_lt (rest.number_ge other member)
  refine ⟨rest.tree.trans first.tree, rest.cipher.trans first.cipher, ?_, ?_, ?_, ?_, ?_, ?_⟩
  · rw [List.length_cons, draws, restNext, first.nextNumber, Nat.add_assoc]
  · rw [List.forall_mem_cons]
    refine ⟨first.number_ge, ?_⟩
    intro other member
    exact first.number_ge.trans (Nat.le_of_lt (later other member))
  · rw [List.forall_mem_cons]
    refine ⟨?_, rest.number_lt⟩
    rw [restNext]
    exact Nat.lt_of_lt_of_le first.number_lt (Nat.le_add_right _ _)
  · rw [List.forall_mem_cons]
    refine ⟨first.owns, ?_⟩
    intro other member
    exact (owns_congr first.tree first.cipher).mp (rest.owns other member)
  · rw [List.forall_mem_cons]
    exact ⟨first.distinct, rest.distinct⟩
  · rw [List.map_cons, List.pairwise_cons]
    refine ⟨fun number isNumber => ?_, rest.ascending⟩
    obtain ⟨other, member, rfl⟩ := List.mem_map.mp isNumber
    exact later other member

end DrawsMany

/-- So many sets use up no number beyond as many whose elements are distinct. -/
theorem drawsMany_le {numbers : List Nat} (ascending : numbers.Pairwise (· < ·)) {bound : Nat}
    (small : bound < 2 ^ 32) (first : generator.nextNumber.toNat ≤ bound)
    (distinct : ∀ number ∈ numbers, generator.nextNumber.toNat ≤ number ∧ number < bound ∧
      (generator.tree.elements (generator.rootOf (UInt32.ofNat number))).Nodup) :
    generator.nextNumber.toNat + generator.drawsMany numbers.length ≤ bound := by
  induction numbers generalizing generator with
  | nil => exact first
  | cons number rest ih =>
      obtain ⟨least, ascendingRest⟩ := List.pairwise_cons.mp ascending
      obtain ⟨⟨later, inside, isDistinct⟩, distinctRest⟩ := List.forall_mem_cons.mp distinct
      have isNumber : (UInt32.ofNat number).toNat = number :=
        UInt32.toNat_ofNat_of_lt' (inside.trans small)
      have draws := draws_le (isNumber.symm ▸ later) isDistinct
      rw [isNumber] at draws
      have left : generator.HasNumbersLeft := by
        rw [HasNumbersLeft]
        omega
      obtain ⟨set, after, drawn, isNext⟩ := exists_fresh left
      have next := isNext.nextNumber
      have behind : after.nextNumber.toNat + after.drawsMany rest.length ≤ bound := by
        apply ih ascendingRest (by omega)
        intro other member
        obtain ⟨-, otherInside, otherDistinct⟩ := distinctRest other member
        have beyond := least other member
        rw [isNext.tree, rootOf, isNext.cipher]
        exact ⟨by omega, otherInside, otherDistinct⟩
      rw [List.length_cons, drawsMany, drawn]
      dsimp only
      omega

theorem exists_freshMany (count : Nat)
    (left : generator.nextNumber.toNat + drawsMany count generator < 2 ^ 32) :
    ∃ sets after, freshMany count generator = .ok (sets, after) ∧ sets.length = count ∧
      generator.DrawsMany sets after := by
  induction count generalizing generator with
  | zero => exact ⟨[], generator, rfl, rfl, .nil generator⟩
  | succ count ih =>
      rw [drawsMany] at left
      have leftFirst : generator.HasNumbersLeft := by
        rw [HasNumbersLeft]
        omega
      obtain ⟨set, next, drawn, first⟩ := exists_fresh leftFirst
      simp only [drawn] at left
      have leftRest : next.nextNumber.toNat + drawsMany count next < 2 ^ 32 := by
        rw [first.nextNumber]
        omega
      obtain ⟨sets, after, drawnRest, length, rest⟩ := ih leftRest
      refine ⟨set :: sets, after, ?_, congrArg Nat.succ length, .cons first rest ?_⟩
      · rw [freshMany, drawn]
        simp only [bind, Except.bind, drawnRest]
        rfl
      · rw [drawsMany, drawn]

section Continuing

variable {after : SetGenerator}

/-- The elements that a search finds are those of its number. -/
theorem of_nextDistinct {number : UInt32} {elements : List Nat}
    (found : generator.nextDistinct = .ok ((number, elements), after)) :
    after.tree = generator.tree ∧ after.cipher = generator.cipher ∧
      elements = generator.tree.elements (generator.rootOf number) := by
  rw [nextDistinct] at found
  cases isFirst : generator.distinctFrom numberCount generator.nextNumber with
  | none =>
      rw [isFirst] at found
      cases found
  | some pair =>
      rw [isFirst] at found
      cases found
      exact ⟨rfl, rfl, (distinctFrom_eq_some isFirst).2.2.1⟩

/-- A set that is drawn for a row belongs to the generator, which goes on with its tree and its
key. -/
theorem of_freshWith {target : Nat} {set : KeyedSet}
    (drawn : generator.freshWith target = .ok (set, after)) :
    after.tree = generator.tree ∧ after.cipher = generator.cipher ∧ generator.Owns set := by
  simp only [freshWith, bind, Except.bind] at drawn
  split at drawn
  · cases drawn
  rename_i next isNext
  obtain ⟨⟨number, elements⟩, advanced⟩ := next
  cases drawn
  obtain ⟨tree, cipher, areElements⟩ := of_nextDistinct isNext
  exact ⟨tree, cipher, by rw [Owns, rebuild, shifted, areElements]⟩

theorem of_fresh {set : KeyedSet} (drawn : generator.fresh = .ok (set, after)) :
    after.tree = generator.tree ∧ after.cipher = generator.cipher ∧ generator.Owns set := by
  simp only [fresh, bind, Except.bind] at drawn
  split at drawn
  · cases drawn
  rename_i next isNext
  obtain ⟨⟨number, elements⟩, advanced⟩ := next
  cases drawn
  obtain ⟨tree, cipher, areElements⟩ := of_nextDistinct isNext
  exact ⟨tree, cipher, by rw [Owns, rebuild, shifted, areElements]⟩

theorem of_freshMany {count : Nat} {sets : List KeyedSet}
    (drawn : freshMany count generator = .ok (sets, after)) :
    after.tree = generator.tree ∧ after.cipher = generator.cipher ∧
      ∀ set ∈ sets, generator.Owns set := by
  induction count generalizing generator sets with
  | zero =>
      cases drawn
      exact ⟨rfl, rfl, fun set member => nomatch member⟩
  | succ count ih =>
      simp only [freshMany, bind, Except.bind] at drawn
      split at drawn
      · cases drawn
      rename_i first isFirst
      split at drawn
      · cases drawn
      rename_i rest isRest
      cases drawn
      obtain ⟨treeNext, cipherNext, owns⟩ := of_fresh isFirst
      obtain ⟨tree, cipher, ownsRest⟩ := ih isRest
      refine ⟨tree.trans treeNext, cipher.trans cipherNext, List.forall_mem_cons.mpr ⟨owns, ?_⟩⟩
      exact fun set member => (owns_congr treeNext cipherNext).mp (ownsRest set member)

theorem error_of_nextDistinct {failure : Failure}
    (failed : generator.nextDistinct = .error failure) : failure = .exhausted := by
  rw [nextDistinct] at failed
  split at failed
  · cases failed
  · exact (Except.error.inj failed).symm

theorem error_of_fresh {failure : Failure} (failed : generator.fresh = .error failure) :
    failure = .exhausted := by
  simp only [fresh, bind, Except.bind] at failed
  split at failed
  · rename_i isError
    cases failed
    exact error_of_nextDistinct isError
  · cases failed

theorem error_of_freshWith {target : Nat} {failure : Failure}
    (failed : generator.freshWith target = .error failure) : failure = .exhausted := by
  simp only [freshWith, bind, Except.bind] at failed
  split at failed
  · rename_i isError
    cases failed
    exact error_of_nextDistinct isError
  · cases failed

/-- The generator moves on alike, whether or not a set is drawn for a row. -/
theorem drawsMany_succ_of_freshWith {target : Nat} {set : KeyedSet}
    (drawn : generator.freshWith target = .ok (set, after)) (count : Nat) :
    generator.drawsMany (count + 1) = generator.draws + after.drawsMany count := by
  simp only [freshWith, bind, Except.bind] at drawn
  split at drawn
  · cases drawn
  rename_i next isNext
  obtain ⟨⟨number, elements⟩, advanced⟩ := next
  cases drawn
  simp only [drawsMany, fresh, isNext, bind, Except.bind]
  rfl

/-- Nothing but the search for fresh sets can fail. -/
theorem error_of_freshMany {count : Nat} {failure : Failure}
    (failed : freshMany count generator = .error failure) : failure = .exhausted := by
  induction count generalizing generator with
  | zero => cases failed
  | succ count ih =>
      simp only [freshMany, bind, Except.bind] at failed
      split at failed
      · rename_i isError
        cases failed
        exact error_of_fresh isError
      split at failed
      · rename_i isError
        cases failed
        exact ih isError
      · cases failed

end Continuing

end SetGenerator

end PrivateRetrieval
