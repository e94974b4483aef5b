/-
# Sets drawn one after the other

Sets are drawn from one generator in any order, some with a pseudorandom shift and some for a row.
Whatever was drawn before, each of them is well formed: it has as many elements as asked for, all
distinct and in the domain, and its number is beyond those of all sets before it. The generator
rebuilds it from its handle at any later time, and it can be punctured at each of its elements. What
a server then evaluates is the set without that element.

The three places that shift elements have to agree for this: the draw, the rebuilding and the
evaluation of a punctured set. They agree for every shift, also for the one that moves nothing.
-/

import PrivateRetrieval.Proofs.Sets.Pairs

namespace PrivateRetrieval.SetGenerator

/-- What a set is drawn for: nothing in particular, or a row. -/
inductive Draw
  | fresh
  | freshWith (target : Nat)
  deriving DecidableEq, Repr

namespace Draw

/-- The set that is drawn, and the generator after it. -/
def perform (generator : SetGenerator) : Draw → Outcome (KeyedSet × SetGenerator)
  | fresh => generator.fresh
  | freshWith target => generator.freshWith target

/-- The row that a set is drawn for, if there is one, is in the domain. -/
def IsWithin (domain : Nat) : Draw → Prop
  | fresh => True
  | freshWith target => target < domain

/-- A set has the row that it is drawn for, if there is one. -/
def IsMetBy : Draw → KeyedSet → Prop
  | fresh, _ => True
  | freshWith target, set => target ∈ set.elements

end Draw

/-- The sets that are drawn in a row, and the generator after them. -/
def drawAll : SetGenerator → List Draw → Outcome (List KeyedSet × SetGenerator)
  | generator, [] => .ok ([], generator)
  | generator, draw :: rest => do
      let (set, generator) ← draw.perform generator
      let (sets, generator) ← drawAll generator rest
      return (set :: sets, generator)

variable {generator : SetGenerator}

/-- A generator that has numbers left draws a fresh set, which has the row that it is drawn for. -/
theorem exists_perform (few : generator.tree.domain ≤ 2 ^ 32) (left : generator.HasNumbersLeft)
    {draw : Draw} (within : draw.IsWithin generator.tree.domain) :
    ∃ set after, draw.perform generator = .ok (set, after) ∧ generator.Draws set after ∧
      draw.IsMetBy set := by
  cases draw with
  | fresh =>
      obtain ⟨set, after, drawn, draws⟩ := exists_fresh left
      exact ⟨set, after, drawn, draws, trivial⟩
  | freshWith target => exact exists_freshWith few left within

/-- Whatever a set is drawn for, the sets after it begin at the same number. -/
theorem drawsMany_succ {draw : Draw} {set : KeyedSet} {next : SetGenerator}
    (drawn : draw.perform generator = .ok (set, next)) (count : Nat) :
    generator.drawsMany (count + 1) = generator.draws + next.drawsMany count := by
  cases draw with
  | fresh =>
      have drawn : generator.fresh = .ok (set, next) := drawn
      rw [drawsMany, drawn]
  | freshWith target => exact drawsMany_succ_of_freshWith drawn count

/-- A generator that has the numbers left that the draws use up carries them out, each for its
row. -/
theorem exists_drawAll (few : generator.tree.domain ≤ 2 ^ 32) {draws : List Draw}
    (within : ∀ draw ∈ draws, draw.IsWithin generator.tree.domain)
    (left : generator.nextNumber.toNat + generator.drawsMany draws.length < 2 ^ 32) :
    ∃ sets after, generator.drawAll draws = .ok (sets, after) ∧ generator.DrawsMany sets after ∧
      List.Forall₂ Draw.IsMetBy draws sets := by
  induction draws generalizing generator with
  | nil => exact ⟨[], generator, rfl, .nil generator, .nil⟩
  | cons draw rest ih =>
      obtain ⟨withinFirst, withinRest⟩ := List.forall_mem_cons.mp within
      have leftFirst : generator.HasNumbersLeft := by
        rw [List.length_cons, drawsMany] at left
        rw [HasNumbersLeft]
        omega
      obtain ⟨set, next, drawn, first, meets⟩ := exists_perform few leftFirst withinFirst
      have draws := drawsMany_succ drawn
      rw [List.length_cons, draws, ← Nat.add_assoc, ← first.nextNumber] at left
      rw [← first.tree] at few withinRest
      obtain ⟨sets, after, drawnRest, others, meetsRest⟩ := ih few withinRest left
      refine ⟨set :: sets, after, ?_, .cons first others (draws sets.length),
        .cons meets meetsRest⟩
      rw [drawAll]
      simp only [drawn, drawnRest, bind, Except.bind]
      rfl

/-- Puncturing a set of distinct elements at one of them leaves the others, in their order. -/
theorem exists_puncture_erase (standard : generator.tree.children = Label.children)
    {other : SetGenerator} (sameTree : other.tree = generator.tree) {set : KeyedSet}
    (owns : generator.Owns set) (distinct : set.elements.Nodup) {element : Nat}
    (member : element ∈ set.elements) :
    ∃ punctured, other.puncture set element = .ok punctured ∧
      punctured.elements = .ok (set.elements.erase element) := by
  obtain ⟨punctured, isPunctured, lacks⟩ := exists_puncture standard sameTree owns member
  obtain ⟨inside, isHole⟩ := List.getElem?_eq_some_iff.mp lacks.isHole
  refine ⟨punctured, isPunctured, lacks.elements.trans (congrArg Except.ok ?_)⟩
  rw [← isHole, distinct.erase_getElem]

/-- Sets of a size are found in every domain that is large enough. -/
theorem exists_make (key : Label) (first : UInt32) {domain size : Nat} (positive : 0 < size)
    (inside : size ≤ domain) : ∃ generator, make key first domain size = .ok generator := by
  rw [make, SetTree.make, dif_pos positive, dif_pos inside]
  exact ⟨_, rfl⟩

/-- Under every key, from every first number on, and for every size and domain, sets are drawn as
long as there are numbers for them. Each set has the row that it was drawn for, if there is one, and
the numbers of the sets ascend. A set has as many elements as asked for, all distinct and in the
domain. Its number is before the next one of the generator, which rebuilds it from its handle and
punctures it at each of its elements; what a server evaluates then is the elements without that one,
in their order. -/
theorem drawn_sets_wellFormed (key : Label) (first : UInt32) {domain size : Nat}
    (positive : 1 ≤ size) (inside : size ≤ domain) (few : domain ≤ 2 ^ 32) :
    ∃ generator, make key first domain size = .ok generator ∧
      ∀ draws : List Draw, (∀ draw ∈ draws, draw.IsWithin domain) →
        first.toNat + generator.drawsMany draws.length < 2 ^ 32 →
        ∃ sets after, generator.drawAll draws = .ok (sets, after) ∧
          List.Forall₂ Draw.IsMetBy draws sets ∧
          (sets.map fun set => set.handle.number.toNat).Pairwise (· < ·) ∧
          ∀ set ∈ sets, set.elements.length = size ∧ set.elements.Nodup ∧
            (∀ element ∈ set.elements, element < domain) ∧
            first.toNat ≤ set.handle.number.toNat ∧
            set.handle.number.toNat < after.nextNumber.toNat ∧
            after.rebuild set.handle = set ∧
            ∀ element ∈ set.elements, ∃ punctured, after.puncture set element = .ok punctured ∧
              punctured.elements = .ok (set.elements.erase element) := by
  obtain ⟨generator, made⟩ := exists_make key first positive inside
  obtain ⟨isDomain, isSize, standard, isFirst, -⟩ := of_make made
  refine ⟨generator, made, fun draws within left => ?_⟩
  rw [← isDomain] at few within
  rw [← isFirst] at left
  obtain ⟨sets, after, drawn, many, meets⟩ := exists_drawAll few within left
  refine ⟨sets, after, drawn, meets, many.ascending, fun set member => ?_⟩
  have owns := many.owns set member
  have distinct := many.distinct set member
  refine ⟨owns.length_elements.trans isSize, distinct, ?_, ?_, many.number_lt set member,
    (owns_congr many.tree many.cipher).mpr owns, ?_⟩
  · intro element inSet
    exact isDomain ▸ owns.lt_domain inSet
  · rw [← isFirst]
    exact many.number_ge set member
  · intro element inSet
    exact exists_puncture_erase standard many.tree owns distinct inSet

/-- A set of two out of three rows, and then one that has the middle row. -/
theorem drawn_for_middle_row :
    ∃ generator first second after, make .zero 0 3 2 = .ok generator ∧
      generator.drawAll [.fresh, .freshWith 1] = .ok ([first, second], after) ∧
      1 ∈ second.elements ∧ second.elements.length = 2 ∧ second.elements.Nodup ∧
      first.handle.number.toNat < second.handle.number.toNat ∧
      after.rebuild first.handle = first ∧
      ∃ punctured, after.puncture second 1 = .ok punctured ∧
        punctured.elements = .ok (second.elements.erase 1) := by
  obtain ⟨generator, made, drawn⟩ := drawn_sets_wellFormed .zero 0
    (by decide : 1 ≤ 2) (by decide : 2 ≤ 3) (by decide)
  obtain ⟨domain, size, standard, isFirst, -⟩ := of_make made
  have many : generator.drawsMany 2 = 2 :=
    drawsMany_of_zeroKey domain size standard (cipher_of_make made) (by rw [isFirst]; decide)
  obtain ⟨sets, after, areSets, meets, ascending, wellFormed⟩ := drawn [.fresh, .freshWith 1]
    (by simp [Draw.IsWithin]) (by rw [List.length_cons, List.length_singleton, many]; decide)
  cases meets with
  | @cons _ first _ _ _ meets =>
      cases meets with
      | @cons _ second _ _ has none =>
          cases none
          obtain ⟨length, distinct, -, -, -, -, punctures⟩ := wellFormed second (by simp)
          obtain ⟨-, -, -, -, -, rebuilt, -⟩ := wellFormed first (by simp)
          exact ⟨generator, first, second, after, made, areSets, has, length, distinct,
            by simpa using ascending, rebuilt, punctures 1 has⟩

end PrivateRetrieval.SetGenerator
