/-
# What one query hides

A server that is asked for a set without a member, and for one more row, learns nothing about the
row that is meant, if the sets and the choices are as random as they look. The three cases of a
query have weights for which this is exact: whatever the row, a server sees every set that is one
smaller than a stored one, with every row of it, equally often.

The parts of a query are drawn by one program from a coin, two sets and members of them.
`QueryCase.drawParts` is this program over any source of randomness. The client runs it on its tape
and its generators; here it is run on uniform choices. A server that gets a set without the row
sees sets without the row only, and sets with it only if another member is missing. The second
happens in one case for each server, as often as a set of that size contains the row.
-/

import PrivateRetrieval.Proofs.Hints.Queries

open scoped ENNReal

namespace PrivateRetrieval

/-! ## How the parts of a query are drawn -/

/-- Draw the parts of a query, from sources of a coin, of a fresh set and a stored one, and of
members of sets other than a given one. -/
def QueryCase.drawParts {μ : Type → Type} [Monad μ] {σ : Type} (setSize row : Nat) (coin : μ Nat)
    (fresh stored : μ σ) (member : σ → Nat → μ Nat) : μ (Sides (QueryPart σ)) := do
  let case := QueryCase.ofCoin setSize (← coin)
  let fresh ← fresh
  let stored ← stored
  let first ← member fresh row
  let (source, excluded) := case.secondSource row fresh stored first
  let second ← member source excluded
  return case.parts row fresh stored first second

namespace PuncturedClient

/-- Draw the parts of a query as the client does. -/
def drawParts (client : PuncturedClient) (row slot : Nat) : Drawing (Sides (QueryPart KeyedSet)) :=
  QueryCase.drawParts client.setSize row (Drawing.below client.rowCount)
    (Prod.fst <$> (liftM (client.current.freshWith row) : Drawing (KeyedSet × SetGenerator)))
    (liftM (client.setAt slot))
    fun set excluded => Drawing.memberExcept set.elements excluded

/-- Ask both servers for their parts. -/
def askBoth (client : PuncturedClient) (parts : Sides (QueryPart KeyedSet)) :
    Drawing (Sides SetQuery) := do
  return ⟨← client.ask parts.left, ← client.ask parts.right⟩

/-- The queries of the client ask for the parts that the program draws. -/
theorem queries_drawQuery (client : PuncturedClient) (row slot : Nat) :
    (fun drawn => drawn.1.1) <$> client.drawQuery row slot =
      client.drawParts row slot >>= client.askBoth := by
  simp only [drawQuery, drawParts, QueryCase.drawParts, askBoth, map_bind, bind_assoc,
    bind_map_left, map_pure, pure_bind]

end PuncturedClient

/-- What the server that is asked for a part gets to see: the rows of the set that remain, and the
extra row. -/
def QueryPart.view (part : QueryPart (Finset Nat)) : Finset Nat × Nat :=
  (part.set.erase part.without, part.extra)

/-- What a server reads in a query: the rows of the set, and the extra row. -/
def SetQuery.view? (query : SetQuery) : Outcome (Finset Nat × Nat) := do
  return ((← query.set.elements).toFinset, query.extra)

/-- The list without its member at an index has the other members, if they are distinct. -/
theorem toFinset_eraseIdx {members : List Nat} (distinct : members.Nodup) {index member : Nat}
    (held : members[index]? = some member) :
    (members.eraseIdx index).toFinset = members.toFinset.erase member := by
  obtain ⟨inside, isMember⟩ := List.getElem?_eq_some_iff.mp held
  rw [← distinct.erase_getElem index inside, isMember]
  ext other
  rw [List.mem_toFinset, distinct.mem_erase_iff, Finset.mem_erase, List.mem_toFinset]

namespace PuncturedClient

/-- The query that asks for a part shows the rest of its set and its extra row, and no more. -/
theorem view?_of_ask {client : PuncturedClient} {generator : SetGenerator}
    (standard : generator.tree.children = Label.children)
    (sameTree : client.current.tree = generator.tree) {part : QueryPart KeyedSet}
    (owns : generator.Owns part.set) (distinct : part.set.elements.Nodup) {query : SetQuery}
    (asks : client.ask part = .ok query) :
    query.view? =
      .ok (QueryPart.view ⟨part.set.elements.toFinset, part.without, part.extra⟩) := by
  obtain ⟨punctured, isPunctured, lacks⟩ :=
    SetGenerator.exists_puncture standard sameTree owns (mem_of_ask asks)
  rw [ask, isPunctured] at asks
  cases asks
  rw [SetQuery.view?, lacks.elements]
  exact congrArg (fun rest => Except.ok (rest, part.extra))
    (toFinset_eraseIdx distinct lacks.isHole)

end PuncturedClient

/-! ## Uniform choices -/

/-- One of some choices, each with the same probability. -/
noncomputable def oneOf {α : Type} [Inhabited α] (choices : Finset α) : PMF α :=
  if some : choices.Nonempty then PMF.uniformOfFinset choices some else PMF.pure default

section OneOf

variable {α β : Type} [Inhabited α] {choices : Finset α}

/-- What depends on a uniform choice has the average probability. -/
theorem oneOf_bind_apply (some : choices.Nonempty) (next : α → PMF β) (value : β) :
    (oneOf choices).bind next value = (∑ choice ∈ choices, next choice value) / choices.card := by
  rw [PMF.bind_apply, oneOf, dif_pos some, tsum_eq_sum (s := choices)]
  · rw [div_eq_mul_inv, Finset.sum_mul]
    refine Finset.sum_congr rfl fun choice member => ?_
    rw [PMF.uniformOfFinset_apply_of_mem some member, mul_comm]
  · intro choice other
    rw [PMF.uniformOfFinset_apply_of_notMem some other, zero_mul]

/-- The probability of a value of a function is the share of the choices with that value. -/
theorem oneOf_map_apply [DecidableEq β] (some : choices.Nonempty) (f : α → β) (value : β) :
    (oneOf choices).map f value =
      (choices.filter fun choice => f choice = value).card / choices.card := by
  have counted : ∑ choice ∈ choices, PMF.pure (f choice) value =
      ((choices.filter fun choice => f choice = value).card : ℝ≥0∞) := by
    rw [Finset.card_filter, Nat.cast_sum]
    refine Finset.sum_congr rfl fun choice _ => ?_
    by_cases same : f choice = value
    · rw [if_pos same, same, PMF.pure_apply_self, Nat.cast_one]
    · rw [if_neg same, PMF.pure_apply_of_ne _ _ (Ne.symm same), Nat.cast_zero]
  rw [← counted]
  exact oneOf_bind_apply some (PMF.pure ∘ f) value

end OneOf

/-! ## Sets with a row -/

section Sets

variable {rowCount setSize row : Nat}

/-- The sets of a given size that contain a row. -/
def setsWith (rowCount setSize row : Nat) : Finset (Finset Nat) :=
  ((Finset.range rowCount).powersetCard setSize).filter (row ∈ ·)

theorem mem_setsWith {set : Finset Nat} :
    set ∈ setsWith rowCount setSize row ↔
      set ⊆ Finset.range rowCount ∧ set.card = setSize ∧ row ∈ set := by
  rw [setsWith, Finset.mem_filter, Finset.mem_powersetCard, and_assoc]

/-- One set leaves given remaining rows without a row, unless that row is one of them. -/
theorem card_filter_erase {gone : Nat} (two : 2 ≤ setSize) (inside : gone < rowCount)
    (rest : Finset Nat) :
    ((setsWith rowCount setSize gone).filter fun set => set.erase gone = rest).card =
      if rest ∈ (Finset.range rowCount).powersetCard (setSize - 1) ∧ gone ∉ rest then 1 else 0 := by
  split
  · rename_i valid
    obtain ⟨isRest, outside⟩ := valid
    obtain ⟨within, size⟩ := Finset.mem_powersetCard.mp isRest
    rw [Finset.card_eq_one]
    refine ⟨insert gone rest, ?_⟩
    ext set
    rw [Finset.mem_filter, mem_setsWith, Finset.mem_singleton]
    constructor
    · rintro ⟨⟨-, -, member⟩, rfl⟩
      exact (Finset.insert_erase member).symm
    · rintro rfl
      refine ⟨⟨?_, ?_, Finset.mem_insert_self _ _⟩, Finset.erase_insert outside⟩
      · exact Finset.insert_subset (Finset.mem_range.mpr inside) within
      · rw [Finset.card_insert_of_notMem outside, size]
        omega
  · rename_i invalid
    rw [Finset.card_eq_zero, Finset.filter_eq_empty_iff]
    rintro set isSet rfl
    obtain ⟨within, size, member⟩ := mem_setsWith.mp isSet
    refine invalid ⟨Finset.mem_powersetCard.mpr ⟨(Finset.erase_subset _ _).trans within, ?_⟩,
      Finset.notMem_erase _ _⟩
    rw [Finset.card_erase_of_mem member, size]

theorem card_setsWith (two : 2 ≤ setSize) (inside : row < rowCount) :
    (setsWith rowCount setSize row).card = (rowCount - 1).choose (setSize - 1) := by
  have smaller : ((Finset.range rowCount).erase row).card = rowCount - 1 := by
    rw [Finset.card_erase_of_mem (Finset.mem_range.mpr inside), Finset.card_range]
  rw [← smaller, ← Finset.card_powersetCard]
  apply Finset.card_bij fun set _ => set.erase row
  · intro set isSet
    obtain ⟨within, size, member⟩ := mem_setsWith.mp isSet
    refine Finset.mem_powersetCard.mpr ⟨Finset.erase_subset_erase row within, ?_⟩
    rw [Finset.card_erase_of_mem member, size]
  · intro first isFirst second isSecond same
    rw [← Finset.insert_erase (mem_setsWith.mp isFirst).2.2, same,
      Finset.insert_erase (mem_setsWith.mp isSecond).2.2]
  · intro rest isRest
    obtain ⟨within, size⟩ := Finset.mem_powersetCard.mp isRest
    have outside : row ∉ rest := fun member => Finset.notMem_erase row _ (within member)
    refine ⟨insert row rest, mem_setsWith.mpr ⟨?_, ?_, Finset.mem_insert_self _ _⟩,
      Finset.erase_insert outside⟩
    · exact Finset.insert_subset (Finset.mem_range.mpr inside)
        (within.trans (Finset.erase_subset _ _))
    · rw [Finset.card_insert_of_notMem outside, size]
      omega

/-- The sets with a row that leave given remaining rows without some other member: if the row is
one of those that remain, there is such a set for every row that is not. -/
theorem sum_card_filter_erase (two : 2 ≤ setSize) (rest : Finset Nat) :
    ∑ set ∈ setsWith rowCount setSize row,
        ((set.erase row).filter fun gone => set.erase gone = rest).card =
      if rest ∈ (Finset.range rowCount).powersetCard (setSize - 1) ∧ row ∈ rest then
        rowCount - (setSize - 1) else 0 := by
  have exchanged : ∑ set ∈ setsWith rowCount setSize row,
        ((set.erase row).filter fun gone => set.erase gone = rest).card =
      ∑ gone ∈ Finset.range rowCount, ((setsWith rowCount setSize row).filter fun set =>
        gone ∈ set.erase row ∧ set.erase gone = rest).card := by
    refine Eq.trans (Finset.sum_congr rfl fun set isSet => congrArg Finset.card ?_)
      (Finset.sum_card_bipartiteAbove_eq_sum_card_bipartiteBelow
        fun (set : Finset Nat) (gone : Nat) => gone ∈ set.erase row ∧ set.erase gone = rest)
    obtain ⟨within, -, -⟩ := mem_setsWith.mp isSet
    ext gone
    rw [Finset.mem_filter, Finset.mem_bipartiteAbove]
    exact ⟨fun ⟨member, left⟩ => ⟨within (Finset.mem_of_mem_erase member), member, left⟩,
      fun ⟨_, member, left⟩ => ⟨member, left⟩⟩
  rw [exchanged]
  by_cases inRest : row ∈ rest
  · have single : ∀ gone ∈ Finset.range rowCount,
        ((setsWith rowCount setSize row).filter fun set =>
          gone ∈ set.erase row ∧ set.erase gone = rest).card =
        if rest ∈ (Finset.range rowCount).powersetCard (setSize - 1) ∧ gone ∉ rest then 1
        else 0 := by
      intro gone inside
      rw [← card_filter_erase two (Finset.mem_range.mp inside)]
      congr 1
      ext set
      rw [Finset.mem_filter, Finset.mem_filter, mem_setsWith, mem_setsWith]
      constructor
      · rintro ⟨⟨within, size, -⟩, member, left⟩
        exact ⟨⟨within, size, Finset.mem_of_mem_erase member⟩, left⟩
      · rintro ⟨⟨within, size, member⟩, rfl⟩
        exact ⟨⟨within, size, Finset.mem_of_mem_erase inRest⟩,
          Finset.mem_erase.mpr ⟨(Finset.ne_of_mem_erase inRest).symm, member⟩, rfl⟩
    rw [Finset.sum_congr rfl single]
    by_cases isRest : rest ∈ (Finset.range rowCount).powersetCard (setSize - 1)
    · obtain ⟨within, size⟩ := Finset.mem_powersetCard.mp isRest
      simp only [isRest, inRest, true_and, and_self, if_true]
      rw [← Finset.card_filter, Finset.filter_notMem_eq_sdiff, Finset.card_sdiff_of_subset within,
        Finset.card_range, size]
    · simp only [isRest, false_and, if_false, Finset.sum_const_zero]
  · rw [if_neg fun valid => inRest valid.2]
    refine Finset.sum_eq_zero fun gone _ => ?_
    rw [Finset.card_eq_zero, Finset.filter_eq_empty_iff]
    rintro set isSet ⟨member, rfl⟩
    exact inRest (Finset.mem_erase.mpr ⟨(Finset.ne_of_mem_erase member).symm,
      (mem_setsWith.mp isSet).2.2⟩)

end Sets

/-! ## What a server sees -/

/-- The parts of a query, drawn with ideal randomness. -/
noncomputable def idealParts (rowCount setSize row : Nat) :
    PMF (Sides (QueryPart (Finset Nat))) :=
  QueryCase.drawParts setSize row (oneOf (Finset.range rowCount))
    (oneOf (setsWith rowCount setSize row)) (oneOf (setsWith rowCount setSize row))
    fun set excluded => oneOf (set.erase excluded)

/-- A set without a member, and one of the others as the extra row. -/
noncomputable def viewWithout (set : Finset Nat) (gone : Nat) : PMF (Finset Nat × Nat) :=
  (oneOf (set.erase gone)).map fun extra => (set.erase gone, extra)

/-- A set with the row, without it. -/
noncomputable def viewWithoutRow (rowCount setSize row : Nat) : PMF (Finset Nat × Nat) :=
  (oneOf (setsWith rowCount setSize row)).bind fun set => viewWithout set row

/-- A set with the row, without another member. -/
noncomputable def viewWithoutOther (rowCount setSize row : Nat) : PMF (Finset Nat × Nat) :=
  (oneOf (setsWith rowCount setSize row)).bind fun set =>
    (oneOf (set.erase row)).bind fun gone => viewWithout set gone

section Views

variable {rowCount setSize row : Nat}

/-- The left server gets a set without another member if the extra row is right, and otherwise a
set without the row. Draws that it does not get to see make no difference. -/
theorem left_view (rowCount setSize row : Nat) :
    (idealParts rowCount setSize row).map (fun parts => parts.left.view) =
      (oneOf (Finset.range rowCount)).bind fun coin =>
        if QueryCase.ofCoin setSize coin = .extraRight then
          viewWithoutOther rowCount setSize row
        else viewWithoutRow rowCount setSize row := by
  rw [idealParts, QueryCase.drawParts, ← PMF.monad_map_eq_map]
  simp only [map_bind, map_pure]
  refine congrArg (PMF.bind _) (funext fun coin => ?_)
  set sets := oneOf (setsWith rowCount setSize row)
  cases QueryCase.ofCoin setSize coin with
  | refresh =>
      rw [if_neg (by decide)]
      calc sets.bind (fun fresh => sets.bind fun stored =>
              (oneOf (fresh.erase row)).bind fun first =>
                (oneOf (stored.erase row)).bind fun _ => PMF.pure (fresh.erase row, first))
          = sets.bind fun fresh => (oneOf (fresh.erase row)).bind fun first =>
              PMF.pure (fresh.erase row, first) := by simp only [PMF.bind_const]
        _ = viewWithoutRow rowCount setSize row := rfl
  | extraRight =>
      rw [if_pos rfl]
      calc sets.bind (fun fresh => sets.bind fun _ =>
              (oneOf (fresh.erase row)).bind fun first =>
                (oneOf (fresh.erase first)).bind fun second =>
                  PMF.pure (fresh.erase first, second))
          = sets.bind fun fresh => (oneOf (fresh.erase row)).bind fun first =>
              (oneOf (fresh.erase first)).bind fun second =>
                PMF.pure (fresh.erase first, second) := by simp only [PMF.bind_const]
        _ = viewWithoutOther rowCount setSize row := rfl
  | extraLeft =>
      rw [if_neg (by decide)]
      calc sets.bind (fun fresh => sets.bind fun _ =>
              (oneOf (fresh.erase row)).bind fun first =>
                (oneOf (fresh.erase first)).bind fun _ => PMF.pure (fresh.erase row, first))
          = sets.bind fun fresh => (oneOf (fresh.erase row)).bind fun first =>
              PMF.pure (fresh.erase row, first) := by simp only [PMF.bind_const]
        _ = viewWithoutRow rowCount setSize row := rfl

/-- The right server gets a set without another member if the extra row is left. In a refresh its
set is the stored one, which is drawn like the fresh one. -/
theorem right_view (rowCount setSize row : Nat) :
    (idealParts rowCount setSize row).map (fun parts => parts.right.view) =
      (oneOf (Finset.range rowCount)).bind fun coin =>
        if QueryCase.ofCoin setSize coin = .extraLeft then
          viewWithoutOther rowCount setSize row
        else viewWithoutRow rowCount setSize row := by
  rw [idealParts, QueryCase.drawParts, ← PMF.monad_map_eq_map]
  simp only [map_bind, map_pure]
  refine congrArg (PMF.bind _) (funext fun coin => ?_)
  set sets := oneOf (setsWith rowCount setSize row)
  cases QueryCase.ofCoin setSize coin with
  | refresh =>
      rw [if_neg (by decide)]
      calc sets.bind (fun fresh => sets.bind fun stored =>
              (oneOf (fresh.erase row)).bind fun _ =>
                (oneOf (stored.erase row)).bind fun second =>
                  PMF.pure (stored.erase row, second))
          = sets.bind fun stored => (oneOf (stored.erase row)).bind fun second =>
              PMF.pure (stored.erase row, second) := by simp only [PMF.bind_const]
        _ = viewWithoutRow rowCount setSize row := rfl
  | extraRight =>
      rw [if_neg (by decide)]
      calc sets.bind (fun fresh => sets.bind fun _ =>
              (oneOf (fresh.erase row)).bind fun first =>
                (oneOf (fresh.erase first)).bind fun _ => PMF.pure (fresh.erase row, first))
          = sets.bind fun fresh => (oneOf (fresh.erase row)).bind fun first =>
              PMF.pure (fresh.erase row, first) := by simp only [PMF.bind_const]
        _ = viewWithoutRow rowCount setSize row := rfl
  | extraLeft =>
      rw [if_pos rfl]
      calc sets.bind (fun fresh => sets.bind fun _ =>
              (oneOf (fresh.erase row)).bind fun first =>
                (oneOf (fresh.erase first)).bind fun second =>
                  PMF.pure (fresh.erase first, second))
          = sets.bind fun fresh => (oneOf (fresh.erase row)).bind fun first =>
              (oneOf (fresh.erase first)).bind fun second =>
                PMF.pure (fresh.erase first, second) := by simp only [PMF.bind_const]
        _ = viewWithoutOther rowCount setSize row := rfl

/-- A set of more than one member shows what remains of it with each row that remains equally
often. -/
theorem viewWithout_apply {set : Finset Nat} (two : 2 ≤ set.card) {gone : Nat}
    (member : gone ∈ set) (rest : Finset Nat) (extra : Nat) :
    viewWithout set gone (rest, extra) =
      if set.erase gone = rest then if extra ∈ rest then ((set.card - 1 : Nat) : ℝ≥0∞)⁻¹ else 0
      else 0 := by
  have size : (set.erase gone).card = set.card - 1 := Finset.card_erase_of_mem member
  have some : (set.erase gone).Nonempty := by
    rw [← Finset.card_pos, size]
    omega
  rw [viewWithout, oneOf_map_apply some, size]
  split
  · rename_i left
    split
    · rename_i inside
      have single : (set.erase gone).filter
          (fun choice => (set.erase gone, choice) = (rest, extra)) = {extra} := by
        rw [left]
        ext choice
        simp only [Finset.mem_filter, Prod.mk.injEq, true_and, Finset.mem_singleton]
        exact ⟨fun both => both.2, fun same => ⟨same ▸ inside, same⟩⟩
      rw [single, Finset.card_singleton, Nat.cast_one, one_div]
    · rename_i outside
      rw [Finset.filter_false_of_mem, Finset.card_empty, Nat.cast_zero, ENNReal.zero_div]
      rintro choice isChoice same
      rw [Prod.mk.injEq] at same
      exact outside (left ▸ same.2 ▸ isChoice)
  · rename_i other
    rw [Finset.filter_false_of_mem, Finset.card_empty, Nat.cast_zero, ENNReal.zero_div]
    intro choice _ same
    exact other (Prod.mk.inj same).1

/-- The coins of the case with an extra row on the right. -/
theorem ofCoin_eq_extraRight_iff (coin : Nat) :
    QueryCase.ofCoin setSize coin = .extraRight ↔ coin < setSize - 1 := by
  rw [QueryCase.ofCoin]
  split
  · rename_i small
    exact iff_of_true rfl small
  · rename_i large
    refine iff_of_false ?_ large
    split <;> exact QueryCase.noConfusion

/-- The coins of the case with an extra row on the left. -/
theorem ofCoin_eq_extraLeft_iff (coin : Nat) :
    QueryCase.ofCoin setSize coin = .extraLeft ↔
      setSize - 1 ≤ coin ∧ coin < 2 * (setSize - 1) := by
  grind [QueryCase.ofCoin]

/-- Each of the two extra cases has as many coins as a set has elements, less one. -/
theorem card_coins (room : 2 * (setSize - 1) ≤ rowCount) {case : QueryCase}
    (extra : case ≠ .refresh) :
    ((Finset.range rowCount).filter fun coin => QueryCase.ofCoin setSize coin = case).card =
      setSize - 1 := by
  cases case with
  | refresh => exact absurd rfl extra
  | extraRight =>
      have coins : ((Finset.range rowCount).filter fun coin =>
          QueryCase.ofCoin setSize coin = .extraRight) = Finset.range (setSize - 1) := by
        ext coin
        rw [Finset.mem_filter, Finset.mem_range, Finset.mem_range, ofCoin_eq_extraRight_iff]
        omega
      rw [coins, Finset.card_range]
  | extraLeft =>
      have coins : ((Finset.range rowCount).filter fun coin =>
          QueryCase.ofCoin setSize coin = .extraLeft) =
          Finset.Ico (setSize - 1) (2 * (setSize - 1)) := by
        ext coin
        rw [Finset.mem_filter, Finset.mem_range, Finset.mem_Ico, ofCoin_eq_extraLeft_iff]
        omega
      rw [coins, Nat.card_Ico]
      omega

/-- The row is never one of those that remain of a set without it. -/
theorem viewWithoutRow_apply (two : 2 ≤ setSize) (fits : setSize ≤ rowCount)
    (inside : row < rowCount) (rest : Finset Nat) (extra : Nat) :
    viewWithoutRow rowCount setSize row (rest, extra) =
      if rest ∈ (Finset.range rowCount).powersetCard (setSize - 1) ∧ row ∉ rest then
        (if extra ∈ rest then ((setSize - 1 : Nat) : ℝ≥0∞)⁻¹ else 0) /
          (rowCount - 1).choose (setSize - 1)
      else 0 := by
  have size := card_setsWith two inside
  have some : (setsWith rowCount setSize row).Nonempty := by
    rw [← Finset.card_pos, size]
    exact Nat.choose_pos (by omega)
  have each : ∀ set ∈ setsWith rowCount setSize row, viewWithout set row (rest, extra) =
      if set.erase row = rest then if extra ∈ rest then ((setSize - 1 : Nat) : ℝ≥0∞)⁻¹ else 0
      else 0 := by
    intro set isSet
    obtain ⟨-, isSize, member⟩ := mem_setsWith.mp isSet
    rw [viewWithout_apply (isSize ▸ two) member, isSize]
  rw [viewWithoutRow, oneOf_bind_apply some, size, Finset.sum_congr rfl each, ← Finset.sum_filter,
    Finset.sum_const, card_filter_erase two inside, nsmul_eq_mul]
  split
  · rw [Nat.cast_one, one_mul]
  · rw [Nat.cast_zero, zero_mul, ENNReal.zero_div]

/-- The row is always one of those that remain of a set without another member. -/
theorem viewWithoutOther_apply (two : 2 ≤ setSize) (fits : setSize ≤ rowCount)
    (inside : row < rowCount) (rest : Finset Nat) (extra : Nat) :
    viewWithoutOther rowCount setSize row (rest, extra) =
      if rest ∈ (Finset.range rowCount).powersetCard (setSize - 1) ∧ row ∈ rest then
        (rowCount - (setSize - 1) : Nat) *
          (if extra ∈ rest then ((setSize - 1 : Nat) : ℝ≥0∞)⁻¹ else 0) / (setSize - 1 : Nat) /
          (rowCount - 1).choose (setSize - 1)
      else 0 := by
  have size := card_setsWith two inside
  have some : (setsWith rowCount setSize row).Nonempty := by
    rw [← Finset.card_pos, size]
    exact Nat.choose_pos (by omega)
  set weight : ℝ≥0∞ := if extra ∈ rest then ((setSize - 1 : Nat) : ℝ≥0∞)⁻¹ else 0 with isWeight
  have each : ∀ set ∈ setsWith rowCount setSize row,
      ((oneOf (set.erase row)).bind fun gone => viewWithout set gone) (rest, extra) =
        ((set.erase row).filter fun gone => set.erase gone = rest).card *
          (weight / (setSize - 1 : Nat)) := by
    intro set isSet
    obtain ⟨-, isSize, member⟩ := mem_setsWith.mp isSet
    have others : (set.erase row).card = setSize - 1 := by
      rw [Finset.card_erase_of_mem member, isSize]
    have someOther : (set.erase row).Nonempty := by
      rw [← Finset.card_pos, others]
      omega
    have eachOther : ∀ gone ∈ set.erase row, viewWithout set gone (rest, extra) =
        if set.erase gone = rest then weight else 0 := by
      intro gone isGone
      rw [viewWithout_apply (isSize ▸ two) (Finset.mem_of_mem_erase isGone), isSize]
    rw [oneOf_bind_apply someOther, others, Finset.sum_congr rfl eachOther, ← Finset.sum_filter,
      Finset.sum_const, nsmul_eq_mul, mul_div_assoc]
  rw [viewWithoutOther, oneOf_bind_apply some, size, Finset.sum_congr rfl each, ← Finset.sum_mul,
    ← Nat.cast_sum, sum_card_filter_erase two]
  split
  · simp only [mul_div_assoc]
  · rw [Nat.cast_zero, zero_mul, ENNReal.zero_div]

/-- If one of the two extra cases is special, it has as many coins as rows remain of a set. -/
theorem average_apply (two : 2 ≤ setSize) (room : 2 * (setSize - 1) ≤ rowCount)
    {case : QueryCase} (extra : case ≠ .refresh) (special usual : PMF (Finset Nat × Nat))
    (view : Finset Nat × Nat) :
    ((oneOf (Finset.range rowCount)).bind fun coin =>
        if QueryCase.ofCoin setSize coin = case then special else usual) view =
      ((setSize - 1 : Nat) * special view + (rowCount - (setSize - 1) : Nat) * usual view) /
        rowCount := by
  have some : (Finset.range rowCount).Nonempty := Finset.nonempty_range_iff.mpr (by omega)
  have rest : ((Finset.range rowCount).filter fun coin =>
      ¬ QueryCase.ofCoin setSize coin = case).card = rowCount - (setSize - 1) := by
    rw [Finset.filter_not, Finset.card_sdiff_of_subset (Finset.filter_subset _ _),
      card_coins room extra, Finset.card_range]
  rw [oneOf_bind_apply some, Finset.card_range]
  simp only [apply_ite (fun law : PMF (Finset Nat × Nat) => law view)]
  rw [Finset.sum_ite, Finset.sum_const, Finset.sum_const, card_coins room extra, rest, nsmul_eq_mul,
    nsmul_eq_mul]

/-- The weight of what is usual. -/
theorem weight_usual {count size few all : Nat} (room : size < count)
    (pascal : few * count = all * (count - size)) :
    ((count - size : Nat) : ℝ≥0∞) * ((size : ℝ≥0∞)⁻¹ / few) / count =
      ((all * size : Nat) : ℝ≥0∞)⁻¹ := by
  have inv_mul (first second : Nat) :
      ((first * second : Nat) : ℝ≥0∞)⁻¹ = (first : ℝ≥0∞)⁻¹ * (second : ℝ≥0∞)⁻¹ := by
    rw [Nat.cast_mul, ENNReal.mul_inv (Or.inr (ENNReal.natCast_ne_top _))
      (Or.inl (ENNReal.natCast_ne_top _))]
  have cancels : ((count - size : Nat) : ℝ≥0∞) * ((count - size : Nat) : ℝ≥0∞)⁻¹ = 1 :=
    ENNReal.mul_inv_cancel (Nat.cast_ne_zero.mpr (by omega)) (ENNReal.natCast_ne_top _)
  calc ((count - size : Nat) : ℝ≥0∞) * ((size : ℝ≥0∞)⁻¹ / few) / count
      = ((count - size : Nat) : ℝ≥0∞) * ((size : ℝ≥0∞)⁻¹ * ((few * count : Nat) : ℝ≥0∞)⁻¹) := by
        rw [inv_mul, div_eq_mul_inv, div_eq_mul_inv, mul_assoc, mul_assoc]
    _ = ((count - size : Nat) : ℝ≥0∞) * ((count - size : Nat) : ℝ≥0∞)⁻¹ *
          ((all : ℝ≥0∞)⁻¹ * (size : ℝ≥0∞)⁻¹) := by
        rw [pascal, inv_mul]
        ring
    _ = ((all * size : Nat) : ℝ≥0∞)⁻¹ := by rw [cancels, one_mul, inv_mul]

/-- The weight of what is special is that of what is usual. -/
theorem weight_special {size : Nat} (some : 0 < size) (rest few weight : ℝ≥0∞) :
    (size : ℝ≥0∞) * (rest * weight / size / few) = rest * (weight / few) := by
  have cancels : (size : ℝ≥0∞) * (size : ℝ≥0∞)⁻¹ = 1 :=
    ENNReal.mul_inv_cancel (Nat.cast_ne_zero.mpr some.ne') (ENNReal.natCast_ne_top _)
  calc (size : ℝ≥0∞) * (rest * weight / size / few)
      = (size : ℝ≥0∞) * (size : ℝ≥0∞)⁻¹ * (rest * (weight / few)) := by
        simp only [div_eq_mul_inv]
        ring
    _ = rest * (weight / few) := by rw [cancels, one_mul]

/-- Sets without the row and sets without another member show, with the weights of their cases,
every remainder of a set with every row of it equally often. -/
theorem average_views (two : 2 ≤ setSize) (room : 2 * (setSize - 1) ≤ rowCount)
    (inside : row < rowCount) (rest : Finset Nat) (extra : Nat) :
    ((setSize - 1 : Nat) * viewWithoutOther rowCount setSize row (rest, extra) +
        (rowCount - (setSize - 1) : Nat) * viewWithoutRow rowCount setSize row (rest, extra)) /
        rowCount =
      if rest ∈ (Finset.range rowCount).powersetCard (setSize - 1) ∧ extra ∈ rest then
        ((rowCount.choose (setSize - 1) * (setSize - 1) : Nat) : ℝ≥0∞)⁻¹ else 0 := by
  have fits : setSize ≤ rowCount := by omega
  have some : 0 < setSize - 1 := by omega
  have pascal : (rowCount - 1).choose (setSize - 1) * rowCount =
      rowCount.choose (setSize - 1) * (rowCount - (setSize - 1)) := by
    have succ := Nat.choose_mul_succ_eq (rowCount - 1) (setSize - 1)
    rwa [Nat.sub_add_cancel (by omega)] at succ
  rw [viewWithoutOther_apply two fits inside, viewWithoutRow_apply two fits inside]
  by_cases isRest : rest ∈ (Finset.range rowCount).powersetCard (setSize - 1)
  · by_cases isExtra : extra ∈ rest
    · have usual := weight_usual (by omega : setSize - 1 < rowCount) pascal
      by_cases inRest : row ∈ rest
      · simp only [isRest, isExtra, inRest, and_self, if_true, not_true, and_false, if_false,
          mul_zero, add_zero]
        rw [weight_special some, usual]
      · simp only [isRest, isExtra, inRest, and_self, if_true, not_false_eq_true, and_false,
          if_false, mul_zero, zero_add]
        exact usual
    · simp [isRest, isExtra]
  · simp [isRest]

/-- Each of the two servers sees every remainder of a set, with every row of it, equally often. -/
theorem idealParts_view_apply (two : 2 ≤ setSize) (room : 2 * (setSize - 1) ≤ rowCount)
    (inside : row < rowCount) (rest : Finset Nat) (extra : Nat) :
    (idealParts rowCount setSize row).map (fun parts => parts.left.view) (rest, extra) =
        (if rest ∈ (Finset.range rowCount).powersetCard (setSize - 1) ∧ extra ∈ rest then
          ((rowCount.choose (setSize - 1) * (setSize - 1) : Nat) : ℝ≥0∞)⁻¹ else 0) ∧
      (idealParts rowCount setSize row).map (fun parts => parts.right.view) (rest, extra) =
        if rest ∈ (Finset.range rowCount).powersetCard (setSize - 1) ∧ extra ∈ rest then
          ((rowCount.choose (setSize - 1) * (setSize - 1) : Nat) : ℝ≥0∞)⁻¹ else 0 := by
  rw [left_view, right_view, average_apply two room (by decide), average_apply two room (by decide),
    average_views two room inside]
  exact ⟨rfl, rfl⟩

end Views

/-- A query hides its row from each of the two servers. The client draws the parts of a query by the
program `QueryCase.drawParts` and asks for them, and a server reads no more in a query than the
view of its part. On ideal randomness each server sees every remainder of a set, with every row of
it, with one and the same probability, so what it sees is distributed alike for all rows. -/
theorem hides_row {rowCount setSize row : Nat} (two : 2 ≤ setSize)
    (room : 2 * (setSize - 1) ≤ rowCount) (inside : row < rowCount) :
    (∀ (client : PuncturedClient) (row slot : Nat),
      (fun drawn => drawn.1.1) <$> client.drawQuery row slot =
        client.drawParts row slot >>= client.askBoth) ∧
    (∀ (client : PuncturedClient) (generator : SetGenerator) (part : QueryPart KeyedSet)
        (query : SetQuery), generator.tree.children = Label.children →
      client.current.tree = generator.tree → generator.Owns part.set →
      part.set.elements.Nodup → client.ask part = .ok query →
      query.view? =
        .ok (QueryPart.view ⟨part.set.elements.toFinset, part.without, part.extra⟩)) ∧
    (∀ rest ∈ (Finset.range rowCount).powersetCard (setSize - 1), ∀ extra ∈ rest,
      (idealParts rowCount setSize row).map (fun parts => parts.left.view) (rest, extra) =
          ((rowCount.choose (setSize - 1) * (setSize - 1) : Nat) : ℝ≥0∞)⁻¹ ∧
        (idealParts rowCount setSize row).map (fun parts => parts.right.view) (rest, extra) =
          ((rowCount.choose (setSize - 1) * (setSize - 1) : Nat) : ℝ≥0∞)⁻¹) ∧
    ∀ other < rowCount,
      (idealParts rowCount setSize other).map (fun parts => parts.left.view) =
          (idealParts rowCount setSize row).map (fun parts => parts.left.view) ∧
        (idealParts rowCount setSize other).map (fun parts => parts.right.view) =
          (idealParts rowCount setSize row).map (fun parts => parts.right.view) := by
  refine ⟨PuncturedClient.queries_drawQuery, ?_, ?_, ?_⟩
  · intro client generator part query standard sameTree owns distinct asks
    exact PuncturedClient.view?_of_ask standard sameTree owns distinct asks
  · intro rest isRest extra isExtra
    have views := idealParts_view_apply two room inside rest extra
    rwa [if_pos ⟨isRest, isExtra⟩] at views
  · intro other otherInside
    constructor
    · ext ⟨rest, extra⟩
      rw [(idealParts_view_apply two room otherInside rest extra).1,
        (idealParts_view_apply two room inside rest extra).1]
    · ext ⟨rest, extra⟩
      rw [(idealParts_view_apply two room otherInside rest extra).2,
        (idealParts_view_apply two room inside rest extra).2]

/-- Sets of three rows among five: the left server is asked for two rows, and one of them as the
extra row, in twenty ways, and the row that is meant may be one of the two. -/
theorem left_view_of_five_rows :
    (idealParts 5 3 1).map (fun parts => parts.left.view) ({0, 1}, 0) = (20 : ℝ≥0∞)⁻¹ := by
  have choices : Nat.choose 5 (3 - 1) * (3 - 1) = 20 := by decide
  have twoElements : 2 ≤ 3 := by decide
  have room : 2 * (3 - 1) ≤ 5 := by decide
  have inside : 1 < 5 := by decide
  have seen := (hides_row twoElements room inside).2.2.1 {0, 1} (by decide) 0 (by decide)
  rw [seen.1, choices, Nat.cast_ofNat]

end PrivateRetrieval
