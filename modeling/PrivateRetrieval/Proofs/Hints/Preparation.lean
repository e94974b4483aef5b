/-
# New clients of the punctured scheme

The server and the client derive the same sets from the seed of a hint, so the sums that the
server sends are the hints of the sets that the client stores. All later sets have numbers of
their own, since the later generator begins where the first one ended.
-/

import PrivateRetrieval.Proofs.Hints.Soundness
import PrivateRetrieval.Proofs.Random.Searching

namespace PrivateRetrieval

/-- How many numbers the sets of a hint use up. -/
def SetSums.draws (sums : SetSums) : Nat :=
  match SetGenerator.make sums.seed 0 sums.shape.rowCount sums.setSize with
  | .ok generator => generator.drawsMany sums.sums.length
  | .error _ => 0

/-- A hint is made of sets of at least two elements, and has a sum for every set. -/
theorem Table.of_setSums {table : Table} {seed : Label} {multiplier : Nat} {sums : SetSums}
    (made : table.setSums seed multiplier = .ok sums) :
    ∃ generator sets hinted,
      SetGenerator.make sums.seed 0 sums.shape.rowCount sums.setSize = .ok generator ∧
      SetGenerator.freshMany (setCount multiplier table.rowCount (setSizeFor table.rowCount))
        generator = .ok (sets, hinted) ∧
      sets.mapM (fun set => table.xorRows set.elements) = .ok sums.sums ∧
      sums.shape = table.shape ∧ sums.setSize = setSizeFor table.rowCount ∧ 2 ≤ sums.setSize := by
  rw [setSums] at made
  split at made
  · rename_i large
    simp only [bind, Except.bind] at made
    split at made
    · cases made
    rename_i generator isGenerator
    split at made
    · cases made
    rename_i drawn isDrawn
    obtain ⟨sets, hinted⟩ := drawn
    dsimp only at made
    split at made
    · cases made
    rename_i sums' areSums
    cases made
    exact ⟨generator, sets, hinted, isGenerator, isDrawn, areSums, rfl, rfl,
      of_decide_eq_true large⟩
  · cases made

theorem SetGenerator.length_freshMany {count : Nat} {generator after : SetGenerator}
    {sets : List KeyedSet} (drawn : freshMany count generator = .ok (sets, after)) :
    sets.length = count := by
  induction count generalizing generator sets with
  | zero =>
      cases drawn
      rfl
  | succ count ih =>
      simp only [freshMany, bind, Except.bind] at drawn
      split at drawn
      · cases drawn
      rename_i first _
      split at drawn
      · cases drawn
      rename_i rest isRest
      cases drawn
      rw [List.length_cons, ih isRest]

/-- What a list is mapped to, if no element fails. -/
theorem forall₂_of_mapM_eq_ok {α β : Type} {f : α → Outcome β} {list : List α} {values : List β}
    (mapped : list.mapM f = .ok values) :
    List.Forall₂ (fun element value => f element = .ok value) list values := by
  induction list generalizing values with
  | nil =>
      cases mapped
      exact .nil
  | cons first rest ih =>
      rw [List.mapM_cons] at mapped
      simp only [bind, Except.bind] at mapped
      split at mapped
      · cases mapped
      rename_i value isValue
      split at mapped
      · cases mapped
      rename_i others areOthers
      cases mapped
      exact .cons isValue (ih areOthers)

theorem length_of_mapM_eq_ok {α β : Type} {f : α → Outcome β} {list : List α} {values : List β}
    (mapped : list.mapM f = .ok values) : values.length = list.length :=
  (forall₂_of_mapM_eq_ok mapped).length_eq.symm

theorem mapM_eq_ok {α β : Type} {f : α → Outcome β} {g : α → β} {list : List α}
    (agree : ∀ value ∈ list, f value = .ok (g value)) : list.mapM f = .ok (list.map g) := by
  induction list with
  | nil => rfl
  | cons first rest ih =>
      rw [List.mapM_cons, agree first List.mem_cons_self,
        ih fun value member => agree value (List.mem_cons_of_mem first member)]
      rfl

/-- A server that has numbers left makes a hint. -/
theorem Table.exists_setSums {table : Table} (large : supportsSets table.rowCount = true)
    {seed : Label} {multiplier : Nat} {generator : SetGenerator}
    (made : SetGenerator.make seed 0 table.rowCount (setSizeFor table.rowCount) = .ok generator)
    (left : generator.drawsMany
      (setCount multiplier table.rowCount (setSizeFor table.rowCount)) < 2 ^ 32) :
    ∃ sums, table.setSums seed multiplier = .ok sums ∧
      sums.sums.length = setCount multiplier table.rowCount (setSizeFor table.rowCount) ∧
      sums.draws = generator.drawsMany sums.sums.length := by
  obtain ⟨domain, -, -, start, -⟩ := SetGenerator.of_make made
  have leftMany : generator.nextNumber.toNat + generator.drawsMany
      (setCount multiplier table.rowCount (setSizeFor table.rowCount)) < 2 ^ 32 := by
    rw [start, UInt32.toNat_zero, Nat.zero_add]
    exact left
  obtain ⟨sets, after, isDrawn, length, fresh⟩ := SetGenerator.exists_freshMany _ leftMany
  have areSums : sets.mapM (fun set => table.xorRows set.elements) =
      .ok (sets.map fun set => table.sumAt set.elements) := by
    apply mapM_eq_ok
    intro set member
    apply Table.xorRows_eq_sumAt
    intro element inSet
    exact domain ▸ (fresh.owns set member).lt_domain inSet
  refine ⟨⟨table.shape, setSizeFor table.rowCount, seed,
    sets.map fun set => table.sumAt set.elements⟩, ?_, ?_, ?_⟩
  · rw [setSums, if_pos large]
    simp only [bind, Except.bind, made, isDrawn, areSums]
    rfl
  · rw [List.length_map, length]
  · have made : SetGenerator.make seed 0 table.shape.rowCount (setSizeFor table.rowCount) =
        .ok generator := made
    rw [SetSums.draws, made]

/-- The sets over three rows have two elements. -/
theorem Table.exists_setSums_of_three_rows {table : Table} (rowCount : table.rowCount = 3)
    {seed : Label} {multiplier : Nat} {generator : SetGenerator}
    (made : SetGenerator.make seed 0 3 2 = .ok generator)
    (left : generator.drawsMany (setCount multiplier 3 2) < 2 ^ 32) :
    ∃ sums, table.setSums seed multiplier = .ok sums ∧ sums.setSize = 2 ∧
      sums.sums.length = setCount multiplier 3 2 ∧
      sums.draws = generator.drawsMany (setCount multiplier 3 2) := by
  obtain ⟨large, isSize⟩ : supportsSets 3 = true ∧ setSizeFor 3 = 2 := by decide +kernel
  obtain ⟨sums, isHint, length, draws⟩ := Table.exists_setSums (rowCount ▸ large)
    (by rwa [rowCount, isSize]) (by rwa [rowCount, isSize])
  obtain ⟨-, -, -, -, -, -, -, size, -⟩ := Table.of_setSums isHint
  rw [rowCount, isSize] at length size
  exact ⟨sums, isHint, size, length, length ▸ draws⟩

namespace PuncturedClient

/-- A client is made of every honest hint. -/
theorem exists_ofHint {table : Table} {seed : Label} {multiplier : Nat} {sums : SetSums}
    (isHint : table.setSums seed multiplier = .ok sums) (tape : Tape) :
    ∃ client later, ofHint sums tape = .ok (client, later) := by
  obtain ⟨generator, sets, hinted, isGenerator, isDrawn, areSums, -, -, -⟩ :=
    Table.of_setSums isHint
  obtain ⟨-, -, -, -, isTree⟩ := SetGenerator.of_make isGenerator
  rw [← SetGenerator.length_freshMany isDrawn, ← length_of_mapM_eq_ok areSums] at isDrawn
  rcases isLabel : tape.label with ⟨key, between⟩
  have isKey : Drawing.ofTape Tape.label tape = .ok (key, between) := congrArg _ isLabel
  have isCurrent : SetGenerator.make key hinted.nextNumber sums.shape.rowCount sums.setSize =
      .ok ⟨generator.tree, .ofKey key, hinted.nextNumber⟩ := by
    rw [SetGenerator.make, isTree]
    rfl
  obtain ⟨result, made⟩ : ∃ result, ofHint sums tape = .ok result := by
    rw [ofHint, Drawing.bind_of_ok (Drawing.liftM_of_ok isGenerator tape),
      Drawing.bind_of_ok (Drawing.liftM_of_ok isDrawn tape)]
    dsimp only
    rw [Drawing.bind_of_ok isKey,
      Drawing.bind_of_ok (Drawing.liftM_of_ok isCurrent between)]
    exact ⟨_, rfl⟩
  exact ⟨result.1, result.2, made⟩

/-- What a client that was made of a hint consists of. -/
theorem of_ofHint {sums : SetSums} {tape after : Tape} {client : PuncturedClient}
    (made : ofHint sums tape = .ok (client, after)) :
    ∃ generator sets,
      SetGenerator.make sums.seed 0 sums.shape.rowCount sums.setSize = .ok generator ∧
      SetGenerator.freshMany sums.sums.length generator = .ok (sets, client.hinted) ∧
      SetGenerator.make tape.label.1 client.hinted.nextNumber sums.shape.rowCount sums.setSize =
        .ok client.current ∧
      client.rowLength = sums.shape.rowLength ∧
      client.stored = (List.zipWith (fun set hint => ⟨set.handle, hint⟩) sets sums.sums).toArray ∧
      client.owner = sets.zipIdx.foldl (fun owner (set, slot) => own owner slot set.elements)
        (Array.replicate sums.shape.rowCount none) ∧
      after.word = tape.word := by
  rw [ofHint] at made
  obtain ⟨generator, isGenerator, drawSets⟩ := Drawing.of_liftM_bind_eq_ok made
  obtain ⟨⟨sets, hinted⟩, isDrawn, drawKey⟩ := Drawing.of_liftM_bind_eq_ok drawSets
  obtain ⟨key, _, isKey, makeCurrent⟩ := Drawing.of_bind_eq_ok drawKey
  obtain ⟨current, isCurrent, last⟩ := Drawing.of_liftM_bind_eq_ok makeCurrent
  cases isKey
  cases last
  exact ⟨generator, sets, isGenerator, isDrawn, isCurrent, rfl, rfl, rfl, rfl⟩

/-- A client has one stored set for every sum of its hint. -/
theorem size_stored_ofHint {sums : SetSums} {tape after : Tape} {client : PuncturedClient}
    (made : ofHint sums tape = .ok (client, after)) : client.stored.size = sums.sums.length := by
  obtain ⟨generator, sets, -, isDrawn, -, -, stored, -, -⟩ := of_ofHint made
  rw [stored, List.size_toArray, List.length_zipWith, SetGenerator.length_freshMany isDrawn,
    Nat.min_self]

/-- A slot that is noted once the rows of sets were noted has a set with the row. -/
theorem getElem?_foldl_own {pairs : List (KeyedSet × Nat)} {owner : Array (Option Nat)}
    {row noted : Nat}
    (held : (pairs.foldl (fun owner (set, slot) => own owner slot set.elements) owner)[row]? =
      some (some noted)) :
    (∃ set, (set, noted) ∈ pairs ∧ row ∈ set.elements) ∨ owner[row]? = some (some noted) := by
  induction pairs generalizing owner with
  | nil => exact Or.inr held
  | cons pair rest ih =>
      rcases ih held with ⟨set, inRest, member⟩ | before
      · exact Or.inl ⟨set, List.mem_cons_of_mem pair inRest, member⟩
      · rcases getElem?_own before with ⟨member, rfl⟩ | earlier
        · exact Or.inl ⟨pair.1, List.mem_cons_self, member⟩
        · exact Or.inr earlier

theorem size_foldl_own (pairs : List (KeyedSet × Nat)) (owner : Array (Option Nat)) :
    (pairs.foldl (fun owner (set, slot) => own owner slot set.elements) owner).size =
      owner.size := by
  induction pairs generalizing owner with
  | nil => rfl
  | cons pair rest ih => exact (ih _).trans (size_own owner pair.2 pair.1.elements)

/-- A client that stores the sets which a generator drew for a table, each with the sum of its
rows, and whose later sets have the numbers after theirs. -/
structure StoresDrawn (client : PuncturedClient) (table : Table) (generator : SetGenerator)
    (sets : List KeyedSet) : Prop where
  drawn : generator.DrawsMany sets client.hinted
  domain : generator.tree.domain = table.rowCount
  standard : generator.tree.children = Label.children
  twoElements : 2 ≤ generator.tree.size
  sameTree : client.current.tree = generator.tree
  nextNumber : client.current.nextNumber = client.hinted.nextNumber
  rowLength : client.rowLength = table.rowLength
  stored : client.stored.toList = sets.map fun set => ⟨set.handle, table.sumAt set.elements⟩
  owner : client.owner = sets.zipIdx.foldl (fun owner (set, slot) => own owner slot set.elements)
    (Array.replicate table.rowCount none)

/-- An honest hint makes a client that stores what the hint's generator drew. -/
theorem exists_storesDrawn {table : Table} {seed : Label} {multiplier : Nat} {sums : SetSums}
    (isHint : table.setSums seed multiplier = .ok sums) (left : sums.draws < 2 ^ 32)
    {tape after : Tape} {client : PuncturedClient}
    (made : ofHint sums tape = .ok (client, after)) :
    ∃ generator sets, client.StoresDrawn table generator sets ∧
      generator.nextNumber.toNat + generator.drawsMany sets.length = sums.draws := by
  obtain ⟨generator, sets, hinted, isGenerator, isDrawn, areSums, shape, -, twoElements⟩ :=
    Table.of_setSums isHint
  obtain ⟨generator', sets', isGenerator', isDrawn', isCurrent, rowLength, stored, owner, -⟩ :=
    of_ofHint made
  obtain rfl : generator = generator' := Except.ok.inj (isGenerator.symm.trans isGenerator')
  obtain ⟨domain, size, standard, start, treeFirst⟩ := SetGenerator.of_make isGenerator
  obtain ⟨-, -, -, startCurrent, treeCurrent⟩ := SetGenerator.of_make isCurrent
  -- The client draws as many sets as the server did, and so the same ones.
  have count : sums.sums.length =
      setCount multiplier table.rowCount (setSizeFor table.rowCount) := by
    rw [length_of_mapM_eq_ok areSums, SetGenerator.length_freshMany isDrawn]
  have draws : generator.nextNumber.toNat + generator.drawsMany sums.sums.length =
      sums.draws := by
    rw [SetSums.draws, isGenerator, start, UInt32.toNat_zero, Nat.zero_add]
  rw [← draws] at left
  obtain ⟨_, _, drawnMany, lengthSets, drawn⟩ := SetGenerator.exists_freshMany _ left
  rw [isDrawn', Except.ok.injEq, Prod.mk.injEq] at drawnMany
  obtain ⟨rfl, rfl⟩ := drawnMany
  rw [count] at isDrawn'
  rw [isDrawn', Except.ok.injEq, Prod.mk.injEq] at isDrawn
  obtain ⟨rfl, rfl⟩ := isDrawn
  rw [shape] at domain rowLength owner
  have domain : generator.tree.domain = table.rowCount := domain
  have sumsAre : sums.sums = sets'.map fun set => table.sumAt set.elements := by
    have exact : ∀ set ∈ sets',
        table.xorRows set.elements = .ok (table.sumAt set.elements) := by
      intro set member
      apply Table.xorRows_eq_sumAt
      intro element inSet
      exact domain ▸ (drawn.owns set member).lt_domain inSet
    rw [mapM_eq_ok exact] at areSums
    exact (Except.ok.inj areSums).symm
  refine ⟨generator, sets', ?_, by rw [lengthSets, draws]⟩
  exact
    { drawn := drawn
      domain := domain
      standard := standard
      twoElements := size ▸ twoElements
      sameTree := Except.ok.inj (treeCurrent.symm.trans treeFirst)
      nextNumber := startCurrent
      rowLength := rowLength
      stored := by rw [stored, sumsAre, List.zipWith_map_right, List.zipWith_self]
      owner := owner }

namespace StoresDrawn

variable {client : PuncturedClient} {table : Table} {generator : SetGenerator}
  {sets : List KeyedSet}

/-- The number of a stored set is one of the first generator, which rebuilds the set. -/
theorem rebuild_handle (stores : client.StoresDrawn table generator sets) {set : KeyedSet}
    (member : set ∈ sets) : client.rebuild set.handle = set := by
  have isHinted : set.handle.number < client.hinted.nextNumber :=
    UInt32.lt_iff_toNat_lt.mpr (stores.drawn.number_lt set member)
  rw [rebuild, generatorOf, if_pos isHinted]
  exact (SetGenerator.owns_congr stores.drawn.tree stores.drawn.cipher).mpr
    (stores.drawn.owns set member)

theorem getElem?_stored (stores : client.StoresDrawn table generator sets) {slot : Nat}
    {set : StoredSet} : client.stored[slot]? = some set ↔
      ∃ keyed, sets[slot]? = some keyed ∧ set = ⟨keyed.handle, table.sumAt keyed.elements⟩ := by
  rw [← Array.getElem?_toList, stores.stored, List.getElem?_map]
  cases sets[slot]? with
  | none => simp
  | some keyed => simp [eq_comm]

/-- What holds of every drawn set with its sum holds of every stored set. -/
theorem forall_stored (stores : client.StoresDrawn table generator sets)
    {property : StoredSet → Prop}
    (ofDrawn : ∀ set ∈ sets, property ⟨set.handle, table.sumAt set.elements⟩) :
    ∀ set ∈ client.stored.toList, property set := by
  intro set member
  rw [stores.stored] at member
  obtain ⟨keyed, isKeyed, rfl⟩ := List.mem_map.mp member
  exact ofDrawn keyed isKeyed

/-- The numbers of stored sets ascend with the slots. -/
theorem apart (stores : client.StoresDrawn table generator sets) {first second : Nat}
    {set other : StoredSet} (isFirst : client.stored[first]? = some set)
    (isSecond : client.stored[second]? = some other)
    (same : set.handle.number = other.handle.number) : first = second := by
  obtain ⟨keyedFirst, heldFirst, rfl⟩ := stores.getElem?_stored.mp isFirst
  obtain ⟨keyedSecond, heldSecond, rfl⟩ := stores.getElem?_stored.mp isSecond
  have inside : first < (sets.map fun set => set.handle.number.toNat).length := by
    rw [List.length_map]
    exact (List.getElem?_eq_some_iff.mp heldFirst).1
  apply (List.getElem?_inj inside stores.drawn.ascending.nodup).mp
  rw [List.getElem?_map, List.getElem?_map, heldFirst, heldSecond, Option.map_some,
    Option.map_some, same]

theorem notes (stores : client.StoresDrawn table generator sets) :
    client.Notes client.owner := by
  intro row slot noted
  rw [stores.owner] at noted
  rcases getElem?_foldl_own noted with ⟨set, isPair, member⟩ | before
  · have held := List.mem_zipIdx_iff_getElem?.mp isPair
    refine ⟨_, stores.getElem?_stored.mpr ⟨set, held, rfl⟩, ?_⟩
    rw [stores.rebuild_handle (List.mem_of_getElem? held)]
    exact member
  · rw [Array.getElem?_replicate] at before
    split at before
    · cases before
    · cases before

theorem two_le_setSize (stores : client.StoresDrawn table generator sets) :
    2 ≤ client.setSize := by
  rw [setSize, stores.drawn.tree]
  exact stores.twoElements

theorem size_owner (stores : client.StoresDrawn table generator sets) :
    client.owner.size = table.rowCount := by
  rw [stores.owner, size_foldl_own]
  exact Array.size_replicate

theorem distinct (stores : client.StoresDrawn table generator sets) :
    ∀ set ∈ client.stored.toList, (client.rebuild set.handle).elements.Nodup := by
  refine stores.forall_stored ?_
  intro set member
  rw [stores.rebuild_handle member]
  exact stores.drawn.distinct set member

theorem sound (stores : client.StoresDrawn table generator sets)
    (few : table.rowCount ≤ 2 ^ 32) : client.Sound table where
  rowLength := stores.rowLength
  domain := by
    rw [stores.drawn.tree]
    exact stores.domain
  sameTree := stores.sameTree.trans stores.drawn.tree.symm
  standard := stores.drawn.tree ▸ stores.standard
  twoElements := stores.two_le_setSize
  few := few
  inOrder := by rw [stores.nextNumber]
  number_lt := by
    refine stores.forall_stored ?_
    intro set member
    rw [stores.nextNumber]
    exact stores.drawn.number_lt set member
  apart := fun _ _ _ _ isFirst isSecond same => stores.apart isFirst isSecond same
  distinct := stores.distinct
  hint := by
    refine stores.forall_stored ?_
    intro set member
    rw [stores.rebuild_handle member]
  ownerSize := stores.size_owner
  notes := stores.notes

end StoresDrawn

/-- A client that is made of an honest hint is sound. -/
theorem sound_ofHint {table : Table} (few : table.rowCount ≤ 2 ^ 32) {seed : Label}
    {multiplier : Nat} {sums : SetSums} (isHint : table.setSums seed multiplier = .ok sums)
    (left : sums.draws < 2 ^ 32) {tape after : Tape} {client : PuncturedClient}
    (made : ofHint sums tape = .ok (client, after)) :
    client.Sound table ∧ client.hinted.nextNumber.toNat = sums.draws ∧
      client.current.nextNumber = client.hinted.nextNumber := by
  obtain ⟨generator, sets, stores, draws⟩ := exists_storesDrawn isHint left made
  exact ⟨stores.sound few, stores.drawn.nextNumber.trans draws, stores.nextNumber⟩

end PuncturedClient

end PrivateRetrieval
