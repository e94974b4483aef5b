/-
# Sound clients of the punctured scheme

A client of the punctured scheme is sound over a table if every stored hint is the sum of the
rows of its set, no two stored sets have the same number, and every slot that is noted for a row
has a set with that row. Notes may be missing: a search through the stored sets makes up for
that.

Looking for a row, drawing sets, and putting a set with its hint into a slot keep a client sound,
provided that the number of the set is in no other slot.
-/

import PrivateRetrieval.Proofs.Sets.Drawing
import PrivateRetrieval.Retrieval.PuncturedClient

namespace PrivateRetrieval

namespace PuncturedClient

/-- The set in a slot contains a row. -/
def Holds (client : PuncturedClient) (slot row : Nat) : Prop :=
  ∃ set, client.stored[slot]? = some set ∧ row ∈ (client.rebuild set.handle).elements

/-- Slots that are noted for rows have sets with these rows. -/
def Notes (client : PuncturedClient) (owner : Array (Option Nat)) : Prop :=
  ∀ row slot, owner[row]? = some (some slot) → client.Holds slot row

/-- Everything that a client stores is true of a table. -/
structure Sound (client : PuncturedClient) (table : Table) : Prop where
  rowLength : client.rowLength = table.rowLength
  domain : client.hinted.tree.domain = table.rowCount
  sameTree : client.current.tree = client.hinted.tree
  standard : client.hinted.tree.children = Label.children
  twoElements : 2 ≤ client.setSize
  /-- Row numbers fit a word of 32 bits. -/
  few : table.rowCount ≤ 2 ^ 32
  inOrder : client.hinted.nextNumber.toNat ≤ client.current.nextNumber.toNat
  number_lt : ∀ set ∈ client.stored.toList,
    set.handle.number.toNat < client.current.nextNumber.toNat
  /-- No two stored sets have the same number. -/
  apart : ∀ (first second : Nat) (set other : StoredSet), client.stored[first]? = some set →
    client.stored[second]? = some other → set.handle.number = other.handle.number → first = second
  distinct : ∀ set ∈ client.stored.toList, (client.rebuild set.handle).elements.Nodup
  /-- The hint of a set is the sum of its rows. -/
  hint : ∀ set ∈ client.stored.toList,
    set.hint = table.sumAt (client.rebuild set.handle).elements
  ownerSize : client.owner.size = table.rowCount
  notes : client.Notes client.owner

section Owners

variable {owner : Array (Option Nat)} {slot : Nat}

theorem size_own (owner : Array (Option Nat)) (slot : Nat) (rows : List Nat) :
    (own owner slot rows).size = owner.size := by
  induction rows generalizing owner with
  | nil => rfl
  | cons row rest ih => exact (ih _).trans Array.size_setIfInBounds

theorem size_disown (owner : Array (Option Nat)) (slot : Nat) (rows : List Nat) :
    (disown owner slot rows).size = owner.size := by
  induction rows generalizing owner with
  | nil => rfl
  | cons row rest ih =>
      refine (ih _).trans ?_
      dsimp only
      split
      · exact Array.size_setIfInBounds
      · rfl

/-- A slot that is noted after a row was noted is the new slot, or it was noted before. -/
theorem getElem?_setIfInBounds_some {row other noted : Nat}
    (held : (owner.setIfInBounds row (some slot))[other]? = some (some noted)) :
    (other = row ∧ noted = slot) ∨ owner[other]? = some (some noted) := by
  rw [Array.getElem?_setIfInBounds] at held
  split at held
  · rename_i same
    split at held
    · cases held
      exact Or.inl ⟨same.symm, rfl⟩
    · cases held
  · exact Or.inr held

theorem getElem?_own {rows : List Nat} {other noted : Nat}
    (held : (own owner slot rows)[other]? = some (some noted)) :
    (other ∈ rows ∧ noted = slot) ∨ owner[other]? = some (some noted) := by
  induction rows generalizing owner with
  | nil => exact Or.inr held
  | cons row rest ih =>
      rcases ih held with ⟨inRest, same⟩ | before
      · exact Or.inl ⟨List.mem_cons_of_mem row inRest, same⟩
      · rcases getElem?_setIfInBounds_some before with ⟨rfl, same⟩ | earlier
        · exact Or.inl ⟨List.mem_cons_self, same⟩
        · exact Or.inr earlier

/-- A slot that is still noted after rows were taken away was noted before, and it is another
slot or the row is none of those. -/
theorem getElem?_disown {rows : List Nat} {other noted : Nat}
    (held : (disown owner slot rows)[other]? = some (some noted)) :
    owner[other]? = some (some noted) ∧ (noted = slot → other ∉ rows) := by
  induction rows generalizing owner with
  | nil => exact ⟨held, fun _ => List.not_mem_nil⟩
  | cons row rest ih =>
      obtain ⟨before, elsewhere⟩ := ih held
      dsimp only at before
      split at before
      · rename_i taken
        rw [Array.getElem?_setIfInBounds] at before
        split at before
        · split at before
          · cases before
          · cases before
        · rename_i different
          refine ⟨before, ?_⟩
          intro same inRows
          rcases List.mem_cons.mp inRows with rfl | inRest
          · exact different rfl
          · exact elsewhere same inRest
      · rename_i kept
        refine ⟨before, ?_⟩
        intro same inRows
        rcases List.mem_cons.mp inRows with rfl | inRest
        · exact kept (same ▸ before)
        · exact elsewhere same inRest

end Owners

variable {client : PuncturedClient} {table : Table}

/-- What a handle stands for depends on the keys and the tree alone. -/
theorem rebuild_congr {before after : PuncturedClient} (hinted : after.hinted = before.hinted)
    (tree : after.current.tree = before.current.tree)
    (cipher : after.current.cipher = before.current.cipher) (handle : SetHandle) :
    after.rebuild handle = before.rebuild handle := by
  rw [rebuild, rebuild, generatorOf, generatorOf, hinted]
  split
  · rfl
  · rw [SetGenerator.rebuild, SetGenerator.rebuild, SetGenerator.rootOf, SetGenerator.rootOf, tree,
      cipher]

namespace Sound

theorem tree_generatorOf (sound : client.Sound table) (handle : SetHandle) :
    (client.generatorOf handle).tree = client.hinted.tree := by
  rw [generatorOf]
  split
  · rfl
  · exact sound.sameTree

theorem domain_current (sound : client.Sound table) :
    client.current.tree.domain = table.rowCount := by
  rw [sound.sameTree, sound.domain]

theorem size_current (sound : client.Sound table) : client.current.tree.size = client.setSize := by
  rw [sound.sameTree, setSize]

theorem setSize_le (sound : client.Sound table) : client.setSize ≤ table.rowCount := by
  rw [← sound.domain]
  exact client.hinted.tree.size_le

theorem contains_rebuild (sound : client.Sound table) (handle : SetHandle) :
    table.Contains (client.rebuild handle).elements := by
  intro element member
  have inside := (SetGenerator.owns_rebuild (client.generatorOf handle) handle).lt_domain member
  rwa [sound.tree_generatorOf, sound.domain] at inside

theorem length_rebuild (sound : client.Sound table) (handle : SetHandle) :
    (client.rebuild handle).elements.length = client.setSize := by
  have length := (SetGenerator.owns_rebuild (client.generatorOf handle) handle).length_elements
  rwa [sound.tree_generatorOf] at length

/-- Every stored set has a row. -/
theorem exists_holds (sound : client.Sound table) {slot : Nat}
    (inside : slot < client.stored.size) : ∃ row, client.Holds slot row := by
  have filled : 0 < (client.rebuild client.stored[slot].handle).elements.length := by
    rw [sound.length_rebuild]
    exact Nat.two_pos.trans_le sound.twoElements
  exact ⟨_, client.stored[slot], Array.getElem?_eq_getElem inside, List.getElem_mem filled⟩

theorem contains_current (sound : client.Sound table) {set : KeyedSet}
    (owns : client.current.Owns set) : table.Contains set.elements := by
  intro element member
  rw [← sound.domain_current]
  exact owns.lt_domain member

/-- What is known of the set in a slot. -/
theorem stored (sound : client.Sound table) {slot : Nat} {set : StoredSet}
    (held : client.stored[slot]? = some set) :
    set.hint = table.sumAt (client.rebuild set.handle).elements ∧
      (client.rebuild set.handle).elements.Nodup ∧
      set.handle.number.toNat < client.current.nextNumber.toNat := by
  have member : set ∈ client.stored.toList := by
    rw [← Array.getElem?_toList] at held
    exact List.mem_of_getElem? held
  exact ⟨sound.hint set member, sound.distinct set member, sound.number_lt set member⟩

/-- A slot with a row of a set is a slot, and the row is one of the table. -/
theorem lt_of_holds (sound : client.Sound table) {slot row : Nat} (holds : client.Holds slot row) :
    row < table.rowCount := by
  obtain ⟨set, -, member⟩ := holds
  exact sound.contains_rebuild set.handle row member

/-- Other notes that are true keep a client sound. -/
theorem withOwner (sound : client.Sound table) {owner : Array (Option Nat)}
    (size : owner.size = table.rowCount) (notes : client.Notes owner) :
    Sound { client with owner } table :=
  { sound with ownerSize := size, notes := notes }

/-- A generator that has moved on keeps a client sound. -/
theorem withCurrent (sound : client.Sound table) {set : KeyedSet} {current : SetGenerator}
    (draws : client.current.Draws set current) : Sound { client with current } table := by
  have same : ∀ handle, rebuild { client with current } handle = client.rebuild handle :=
    rebuild_congr rfl draws.tree draws.cipher
  have later := (draws.number_ge.trans_lt draws.number_lt).le
  refine
    { sound with
      sameTree := draws.tree.trans sound.sameTree
      inOrder := sound.inOrder.trans later
      number_lt := fun set member => (sound.number_lt set member).trans_le later
      distinct := ?_
      hint := ?_
      notes := ?_ }
  · intro set member
    rw [same]
    exact sound.distinct set member
  · intro set member
    rw [same]
    exact sound.hint set member
  · intro row slot noted
    obtain ⟨set, held, inSet⟩ := sound.notes row slot noted
    exact ⟨set, held, by rwa [same]⟩

end Sound

/-- A search through a set finds the row if it is there, and notes true slots. -/
theorem scanSet_spec (row : Nat) {slot : Nat} {elements : List Nat} {owner : Array (Option Nat)}
    (holds : ∀ element ∈ elements, client.Holds slot element) (notes : client.Notes owner) :
    ((scanSet row slot elements owner).1 = true ↔ row ∈ elements) ∧
      (scanSet row slot elements owner).2.size = owner.size ∧
      client.Notes (scanSet row slot elements owner).2 := by
  induction elements generalizing owner with
  | nil => exact ⟨by simp [scanSet], rfl, notes⟩
  | cons element rest ih =>
      rw [scanSet]
      by_cases found : element = row
      · rw [if_pos found]
        exact ⟨by simp [found], rfl, notes⟩
      · rw [if_neg found]
        have noted : client.Notes (owner.setIfInBounds element (some slot)) := by
          intro other place held
          rcases getElem?_setIfInBounds_some held with ⟨rfl, rfl⟩ | before
          · exact holds other List.mem_cons_self
          · exact notes other place before
        obtain ⟨finds, size, notesRest⟩ :=
          ih (fun other member => holds other (List.mem_cons_of_mem element member)) noted
        refine ⟨?_, size.trans Array.size_setIfInBounds, notesRest⟩
        rw [finds, List.mem_cons]
        exact ⟨Or.inr, fun either => either.resolve_left (Ne.symm found)⟩

/-- A search through the stored sets finds a slot with the row if there is one. -/
theorem scan_spec (row : Nat) {sets : List (StoredSet × Nat)} {owner : Array (Option Nat)}
    (stored : ∀ set slot, (set, slot) ∈ sets → client.stored[slot]? = some set)
    (notes : client.Notes owner) :
    (∀ slot, (client.scan row sets owner).1 = some slot → client.Holds slot row) ∧
      ((client.scan row sets owner).1 = none →
        ∀ set slot, (set, slot) ∈ sets → row ∉ (client.rebuild set.handle).elements) ∧
      (client.scan row sets owner).2.size = owner.size ∧
      client.Notes (client.scan row sets owner).2 := by
  induction sets generalizing owner with
  | nil =>
      refine ⟨?_, ?_, rfl, notes⟩
      · intro slot found
        cases found
      · intro _ set slot member
        cases member
  | cons pair rest ih =>
      obtain ⟨set, slot⟩ := pair
      have held := stored set slot List.mem_cons_self
      have holds : ∀ element ∈ (client.rebuild set.handle).elements, client.Holds slot element :=
        fun element member => ⟨set, held, member⟩
      obtain ⟨finds, size, notesSet⟩ := scanSet_spec row holds notes
      rw [scan]
      rcases scanned : scanSet row slot (client.rebuild set.handle).elements owner
        with ⟨_ | _, noted⟩
      · rw [scanned] at finds size notesSet
        obtain ⟨found, missed, sizeRest, notesRest⟩ :=
          ih (fun other place member => stored other place (List.mem_cons_of_mem _ member)) notesSet
        refine ⟨found, ?_, sizeRest.trans size, notesRest⟩
        intro absent other place member
        rcases List.mem_cons.mp member with same | inRest
        · cases same
          exact fun inSet => Bool.false_ne_true (finds.mpr inSet)
        · exact missed absent other place inRest
      · rw [scanned] at finds size notesSet
        refine ⟨?_, fun absent => (nomatch absent), size, notesSet⟩
        intro place found
        cases found
        exact ⟨set, held, finds.mp rfl⟩

/-- Looking for a row changes no more than the notes. -/
theorem exists_locate_eq (client : PuncturedClient) (row : Nat) :
    ∃ slot owner, client.locate row = (slot, { client with owner }) := by
  rw [locate]
  split
  · exact ⟨none, client.owner, rfl⟩
  · exact ⟨_, client.owner, rfl⟩
  · exact ⟨_, _, rfl⟩

/-- Looking for a row finds a slot with it if there is one, and the notes stay true, if there is a
place for the note of every row of a stored set. -/
theorem locate_of_notes (notes : client.Notes client.owner)
    (inside : ∀ slot row, client.Holds slot row → row < client.owner.size) (row : Nat) :
    (client.locate row).2.owner.size = client.owner.size ∧
      client.Notes (client.locate row).2.owner ∧
      (∀ slot, (client.locate row).1 = some slot → client.Holds slot row) ∧
      ((client.locate row).1 = none → ∀ slot, ¬ client.Holds slot row) := by
  rw [locate]
  cases noted : client.owner[row]? with
  | none =>
      refine ⟨rfl, notes, fun slot found => (nomatch found), ?_⟩
      intro _ slot holds
      rw [Array.getElem?_eq_getElem (inside slot row holds)] at noted
      cases noted
  | some owner =>
      cases owner with
      | some slot =>
          refine ⟨rfl, notes, fun place found => ?_, fun absent => (nomatch absent)⟩
          cases found
          exact notes row slot noted
      | none =>
          have stored : ∀ set slot, (set, slot) ∈ client.stored.toList.zipIdx →
              client.stored[slot]? = some set := by
            intro set slot member
            rw [← Array.getElem?_toList]
            exact List.mem_zipIdx_iff_getElem?.mp member
          obtain ⟨found, missed, size, scanned⟩ := scan_spec row stored notes
          refine ⟨size, scanned, found, fun absent slot holds => ?_⟩
          obtain ⟨set, held, member⟩ := holds
          rw [← Array.getElem?_toList] at held
          exact missed absent set slot (List.mem_zipIdx_iff_getElem?.mpr held) member

/-- A sound client that looks for a row stays sound. -/
theorem locate_spec (sound : client.Sound table) (row : Nat) :
    (client.locate row).2.Sound table ∧
      (∀ slot, (client.locate row).1 = some slot → client.Holds slot row) ∧
      ((client.locate row).1 = none → ∀ slot, ¬ client.Holds slot row) := by
  obtain ⟨slot, owner, located⟩ := exists_locate_eq client row
  obtain ⟨size, notes, found⟩ := locate_of_notes sound.notes
    (fun slot row holds => sound.ownerSize ▸ sound.lt_of_holds holds) row
  rw [located] at size notes found ⊢
  exact ⟨sound.withOwner (size.trans sound.ownerSize) notes, found⟩

theorem rebuild_of_owns {set : KeyedSet} (owns : client.current.Owns set)
    (later : client.hinted.nextNumber.toNat ≤ set.handle.number.toNat) :
    client.rebuild set.handle = set := by
  have notHinted : ¬ set.handle.number < client.hinted.nextNumber := by
    rw [UInt32.lt_iff_toNat_lt]
    exact Nat.not_lt.mpr later
  rw [rebuild, generatorOf, if_neg notHinted]
  exact owns

/-- After a replacement a set is the replacement in its slot, or was stored in another slot. -/
theorem getElem?_setIfInBounds_iff {stored : Array StoredSet} {slot : Nat}
    (inside : slot < stored.size) (replacement : StoredSet) (other : Nat) (set : StoredSet) :
    (stored.setIfInBounds slot replacement)[other]? = some set ↔
      (other = slot ∧ set = replacement) ∨ (other ≠ slot ∧ stored[other]? = some set) := by
  rw [Array.getElem?_setIfInBounds]
  by_cases same : slot = other
  · subst same
    simp [inside, eq_comm]
  · simp [same, Ne.symm same]

/-- What holds of the replacement and of all stored sets holds of all sets after a replacement. -/
theorem forall_setIfInBounds {stored : Array StoredSet} {slot : Nat} {replacement : StoredSet}
    {property : StoredSet → Prop} (ofReplacement : property replacement)
    (ofStored : ∀ set ∈ stored.toList, property set) :
    ∀ set ∈ (stored.setIfInBounds slot replacement).toList, property set := by
  intro set member
  rw [Array.toList_setIfInBounds] at member
  rcases List.mem_or_eq_of_mem_set member with old | rfl
  · exact ofStored set old
  · exact ofReplacement

/-- Notes stay true when a set is replaced: a slot that is still noted was not the one that was
replaced, or it was noted just now. -/
theorem Notes.replace (notes : client.Notes client.owner) {slot : Nat} {used : StoredSet}
    (held : client.stored[slot]? = some used) {replacement : StoredSet} {elements : List Nat}
    (rebuilt : (client.rebuild replacement.handle).elements = elements)
    (owner : Array (Option Nat)) :
    Notes { client with stored := client.stored.setIfInBounds slot replacement, owner }
      (own (disown client.owner slot (client.rebuild used.handle).elements) slot elements) := by
  obtain ⟨inside, -⟩ := Array.getElem?_eq_some_iff.mp held
  have slots := getElem?_setIfInBounds_iff inside replacement
  intro row place noted
  rcases getElem?_own noted with ⟨inSet, rfl⟩ | before
  · refine ⟨replacement, (slots place replacement).mpr (Or.inl ⟨rfl, rfl⟩), ?_⟩
    show row ∈ (client.rebuild replacement.handle).elements
    rw [rebuilt]
    exact inSet
  · obtain ⟨noted, notTaken⟩ := getElem?_disown before
    obtain ⟨stored, isStored, member⟩ := notes row place noted
    refine ⟨stored, (slots place stored).mpr (Or.inr ⟨fun same => ?_, isStored⟩), member⟩
    rw [same, held] at isStored
    cases isStored
    exact notTaken same member

/-- Replacing a set hands the rows of the old one back and notes those of the new one. -/
theorem replace_eq (sound : client.Sound table) {slot : Nat} {used : StoredSet}
    (held : client.stored[slot]? = some used) {set : KeyedSet} {sum : Row}
    (contains : table.Contains set.elements) :
    client.replace slot set sum =
      .ok { client with
        stored := client.stored.setIfInBounds slot ⟨set.handle, sum⟩
        owner := own (disown client.owner slot (client.rebuild used.handle).elements) slot
          set.elements } := by
  have allInside : set.elements.all (· < client.owner.size) = true := by
    rw [List.all_eq_true]
    intro element member
    rw [sound.ownerSize]
    exact decide_eq_true (contains element member)
  rw [replace, setAt, held]
  simp only [bind, Except.bind]
  rw [if_pos allInside]
  rfl

/-- Putting a set with its hint into a slot keeps a client sound, if the set is drawn from the
later generator and its number is in no other slot. -/
theorem replace_spec (sound : client.Sound table) {slot : Nat} {used : StoredSet}
    (held : client.stored[slot]? = some used) {set : KeyedSet} (owns : client.current.Owns set)
    (later : client.hinted.nextNumber.toNat ≤ set.handle.number.toNat)
    (number_lt : set.handle.number.toNat < client.current.nextNumber.toNat)
    (distinct : set.elements.Nodup)
    (apart : ∀ other stored, client.stored[other]? = some stored →
      stored.handle.number = set.handle.number → other = slot) :
    ∃ owner, client.replace slot set (table.sumAt set.elements) =
        .ok { client with
          stored := client.stored.setIfInBounds slot ⟨set.handle, table.sumAt set.elements⟩
          owner } ∧
      Sound { client with
        stored := client.stored.setIfInBounds slot ⟨set.handle, table.sumAt set.elements⟩
        owner } table := by
  obtain ⟨inside, -⟩ := Array.getElem?_eq_some_iff.mp held
  set replacement : StoredSet := ⟨set.handle, table.sumAt set.elements⟩
  have rebuilt := rebuild_of_owns owns later
  have slots := getElem?_setIfInBounds_iff inside replacement
  refine ⟨_, replace_eq sound held (sound.contains_current owns), ?_⟩
  refine
    { sound with
      number_lt := forall_setIfInBounds number_lt sound.number_lt
      apart := ?_
      distinct := forall_setIfInBounds ?_ sound.distinct
      hint := forall_setIfInBounds ?_ sound.hint
      ownerSize := ?_
      notes := ?_ }
  · intro first second stored other isFirst isSecond same
    rcases (slots first stored).mp isFirst with ⟨rfl, rfl⟩ | ⟨-, oldFirst⟩
    · rcases (slots second other).mp isSecond with ⟨rfl, -⟩ | ⟨-, oldSecond⟩
      · rfl
      · exact (apart second other oldSecond same.symm).symm
    · rcases (slots second other).mp isSecond with ⟨rfl, rfl⟩ | ⟨-, oldSecond⟩
      · exact apart first stored oldFirst same
      · exact sound.apart first second stored other oldFirst oldSecond same
  · show (client.rebuild set.handle).elements.Nodup
    rw [rebuilt]
    exact distinct
  · show table.sumAt set.elements = table.sumAt (client.rebuild set.handle).elements
    rw [rebuilt]
  · rw [size_own, size_disown, sound.ownerSize]
  · exact sound.notes.replace held (congrArg KeyedSet.elements rebuilt) _

end PuncturedClient

end PrivateRetrieval
