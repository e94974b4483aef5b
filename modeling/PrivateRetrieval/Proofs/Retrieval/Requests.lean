/-
# Whatever a server is asked

A message is as whoever sent it wrote it, so a server can be asked anything. Under its checks lie
conditions that its own functions put on their callers: a set has an element and fits into its
domain, its copath is as long as its tree is high, rows that are added have one length, a bit or
a column that is read is there. A caller that does not keep such a condition is stopped for good.

Here every such condition is shown to follow from the checks that a server makes of the message,
for every table. A range of a table is a table, so nothing more is to be said about ranges. What
the checks let through is described by conditions on the fields of the message, and whatever is let
through is answered with rows of the lengths that a client of the table expects. The rest is
refused.
-/

import PrivateRetrieval.Proofs.Hints.Preparation
import PrivateRetrieval.Proofs.Number.Roots
import PrivateRetrieval.Proofs.Retrieval.ShapeQueries
import PrivateRetrieval.Proofs.Table.Ranges
import PrivateRetrieval.Store.Message

namespace PrivateRetrieval

section Requirements

section Fields

variable (shape : Shape)

/-- What is asked of a query for a punctured set over a table. -/
structure SetQuery.Fits (query : SetQuery) : Prop where
  /-- The domain lies within the table. -/
  domain : query.set.domain ≤ shape.rowCount
  /-- The domain holds the set before it was punctured. -/
  size : query.set.size + 1 ≤ query.set.domain
  /-- The missing element was one of the set. -/
  hole : query.set.hole ≤ query.set.size
  /-- There is one label for each level of the tree. -/
  copath : query.set.copath.length = Nat.clog 2 (query.set.size + 1)
  /-- The other row is one of the table. -/
  extra : query.extra < shape.rowCount

/-- What is asked of a query over a table. -/
def Query.Fits : Query → Prop
  | .puncturedSets query => query.Fits shape
  | .pointFunction share => share.corrections.length = Nat.clog 2 shape.rowCount
  | .matrix lines => lines.length = shape.grid.height
  | .plain index => index < shape.rowCount

/-- An answer belongs to the scheme of a query, and its rows have the lengths that a client of the
table expects. -/
def Answer.Suits : Query → Answer → Prop
  | .puncturedSets _, .puncturedSets answer =>
      answer.sum.length = shape.rowLength ∧ answer.extra.length = shape.rowLength
  | .pointFunction _, .pointFunction sum => sum.length = shape.rowLength
  | .matrix _, .matrix line => line.length = shape.grid.width * shape.rowLength
  | .plain _, .plain row => row.length = shape.rowLength
  | _, _ => False

/-- The boundaries of a layered query delimit ranges of a table, one for each query, and every
query fits its range. -/
def LayeredQuery.Fits (layered : LayeredQuery) : Prop :=
  layered.boundaries.length = layered.queries.length + 1 ∧
    ∀ (index : Nat) (query : Query) (first last : Nat), layered.queries[index]? = some query →
      layered.boundaries[index]? = some first → layered.boundaries[index + 1]? = some last →
      first ≤ last ∧ last ≤ shape.rowCount ∧ query.Fits ⟨last - first, shape.rowLength⟩

/-- There is one answer for each query of a layered query, and it suits that query over its
range. -/
def LayeredQuery.SuitedBy (layered : LayeredQuery) (answers : List Answer) : Prop :=
  answers.length = layered.queries.length ∧
    ∀ (index : Nat) (query : Query) (first last : Nat), layered.queries[index]? = some query →
      layered.boundaries[index]? = some first → layered.boundaries[index + 1]? = some last →
      ∃ answer, answers[index]? = some answer ∧ answer.Suits ⟨last - first, shape.rowLength⟩ query

end Fields

variable {shape : Shape} {query : Query} {queries : List Query} {first last : Nat}
  {boundaries : List Nat}

/-- What a layered query asks for is what its first query and the others ask for. -/
theorem LayeredQuery.fits_cons_iff (length : (last :: boundaries).length = queries.length + 1) :
    Fits shape ⟨query :: queries, first :: last :: boundaries⟩ ↔
      (first ≤ last ∧ last ≤ shape.rowCount ∧ query.Fits ⟨last - first, shape.rowLength⟩) ∧
        Fits shape ⟨queries, last :: boundaries⟩ := by
  constructor
  · intro fits
    exact ⟨fits.2 0 query first last rfl rfl rfl, length, fun index => fits.2 (index + 1)⟩
  · rintro ⟨head, -, rest⟩
    refine ⟨congrArg Nat.succ length, fun index other start stop => ?_⟩
    cases index with
    | zero =>
        rintro ⟨rfl⟩ ⟨rfl⟩ ⟨rfl⟩
        exact head
    | succ index => exact rest index other start stop

/-- An answer to the first query, before those to the others. -/
theorem LayeredQuery.SuitedBy.cons {answer : Answer} {answers : List Answer}
    (rest : SuitedBy shape ⟨queries, last :: boundaries⟩ answers)
    (suits : answer.Suits ⟨last - first, shape.rowLength⟩ query) :
    SuitedBy shape ⟨query :: queries, first :: last :: boundaries⟩ (answer :: answers) := by
  refine ⟨congrArg Nat.succ rest.1, fun index other start stop => ?_⟩
  cases index with
  | zero =>
      rintro ⟨rfl⟩ ⟨rfl⟩ ⟨rfl⟩
      exact ⟨answer, rfl, suits⟩
  | succ index => exact rest.2 index other start stop

end Requirements

/-- A call gives a suitable value where a condition is met, and is refused elsewhere. -/
def Decides {α : Type} (met : Prop) (suits : α → Prop) (result : Outcome α) : Prop :=
  (met ∧ ∃ value, result = .ok value ∧ suits value) ∨
    (¬ met ∧ ∃ failure, result = .error failure ∧ failure.isRefusal = true)

namespace Decides

variable {α β : Type} {met : Prop} {suits : α → Prop} {result : Outcome α}

theorem of_ok {value : α} (holds : met) (given : result = .ok value) (suitable : suits value) :
    Decides met suits result :=
  .inl ⟨holds, value, given, suitable⟩

theorem of_error {failure : Failure} (fails : ¬ met) (refused : result = .error failure)
    (refusal : failure.isRefusal = true) : Decides met suits result :=
  .inr ⟨fails, failure, refused, refusal⟩

/-- A value that is wrapped afterwards. -/
theorem map {wrap : α → β} {suitsWrapped : β → Prop} (decides : Decides met suits result)
    (suitable : ∀ value, suits value → suitsWrapped (wrap value)) :
    Decides met suitsWrapped (wrap <$> result) := by
  rcases decides with ⟨holds, value, rfl, suit⟩ | ⟨fails, failure, rfl, refusal⟩
  · exact of_ok holds rfl (suitable value suit)
  · exact of_error fails rfl refusal

end Decides

/-- A punctured set whose fields fit together is evaluated, and its elements are in its domain. -/
theorem PuncturedSet.exists_elements {set : PuncturedSet} (size : set.size + 1 ≤ set.domain)
    (hole : set.hole ≤ set.size) (copath : set.copath.length = treeHeight (set.size + 1)) :
    ∃ elements, set.elements = .ok elements ∧ ∀ element ∈ elements, element < set.domain := by
  let tree : SetTree := ⟨set.domain, set.size + 1, Nat.succ_pos _, size, Label.children⟩
  have made : SetTree.make set.domain (set.size + 1) = .ok tree :=
    @SetTree.make_eq_self tree rfl
  obtain ⟨unshifted, evaluated, -, inside⟩ :=
    tree.elementsExcept_of_length copath (Nat.lt_succ_of_le hole)
  refine ⟨shiftElements set.domain set.shift unshifted, ?_, fun element member => ?_⟩
  · rw [PuncturedSet.elements, made]
    simp only [bind, Except.bind, evaluated]
    rfl
  · exact lt_of_mem_shiftElements tree.domain_pos set.shift inside member

namespace Table

variable (table : Table)

theorem row_decides (index : Nat) :
    Decides (index < table.rowCount) (·.length = table.rowLength) (table.row index) := by
  by_cases inside : index < table.rowCount
  · exact .of_ok inside (row_eq_rowAt inside) (length_rowAt inside)
  · exact .of_error inside (dif_neg inside) rfl

theorem answerSet_decides (query : SetQuery) :
    Decides (query.Fits table.shape)
      (fun answer => answer.sum.length = table.rowLength ∧ answer.extra.length = table.rowLength)
      (table.answerSet query) := by
  rw [answerSet]
  by_cases beyond : table.rowCount < query.set.domain
  · exact .of_error (fun fits => Nat.not_le_of_lt beyond fits.domain) (if_pos beyond) rfl
  rw [if_neg beyond]
  by_cases malformed : query.set.domain < query.set.size + 1 ∨
      query.set.size + 1 ≤ query.set.hole ∨
      query.set.copath.length ≠ treeHeight (query.set.size + 1)
  · refine .of_error (fun fits => ?_) (if_pos malformed) rfl
    rcases malformed with small | outside | length
    · exact Nat.not_le_of_lt small fits.size
    · exact Nat.not_le_of_lt outside fits.hole
    · exact length ((treeHeight_eq_clog _).symm ▸ fits.copath)
  rw [if_neg malformed]
  obtain ⟨size, hole, copath⟩ := not_or.mp malformed |>.imp Nat.not_lt.mp not_or.mp
  have hole : query.set.hole ≤ query.set.size := Nat.le_of_lt_succ (Nat.not_le.mp hole)
  have copath := not_not.mp copath
  obtain ⟨elements, evaluated, inside⟩ := PuncturedSet.exists_elements size hole copath
  have contains : table.Contains elements := fun element member =>
    Nat.lt_of_lt_of_le (inside element member) (Nat.not_lt.mp beyond)
  simp only [bind, Except.bind, evaluated, xorRows_eq_sumAt contains]
  rcases table.row_decides query.extra with
    ⟨extra, row, read, length⟩ | ⟨extra, failure, refused, refusal⟩
  · rw [read]
    exact .of_ok ⟨Nat.not_lt.mp beyond, size, hole, treeHeight_eq_clog _ ▸ copath, extra⟩ rfl
      ⟨length_sumAt contains, length⟩
  · rw [refused]
    exact .of_error (fun fits => extra fits.extra) rfl refusal

theorem answerShare_decides (share : PointShare) :
    Decides (share.corrections.length = Nat.clog 2 table.rowCount) (·.length = table.rowLength)
      (table.answerShare share) := by
  rw [← treeHeight_eq_clog]
  by_cases depth : share.corrections.length = treeHeight table.rowCount
  · exact .of_ok depth (answerShare_eq depth)
      (Row.length_sum_select fun row member => (table.fits_rows row member).1)
  · exact .of_error depth (if_pos depth) rfl

theorem answerLines_decides (lines : List Bool) :
    Decides (lines.length = table.shape.grid.height)
      (·.length = table.shape.grid.width * table.rowLength) (table.answerLines lines) := by
  by_cases fits : lines.length = table.shape.grid.height
  · refine .of_ok fits (answerLines_eq fits) (Row.length_sum_select fun line member => ?_)
    obtain ⟨index, -, rfl⟩ := List.mem_map.mp member
    exact length_line _ index
  · exact .of_error fits (if_neg fits) rfl

/-- A query is answered if it fits the table, and refused if it does not. -/
theorem answer_decides (query : Query) :
    Decides (query.Fits table.shape) (Answer.Suits table.shape query) (table.answer query) := by
  cases query with
  | puncturedSets query => exact (table.answerSet_decides query).map fun answer suits => suits
  | pointFunction share => exact (table.answerShare_decides share).map fun sum suits => suits
  | matrix lines => exact (table.answerLines_decides lines).map fun line suits => suits
  | plain index => exact (table.row_decides index).map fun row suits => suits

theorem slice_decides (first last : Nat) :
    Decides (first ≤ last ∧ last ≤ table.rowCount)
      (fun range => range.shape = ⟨last - first, table.rowLength⟩) (table.slice first last) := by
  by_cases inside : first ≤ last ∧ last ≤ table.rowCount
  · obtain ⟨range, given, rowLength, -, rowCount⟩ := exists_slice inside.1 inside.2
    exact .of_ok inside given (by rw [shape, rowCount, rowLength])
  · have outside : last < first ∨ table.rowCount < last := by omega
    exact .of_error inside (if_pos outside) rfl

/-- A query for a range is answered if the range is one of the table and the query fits it. -/
theorem answer_slice_decides (query : Query) (first last : Nat) :
    Decides (first ≤ last ∧ last ≤ table.rowCount ∧ query.Fits ⟨last - first, table.rowLength⟩)
      (Answer.Suits ⟨last - first, table.rowLength⟩ query)
      (table.slice first last >>= fun range => range.answer query) := by
  rw [← and_assoc]
  rcases table.slice_decides first last with
    ⟨inside, range, given, isShape⟩ | ⟨outside, failure, refused, refusal⟩
  · rw [given, ← isShape]
    rcases range.answer_decides query with ⟨fits, rest⟩ | ⟨misfits, rest⟩
    · exact .inl ⟨⟨inside, fits⟩, rest⟩
    · exact .inr ⟨fun fits => misfits fits.2, rest⟩
  · rw [refused]
    exact .of_error (fun fits => outside fits.1) rfl refusal

/-- The queries for ranges that lie next to each other. The induction is on the queries: the first
of them has the first two boundaries. -/
theorem answerRanges_decides {queries : List Query} {boundaries : List Nat}
    (length : boundaries.length = queries.length + 1) :
    Decides (LayeredQuery.Fits table.shape ⟨queries, boundaries⟩)
      (LayeredQuery.SuitedBy table.shape ⟨queries, boundaries⟩)
      (table.answerRanges queries boundaries) := by
  induction queries generalizing boundaries with
  | nil =>
      have answered : table.answerRanges [] boundaries = .ok [] := by
        rw [answerRanges]
        exact fun query queries first last boundaries absent => nomatch absent
      exact .of_ok ⟨length, fun index query first last isQuery => nomatch isQuery⟩ answered
        ⟨rfl, fun index query first last isQuery => nomatch isQuery⟩
  | cons query queries ih =>
      match boundaries with
      | [] => cases length
      | [_] => cases length
      | first :: last :: boundaries =>
          have length : (last :: boundaries).length = queries.length + 1 := Nat.succ.inj length
          have decided := ih length
          have stepped : table.answerRanges (query :: queries) (first :: last :: boundaries) = (do
              let answer ← table.slice first last >>= fun range => range.answer query
              return answer :: (← table.answerRanges queries (last :: boundaries))) := by
            rw [answerRanges, bind_assoc]
          rw [stepped, LayeredQuery.fits_cons_iff length]
          rcases table.answer_slice_decides query first last with
            ⟨head, answer, answered, suits⟩ | ⟨head, failure, refused, refusal⟩
          · rw [answered]
            rcases decided with
              ⟨rest, answers, areAnswers, suitRest⟩ |
              ⟨rest, failure, refused, refusal⟩
            · rw [areAnswers]
              exact .of_ok ⟨head, rest⟩ rfl (suitRest.cons suits)
            · rw [refused]
              exact .of_error (fun fits => rest fits.2) rfl refusal
          · rw [refused]
            exact .of_error (fun fits => head fits.1) rfl refusal

/-- A layered query is answered if its queries fit their ranges, with one answer for each of them,
and refused if one of them does not. -/
theorem layerAnswer_decides (layered : LayeredQuery) :
    Decides (layered.Fits table.shape) (layered.SuitedBy table.shape)
      (table.layerAnswer layered) := by
  by_cases length : layered.boundaries.length = layered.queries.length + 1
  · rw [layerAnswer, if_pos length]
    exact table.answerRanges_decides length
  · exact .of_error (fun fits => length fits.1) (if_neg length) rfl

end Table

section Hints

namespace Table

/-- No numbers are left in the search for the sets that a hint over a table is about. -/
def SearchEnds (table : Table) (request : HintRequest) : Prop :=
  ∃ seed multiplier generator, request = .puncturedSets seed multiplier ∧
    SetGenerator.make seed 0 table.rowCount (setSizeFor table.rowCount) = .ok generator ∧
    SetGenerator.freshMany (setCount multiplier table.rowCount (setSizeFor table.rowCount))
      generator = .error .exhausted

variable (table : Table)

theorem hint_cases (request : HintRequest) :
    (∃ hint, table.hint request = .ok hint ∧ hint.shape = table.shape) ∨
      (∃ failure, table.hint request = .error failure ∧ failure.isRefusal = true) ∨
      (table.hint request = .error .exhausted ∧ table.SearchEnds request) := by
  cases request with
  | puncturedSets seed multiplier =>
      cases large : supportsSets table.rowCount with
      | false =>
          refine .inr (.inl ⟨.invalidConfiguration, ?_, rfl⟩)
          rw [hint, setSums, large]
          rfl
      | true =>
          have two : 2 ≤ setSizeFor table.rowCount := of_decide_eq_true large
          obtain ⟨generator, made⟩ : ∃ generator, SetGenerator.make seed 0 table.rowCount
              (setSizeFor table.rowCount) = .ok generator := by
            rw [SetGenerator.make, SetTree.make, dif_pos (Nat.lt_of_lt_of_le Nat.two_pos two),
              dif_pos (setSizeFor_le table.rowCount)]
            exact ⟨_, rfl⟩
          obtain ⟨domain, -⟩ := SetGenerator.of_make made
          cases drawn : SetGenerator.freshMany
              (setCount multiplier table.rowCount (setSizeFor table.rowCount)) generator with
          | ok result =>
              obtain ⟨-, -, owns⟩ := SetGenerator.of_freshMany drawn
              have areSums : result.1.mapM (fun set => table.xorRows set.elements) =
                  .ok (result.1.map fun set => table.sumAt set.elements) :=
                mapM_eq_ok fun set member => xorRows_eq_sumAt fun element inSet =>
                  domain ▸ (owns set member).lt_domain inSet
              refine .inl ⟨.puncturedSets ⟨table.shape, setSizeFor table.rowCount, seed,
                result.1.map fun set => table.sumAt set.elements⟩, ?_, rfl⟩
              rw [hint, setSums, if_pos large]
              simp only [bind, Except.bind, made, drawn, areSums]
              rfl
          | error failure =>
              obtain rfl := SetGenerator.error_of_freshMany drawn
              refine .inr (.inr ⟨?_, seed, multiplier, generator, rfl, made, drawn⟩)
              rw [hint, setSums, if_pos large]
              simp only [bind, Except.bind, made, drawn]
              rfl
  | pointFunction => exact .inl ⟨_, rfl, rfl⟩
  | matrix => exact .inl ⟨_, rfl, rfl⟩
  | plain => exact .inl ⟨_, rfl, rfl⟩

/-- A hint is given, or it is refused, or the search for its sets does not end. -/
theorem layerHint_cases (request : LayerHintRequest) :
    (∃ hint, table.layerHint request = .ok hint ∧
      hint.shape = ⟨request.count, table.rowLength⟩) ∨
      (∃ failure, table.layerHint request = .error failure ∧ failure.isRefusal = true) ∨
      (table.layerHint request = .error .exhausted ∧
        ∃ range, table.slice request.first (request.first + request.count) = .ok range ∧
          range.SearchEnds request.request) := by
  rw [layerHint]
  by_cases wide : maxRow < request.first + request.count
  · exact .inr (.inl ⟨.malformedRequest, if_pos wide, rfl⟩)
  rw [if_neg wide]
  rcases table.slice_decides request.first (request.first + request.count) with
    ⟨-, range, given, isShape⟩ | ⟨-, failure, refused, refusal⟩
  · rw [given]
    rw [Nat.add_sub_cancel_left] at isShape
    rcases range.hint_cases request.request with
      ⟨hint, made, hintShape⟩ | refused | ⟨failed, ends⟩
    · exact .inl ⟨hint, made, hintShape.trans isShape⟩
    · exact .inr (.inl refused)
    · exact .inr (.inr ⟨failed, range, rfl, ends⟩)
  · rw [refused]
    exact .inr (.inl ⟨failure, rfl, refusal⟩)

end Table

end Hints

/-- No request stops a server, whatever its table and whatever the request. A query and a layered
query are answered if they fit the table, with rows of the expected lengths, and refused otherwise.
A hint is given or refused, unless the search for its sets does not end. -/
theorem Table.answers_or_refuses (table : Table) :
    (∀ query : Query,
      Decides (query.Fits table.shape) (Answer.Suits table.shape query) (table.answer query)) ∧
    (∀ layered : LayeredQuery,
      Decides (layered.Fits table.shape) (layered.SuitedBy table.shape)
        (table.layerAnswer layered)) ∧
    ∀ request : LayerHintRequest,
      (∃ hint, table.layerHint request = .ok hint ∧
        hint.shape = ⟨request.count, table.rowLength⟩) ∨
      (∃ failure, table.layerHint request = .error failure ∧ failure.isRefusal = true) ∨
      (table.layerHint request = .error .exhausted ∧
        ∃ range, table.slice request.first (request.first + request.count) = .ok range ∧
          range.SearchEnds request.request) :=
  ⟨table.answer_decides, table.layerAnswer_decides, table.layerHint_cases⟩

end PrivateRetrieval
