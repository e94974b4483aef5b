/-
# The length of a log

A server compacts its log when it has more entries than a given number of times the live keys. At
the end of every call it is within that bound: the log that is compacted as a whole has one entry
for every live key, and compaction leaves the live keys as they are, so the bound that was checked
before is the one that holds afterwards.

The bound is a product in binary64 arithmetic. Rounding may let in one entry more than the exact
product allows, and no more than one as long as the numbers are of ordinary size.
-/

import PrivateRetrieval.Number.Decimal
import PrivateRetrieval.Proofs.Number.Nearest
import PrivateRetrieval.Proofs.Server.Upkeep

namespace PrivateRetrieval

/-! ## What a bound allows -/

namespace Ratio

variable {ratio : ℚ} {entries live : ℕ}

theorem isExceeded_finite :
    (Ratio.finite ratio).isExceeded entries live = false ↔
      (Binary64.ofNat entries : ℚ) ≤ Binary64.nearest (ratio * Binary64.ofNat live) := by
  rw [isExceeded, decide_eq_false_iff_not, not_lt]

/-- A valid ratio allows one entry for every live key, whatever the rounding. -/
theorem isExceeded_self {ratio : Ratio} (valid : ratio.isValid = true) (live : ℕ) :
    ratio.isExceeded live live = false := by
  cases ratio with
  | finite value =>
      have atLeastOne : 1 ≤ value := of_decide_eq_true valid
      have live : (Binary64.ofNat live : ℚ) ≤ value * Binary64.ofNat live :=
        le_mul_of_one_le_left (Nat.cast_nonneg _) atLeastOne
      exact isExceeded_finite.mpr (Binary64.le_nearest (Binary64.ofNat_spec _).1 live)
  | infinite => rfl
  | undefined => rfl

/-- Three roundings move the bound by no more than a 2 ^ 51st part of it. -/
theorem entries_le (nonnegative : 0 ≤ ratio)
    (allowed : (Ratio.finite ratio).isExceeded entries live = false) :
    (entries : ℚ) ≤ ratio * live * (1 + 1 / 2 ^ 51) := by
  have roundedLive := (abs_le.mp (Binary64.ofNat_spec live).2).2
  have roundedEntries := (abs_le.mp (Binary64.ofNat_spec entries).2).1
  have liveLe : (Binary64.ofNat live : ℚ) ≤ live * (1 + 1 / 2 ^ 53) := by linarith
  have product : ratio * Binary64.ofNat live ≤ ratio * live * (1 + 1 / 2 ^ 53) := by
    rw [mul_assoc]
    exact mul_le_mul_of_nonneg_left liveLe nonnegative
  have exact : 0 ≤ ratio * live := mul_nonneg nonnegative (Nat.cast_nonneg _)
  have bound : (entries : ℚ) * (1 - 1 / 2 ^ 53) ≤
      ratio * live * (1 + 1 / 2 ^ 53) * (1 + 1 / 2 ^ 53) :=
    calc (entries : ℚ) * (1 - 1 / 2 ^ 53) ≤ Binary64.ofNat entries := by linarith
      _ ≤ Binary64.nearest (ratio * Binary64.ofNat live) := isExceeded_finite.mp allowed
      _ ≤ ratio * Binary64.ofNat live * (1 + 1 / 2 ^ 53) :=
        Binary64.nearest_le (mul_nonneg nonnegative (Nat.cast_nonneg _))
      _ ≤ ratio * live * (1 + 1 / 2 ^ 53) * (1 + 1 / 2 ^ 53) :=
        mul_le_mul_of_nonneg_right product (by positivity)
  nlinarith

/-- As long as the bound is of ordinary size, rounding lets in at most one entry more. -/
theorem entries_le_ceil (atLeastOne : 1 ≤ ratio) (small : ratio * live ≤ 2 ^ 52)
    (allowed : (Ratio.finite ratio).isExceeded entries live = false) :
    entries ≤ ⌈ratio * live⌉₊ := by
  have nonnegative : 0 ≤ ratio := zero_le_one.trans atLeastOne
  have product : 0 ≤ ratio * live := mul_nonneg nonnegative (Nat.cast_nonneg _)
  have liveSmall : live ≤ 2 ^ 52 := by
    have inside : (live : ℚ) ≤ ratio * live :=
      le_mul_of_one_le_left (Nat.cast_nonneg _) atLeastOne
    exact_mod_cast inside.trans small
  have ceilSmall : ⌈ratio * live⌉₊ ≤ 2 ^ 52 := Nat.ceil_le.mpr (by exact_mod_cast small)
  have entriesSmall : entries < 2 ^ 53 := by
    have bound := entries_le nonnegative allowed
    have bound : (entries : ℚ) < 2 ^ 53 := by linarith
    exact_mod_cast bound
  have rounded := isExceeded_finite.mp allowed
  rw [Binary64.ofNat_of_lt entriesSmall, Binary64.ofNat_of_lt (by omega)] at rounded
  have isNumber : Binary64.IsNumber ⌈ratio * live⌉₊ :=
    ⟨⌈ratio * live⌉₊, 0, by omega, by rw [zpow_zero, mul_one]⟩
  exact_mod_cast rounded.trans (Binary64.nearest_le_of_le isNumber product (Nat.le_ceil _))

end Ratio

namespace KeyServer

/-! ## Compaction -/

namespace Keeps

variable {server : KeyServer} {history : List (Entry Row)}

/-- There is one survivor of the history for every live key. -/
theorem keyCount (keeps : server.Keeps history) :
    server.keyCount = (survivors history).length := by
  have sameKeys : server.positions.keys.Perm ((survivors history).map Entry.key) := by
    rw [List.perm_ext_iff_of_nodup (Positions.nodup_keys _) (nodup_keys_survivors _)]
    intro key
    rw [Positions.mem_keys_iff, keeps.locates.isSome_find?, Contents.mem_keys_survivors]
  rw [KeyServer.keyCount, ← Positions.length_keys, sameKeys.length_eq, List.length_map]

/-- A log that was compacted because of its length has no more entries than it may have. -/
theorem isExceeded_compactedLog (keeps : server.Keeps history)
    (valid : server.configuration.ratio.isValid = true) :
    server.configuration.ratio.isExceeded server.compactedLog.entries.length server.keyCount =
      false := by
  rw [KeyServer.compactedLog]
  split
  · -- The older half was not enough, so all of the log is compacted.
    obtain ⟨cut, -, inside, isLog⟩ :=
      keeps.compact_log (Nat.le_max_right (server.entryCount / 2) server.log.compactedCount)
    rw [isLog, Log.entries_compact_whole inside, ← keeps.keyCount]
    exact Ratio.isExceeded_self valid _
  · rename_i allowed
    exact Bool.eq_false_iff.mpr allowed

end Keeps

/-! ## Calls -/

/-- A server between two calls: it has a valid configuration and is within its bound. -/
structure AtRest (server : KeyServer) (configuration : ServerConfiguration)
    (history : List (Entry Row)) : Prop extends server.Keeps history where
  configured : server.configuration = configuration
  valid : configuration.ratio.isValid = true
  within : server.isOverBound = false

/-- The end of a call brings a server to rest. -/
theorem Keeps.atRest {server after : KeyServer} {history : List (Entry Row)}
    {configuration : ServerConfiguration} (keeps : server.Keeps history)
    (isConfiguration : server.configuration = configuration)
    (valid : configuration.ratio.isValid = true)
    (compacted : server.compactIfOverBound = (.ok (), after)) :
    after.AtRest configuration history := by
  obtain ⟨other, isCompacted, keepsAfter, -⟩ := keeps.compactIfOverBound
  rw [compacted, Prod.mk.injEq] at isCompacted
  obtain ⟨-, rfl⟩ := isCompacted
  subst isConfiguration
  rcases compactIfOverBound_cases compacted with
    ⟨within, -, rfl⟩ | ⟨-, -, configuration, log, -⟩
  · exact ⟨keepsAfter, rfl, valid, within⟩
  · refine ⟨keepsAfter, configuration, valid, ?_⟩
    -- The live keys are those on which the compaction was based.
    have live : after.keyCount = server.keyCount := by rw [keepsAfter.keyCount, keeps.keyCount]
    rw [isOverBound, configuration, entryCount, log, live]
    exact keeps.isExceeded_compactedLog valid

namespace AtRest

variable {server : KeyServer} {configuration : ServerConfiguration} {history : List (Entry Row)}

/-- A call leaves a server at rest, whether or not it succeeds. -/
theorem performed (atRest : server.AtRest configuration history) {call : Call}
    (content : call.HasContent) :
    ∃ more, (call.perform server).2.AtRest configuration (history ++ more) := by
  rcases performed : call.perform server with ⟨result, after⟩
  rcases Call.perform_cases performed with ⟨-, -, rfl⟩ | ⟨noted, isNoted, compacted⟩
  · exact ⟨[], by rwa [List.append_nil]⟩
  · obtain ⟨keepsNoted, -⟩ := atRest.toKeeps.note content isNoted
    have isConfiguration : noted.configuration = configuration :=
      (Call.of_note isNoted).1.trans atRest.configured
    obtain ⟨other, succeeded, -, -⟩ := keepsNoted.compactIfOverBound
    obtain rfl : result = .ok () := (Prod.mk.inj (compacted.symm.trans succeeded)).1
    exact ⟨call.entries, keepsNoted.atRest isConfiguration atRest.valid compacted⟩

theorem afterAll (atRest : server.AtRest configuration history) {calls : List Call}
    (content : ∀ call ∈ calls, call.HasContent) :
    ∃ more, (server.afterAll calls).AtRest configuration (history ++ more) := by
  induction calls generalizing server history with
  | nil => exact ⟨[], by rwa [List.append_nil]⟩
  | cons call calls ih =>
      obtain ⟨added, next⟩ := atRest.performed (content call List.mem_cons_self)
      obtain ⟨more, last⟩ := ih next fun call member => content call (List.mem_cons_of_mem _ member)
      exact ⟨added ++ more, by rwa [← List.append_assoc]⟩

end AtRest

theorem atRest_make {configuration : ServerConfiguration} {keys : List Key} {rows : List Row}
    (positive : ∀ row ∈ rows, 0 < row.length) {server : KeyServer}
    (made : make configuration keys rows = .ok server) :
    server.AtRest configuration (batch keys rows) := by
  have content : (Call.add keys rows).HasContent := positive
  obtain ⟨valid, noted, isNoted, compacted⟩ := of_make made
  obtain ⟨keepsNoted, -⟩ := (keeps_empty configuration).note content isNoted
  exact keepsNoted.atRest (Call.of_note isNoted).1 valid compacted

theorem compactIfOverBound_of_within {server : KeyServer} (within : server.isOverBound = false) :
    server.compactIfOverBound = (.ok (), server) := by
  rw [compactIfOverBound, within, if_neg Bool.false_ne_true]

/-- A call after which the log is within its bound does no more than note its entries. -/
theorem Call.perform_of_within {server noted : KeyServer} {call : Call}
    (updatable : server.configuration.updatable = true) (isNoted : call.note server = .ok noted)
    (within : noted.isOverBound = false) : call.perform server = (.ok (), noted) := by
  have compacted := compactIfOverBound_of_within within
  cases call with
  | add keys rows =>
      have inserted : server.insert keys rows = .ok noted := isNoted
      simp only [perform, KeyServer.add, if_pos updatable, inserted, compacted]
  | delete keys =>
      cases isNoted
      simp only [perform, KeyServer.delete, if_pos updatable, compacted]

/-- A new server that is within its bound has noted its batch. -/
theorem make_of_within {configuration : ServerConfiguration} {keys : List Key} {rows : List Row}
    {noted : KeyServer} (valid : configuration.ratio.isValid = true)
    (isNoted : Call.note (empty configuration) (.add keys rows) = .ok noted)
    (within : noted.isOverBound = false) : make configuration keys rows = .ok noted := by
  have inserted : (empty configuration).insert keys rows = .ok noted := isNoted
  have compacted := compactIfOverBound_of_within within
  simp [make, valid, inserted, compacted, bind, Except.bind, pure, Except.pure]

/-- At the end of every call, the log has at most as many entries as the ratio, rounded, allows for
the live keys. This is at most a 2 ^ 51st part more than the exact product, and less than one entry
more if the product is at most 2 ^ 52. If no key is live, the log is empty. The prefix that was
compacted ends between the first timestamp and the next, and the next timestamp counts the keys of
all calls, compacted or not. -/
theorem entries_within_bound {configuration : ServerConfiguration} {ratio : ℚ}
    {keys : List Key} {rows : List Row} {calls : List Call} {start : KeyServer}
    (isRatio : configuration.ratio = .finite ratio)
    (content : ∀ call ∈ Call.add keys rows :: calls, call.HasContent)
    (made : make configuration keys rows = .ok start) :
    let server := start.afterAll calls
    (Binary64.ofNat server.entryCount : ℚ) ≤
        Binary64.nearest (ratio * Binary64.ofNat server.keyCount) ∧
      (server.entryCount : ℚ) ≤ ratio * server.keyCount * (1 + 1 / 2 ^ 51) ∧
      (ratio * server.keyCount ≤ 2 ^ 52 → server.entryCount ≤ ⌈ratio * server.keyCount⌉₊) ∧
      (server.keyCount = 0 → server.log.entries = []) ∧
      server.log.initial ≤ server.log.defragmented ∧
      server.log.defragmented ≤ server.log.next ∧
      start.log.next = keys.length ∧
      ∀ (call : Call) (after : KeyServer), call.HasContent →
        call.perform server = (.ok (), after) →
          after.log.next = server.log.next + call.keys.length := by
  intro server
  have keepsStart := keeps_make (content _ List.mem_cons_self) made
  obtain ⟨more, atRest⟩ := (atRest_make (content _ List.mem_cons_self) made).afterAll
    fun call member => content call (List.mem_cons_of_mem _ member)
  have atRest : server.AtRest configuration (batch keys rows ++ more) := atRest
  have allowed : (Ratio.finite ratio).isExceeded server.entryCount server.keyCount = false := by
    rw [← isRatio, ← atRest.configured]
    exact atRest.within
  have atLeastOne : 1 ≤ ratio := by
    have valid := atRest.valid
    rw [isRatio] at valid
    exact of_decide_eq_true valid
  have near := Ratio.entries_le (zero_le_one.trans atLeastOne) allowed
  refine ⟨Ratio.isExceeded_finite.mp allowed, near, fun small =>
    Ratio.entries_le_ceil atLeastOne small allowed, ?_, ?_, ?_, ?_, ?_⟩
  · intro none
    rw [none, Nat.cast_zero, mul_zero, zero_mul] at near
    exact List.length_eq_zero_iff.mp (Nat.le_zero.mp (by exact_mod_cast near))
  · rw [atRest.log, Log.defragmented_ofHistory atRest.inside]
    exact (Log.initial_le_defragmented_ofHistory atRest.inside).trans_eq
      (Log.defragmented_ofHistory atRest.inside)
  · rw [atRest.toKeeps.next]
    exact atRest.inside
  · obtain ⟨-, noted, isNoted, -⟩ := of_make made
    rw [keepsStart.next]
    exact (Call.of_note isNoted).2.2
  · intro call after contentCall succeeded
    rcases Call.perform_cases succeeded with ⟨failure, refused, -⟩ | ⟨noted, isNoted, -⟩
    · cases refused
    · obtain ⟨keepsAfter, -⟩ := atRest.toKeeps.perform contentCall succeeded
      rw [keepsAfter.next, atRest.toKeeps.next, List.length_append, (Call.of_note isNoted).2.2]

/-- A key that is put again and again, with two entries allowed for every live key. -/
theorem entries_after_repeated_key :
    ∃ start after, make { ratio := .finite 2 } [1, 2] [[1], [2]] = .ok start ∧
      let server := start.afterAll [.add [1] [[3]], .add [1] [[4]]]
      (Call.add [1] [[5]]).perform server = (.ok (), after) ∧
      server.keyCount = 2 ∧ server.entryCount ≤ 4 ∧ after.log.next = server.log.next + 1 := by
  have works : (make { ratio := .finite 2 } [1, 2] [[1], [2]]).toOption.map (fun start =>
      let server := start.afterAll [.add [1] [[3]], .add [1] [[4]]]
      (server.keyCount, ((Call.add [1] [[5]]).perform server).1)) = some (2, .ok ()) := by cbv
  cases made : make { ratio := .finite 2 } [1, 2] [[1], [2]] with
  | error failure =>
      rw [made] at works
      cases works
  | ok start =>
      rw [made] at works
      simp only [Except.toOption, Option.map_some, Option.some.injEq, Prod.mk.injEq] at works
      obtain ⟨live, succeeded⟩ := works
      have content : ∀ call ∈ [.add [1, 2] [[1], [2]], .add [1] [[3]], .add [1] [[4]]],
          Call.HasContent call := by
        simp [Call.HasContent]
      have last : (Call.add [1] [[5]]).HasContent := by simp [Call.HasContent]
      have performed : (Call.add [1] [[5]]).perform
          (start.afterAll [.add [1] [[3]], .add [1] [[4]]]) = (.ok (), _) := Prod.ext succeeded rfl
      obtain ⟨-, -, whole, -, -, -, -, counted⟩ := entries_within_bound rfl content made
      refine ⟨start, _, rfl, performed, live, ?_, counted _ _ last performed⟩
      have product : ⌈(2 : ℚ) * (2 : ℕ)⌉₊ = 4 := by norm_num
      rw [live, product] at whole
      exact whole (by norm_num)

/-- A ratio that is not a binary64 number may be read as a smaller one. For five live keys the
product is then less than seven, but it is rounded to seven, so seven entries stay. -/
theorem more_entries_than_ratio :
    ∃ start after, make { ratio := .finite (Decimal.toBinary64 ⟨false, 14, 1⟩) } [1, 2, 3, 4, 5]
        [[1], [2], [3], [4], [5]] = .ok start ∧
      (Call.add [1, 2] [[6], [7]]).perform start = (.ok (), after) ∧
      Decimal.toBinary64 ⟨false, 14, 1⟩ * after.keyCount < after.entryCount := by
  have valid : (Ratio.finite (Decimal.toBinary64 ⟨false, 14, 1⟩)).isValid = true := by
    decide +kernel
  have five : (Ratio.finite (Decimal.toBinary64 ⟨false, 14, 1⟩)).isExceeded 5 5 = false := by
    decide +kernel
  have seven : (Ratio.finite (Decimal.toBinary64 ⟨false, 14, 1⟩)).isExceeded 7 5 = false := by
    decide +kernel
  have less : Decimal.toBinary64 ⟨false, 14, 1⟩ * (5 : ℕ) < (7 : ℕ) := by decide +kernel
  generalize Decimal.toBinary64 ⟨false, 14, 1⟩ = ratio at *
  have works : ((Call.add [1, 2, 3, 4, 5] [[1], [2], [3], [4], [5]]).note
      (empty { ratio := .finite ratio })).toOption.bind (fun start =>
        ((Call.add [1, 2] [[6], [7]]).note start).toOption.map fun after =>
          (start.entryCount, start.keyCount, after.entryCount, after.keyCount)) =
      some (5, 5, 7, 5) := by cbv
  cases first : (Call.add [1, 2, 3, 4, 5] [[1], [2], [3], [4], [5]]).note
      (empty { ratio := .finite ratio }) with
  | error failure =>
      rw [first] at works
      cases works
  | ok start =>
      cases second : (Call.add [1, 2] [[6], [7]]).note start with
      | error failure =>
          simp only [first, Except.toOption, Option.bind_some, second] at works
          cases works
      | ok after =>
          simp only [first, Except.toOption, Option.bind_some, second, Option.map_some,
            Option.some.injEq, Prod.mk.injEq] at works
          obtain ⟨startEntries, startKeys, entries, live⟩ := works
          have startConfigured := (Call.of_note first).1
          have configured := (Call.of_note second).1.trans startConfigured
          have startWithin : start.isOverBound = false := by
            rw [isOverBound, startConfigured, startEntries, startKeys]
            exact five
          have within : after.isOverBound = false := by
            rw [isOverBound, configured, entries, live]
            exact seven
          have updatable : start.configuration.updatable = true := by
            rw [startConfigured]
            rfl
          refine ⟨start, after, make_of_within valid first startWithin,
            Call.perform_of_within updatable second within, ?_⟩
          rw [live, entries]
          exact less

end KeyServer

end PrivateRetrieval
