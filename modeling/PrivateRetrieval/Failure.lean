/-
# Failures

Every call of the library either answers or fails, and a failed call says why. Three families
are kept apart. A refusal is part of the protocol: the caller sees its kind and its text. A
breach means that a documented condition of the call was not met, so no answer of the protocol
exists for it. An exhausted search means that rejection sampling found nothing in as many draws
as it may make.
-/

namespace PrivateRetrieval

/-- The name of a row of the key-value store. -/
abbrev Key := UInt32

/-- What is wrong with a Rice-coded sequence. -/
inductive CodeFault
  | parameterOutOfRange
  | negativeCount
  | firstTooLarge
  | tooShort
  | endOfData
  | valueTooLarge
  | bytesLeftOver
  deriving DecidableEq, Repr

/-- The words in which a fault of a Rice-coded sequence is reported. -/
def CodeFault.message : CodeFault → String
  | .parameterOutOfRange => "invalid rice parameter"
  | .negativeCount => "negative entry count"
  | .firstTooLarge => "first value overflows 32 bits"
  | .tooShort => "truncated rice encoded data"
  | .endOfData => "unexpected end of data"
  | .valueTooLarge => "value overflows 32 bits"
  | .bytesLeftOver => "unconsumed rice encoded data"

/-- A condition on the arguments of a call that the caller did not keep. -/
inductive Breach
  | unequalLengths
  | emptySet
  | domainTooSmall
  | leafOutOfRange
  | copathLength
  | notAMember
  | slotOutOfRange
  | elementOutOfRange
  | columnOutOfRange
  | bitOutOfRange
  | widthTooLarge
  | cutBeyondEnd
  | smallestLayerEmpty
  deriving DecidableEq, Repr

/-- Why a call gave no answer. -/
inductive Failure
  | keyNotFound (key : Key)
  | notCovered (row : Nat)
  | noActiveLayers
  | noHint
  | unexpectedResponse
  | malformedRequest
  | undecodable (fault : CodeFault)
  | rowLengthMismatch (expected got : Nat)
  | notUpdatable
  | indexOutOfBounds (index length : Nat)
  | invalidConfiguration
  | arithmetic
  | breach (what : Breach)
  | exhausted
  deriving DecidableEq, Repr

/-- The result of a call. -/
abbrev Outcome := Except Failure

/-- The result of a step on a state that a failure leaves alone: the outcome, and the state after
the step. -/
def settle {α σ : Type} (before : σ) (result : Outcome (α × σ)) : Outcome α × σ :=
  match result with
  | .ok (value, after) => (.ok value, after)
  | .error failure => (.error failure, before)

/-- The digits of a natural number in base sixteen, lower case, without leading zeros. -/
def hexadecimal (number : Nat) : String :=
  String.ofList (Nat.toDigits 16 number)

/-- The text of a refusal. A breach and an exhausted search are no answers of the protocol, so the
texts given to them only serve a person who reads a trace. -/
def Failure.message : Failure → String
  | .keyNotFound key =>
      let digits := hexadecimal key.toNat
      s!"Key 0x{digits} not found"
  | .notCovered row => s!"Row {row} is not covered by any stored set"
  | .noActiveLayers => "No active layers"
  | .noHint => "No hint installed for an active layer"
  | .unexpectedResponse => "Unexpected response"
  | .malformedRequest => "Malformed request"
  | .undecodable fault =>
      let reason := fault.message
      s!"Rice decoding error: {reason}"
  | .rowLengthMismatch expected got =>
      s!"Row length mismatch: expected {expected}, got {got}"
  | .notUpdatable => "Server is not updatable"
  | .indexOutOfBounds index length => s!"Index {index} out of bounds [0:{length})"
  | .invalidConfiguration => "Invalid configuration"
  | .arithmetic => "Arithmetic error encountered."
  | .breach _ => "A condition of the call was not met"
  | .exhausted => "A search found nothing within its bound"

/-- Whether a failure is an answer of the protocol, as opposed to a call that should not have been
made or a search that did not end. -/
def Failure.isRefusal : Failure → Bool
  | .breach _ | .exhausted => false
  | _ => true

end PrivateRetrieval
