import ManifestLens.Error.Basic
import ManifestLens.Index.Url
import ManifestLens.Number.Literal
import ManifestLens.Text.Utf8
import ManifestLens.Time.MailDate
import ManifestLens.Version.Natural

/-!
# Faults

Everything that can keep a call from giving its answer: the reported failures of the index, and the faults
that no part of the tool expects and that therefore end the call as they are.
-/

namespace ManifestLens

/-! ### The wait that a server asks for

A server that limits its clients says how long to wait, in seconds or by a date. A date in the past and a
negative number ask for no wait; what is neither asks for nothing. -/

namespace RetryAfter

/-- A date with a part that is too great for any date. -/
structure DateOverflow where
deriving DecidableEq, Repr

/-- A wait is never negative. -/
def nonNegative (seconds : Binary64) : Binary64 :=
  if Binary64.lt (.finite 0) seconds then seconds else .finite 0

def secondsBetween (start stop : DateTime) : Binary64 :=
  (Number.int (stop.instant - start.instant)).divNat 1000000

/-- The seconds that the value of a header asks to wait, at the moment `now`. -/
def seconds? (now : DateTime) (header : List Char) : Except DateOverflow (Option Binary64) :=
  let value := Text.trim header
  if value.isEmpty then .ok none
  else
    match Literal.double? value with
    | some seconds => .ok (some (nonNegative seconds))
    | none =>
        match MailDate.parse value with
        | .ok date => .ok (some (nonNegative (secondsBetween now date)))
        | .error .malformed => .ok none
        | .error .overflow => .error ⟨⟩

end RetryAfter

/-! ### Faults -/

/-- Why a call gives no answer. -/
inductive Fault where
  | index (error : IndexError)
  /-- A reported failure that does not concern the index. -/
  | reported (failure : Failure)
  | cancelled
  /-- The transport failed in a way that the client does not know. -/
  | crashed (reason : String)
  | badUrl (fault : UrlFault)
  | dateOverflow
  /-- Two version texts have no order. -/
  | unordered (failure : NaturalVersion.Failure)
  /-- A value stands where values of another kind are needed; `detail` says what does not go. -/
  | wrongKind (detail : String)
  /-- A value has no part of the given name. -/
  | noPart (detail : String)
  /-- A capacity below one. -/
  | noCapacity
  /-- The sweeper of a disposed cache cannot start. -/
  | disposed
  /-- A file that has to hold text holds other bytes. -/
  | undecodable (fault : Text.Utf8.Fault)
  /-- A file holds an integer with more digits than are read. -/
  | tooManyDigits (count : Nat)
  /-- Edits of one text overlap, or lie outside it. -/
  | badEdit (detail : String)
deriving Inhabited

namespace NaturalVersion

/-- A failure of the order in words. -/
def Failure.message : Failure → String
  | .segmentBroken => ""
  | .tooManyDigits count =>
      "Exceeds the limit (4300 digits) for integer string conversion: value has " ++
        toString count ++ " digits; use sys.set_int_max_str_digits() to increase the limit"

end NaturalVersion

namespace Fault

def text : Fault → String
  | .index error => (Failure.index error).text
  | .reported failure => failure.text
  | .cancelled => ""
  | .crashed reason => reason
  | .badUrl fault => fault.message
  | .dateOverflow => "Python int too large to convert to C int"
  | .unordered failure => failure.message
  | .wrongKind detail => detail
  | .noPart detail => detail
  | .noCapacity => "max_entries must be at least 1"
  | .disposed => "Cannot start sweeper on a disposed cache"
  | .undecodable fault => fault.text
  | .tooManyDigits count => (NaturalVersion.Failure.tooManyDigits count).message
  | .badEdit detail => detail

/-- The fault with a package named, if it is a failure of the index. -/
def forPackage (package : String) : Fault → Fault
  | .index error => .index (error.forPackage package)
  | fault => fault

end Fault

end ManifestLens
