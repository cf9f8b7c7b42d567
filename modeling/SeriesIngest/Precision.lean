/-! Units of time stamps and their scaling to nanoseconds. -/
namespace SeriesIngest

inductive Precision where
  | nanosecond | microsecond | millisecond | second | minute | hour
deriving DecidableEq, Inhabited

namespace Precision

def nanosPerUnit : Precision → Int64
  | nanosecond => 1
  | microsecond => 1000
  | millisecond => 1000000
  | second => 1000000000
  | minute => 60000000000
  | hour => 3600000000000

def symbol : Precision → String
  | nanosecond => "ns"
  | microsecond => "u"
  | millisecond => "ms"
  | second => "s"
  | minute => "m"
  | hour => "h"

/-- `none` when the product leaves the 64-bit range. -/
def scale? (unit : Precision) (time : Int64) : Option Int64 :=
  let nanos := time.toInt * unit.nanosPerUnit.toInt
  if Int64.minValue.toInt ≤ nanos ∧ nanos ≤ Int64.maxValue.toInt then some (.ofInt nanos) else none

end Precision
end SeriesIngest
