import SeriesIngest.Point
/-! Samples as they are made: tags, fields and times are set one after the other, from a sample that
has a measurement only. -/
namespace SeriesIngest

inductive Edit where
  | tag (key value : String)
  | field (key : String) (value : Value)
  | time (t : Int64) (unit : Precision)
deriving DecidableEq

namespace Edit

def tag? : Edit → Option (String × String)
  | .tag key value => some (key, value)
  | _ => none

def field? : Edit → Option (String × Value)
  | .field key value => some (key, value)
  | _ => none

def time? : Edit → Option (Int64 × Precision)
  | .time t unit => some (t, unit)
  | _ => none

end Edit

namespace Point

def edit (p : Point) : Edit → Point
  | .tag key value => p.putTag key value
  | .field key value => p.putField key value
  | .time t unit => p.setTime t unit

def make (measurement : String) (edits : List Edit) : Point := edits.foldl edit { measurement }

end Point
end SeriesIngest
