import SeriesIngest.Entries
import SeriesIngest.Fault
import SeriesIngest.Precision
/-! One sample of a measurement: tags, typed fields and a time. Whether it can be sent under a
protocol is known before it is encoded. -/
namespace SeriesIngest

inductive Value where
  | int (v : Int64)
  | float (v : Binary64)
  | bool (v : Bool)
  | text (v : String)
deriving DecidableEq

def Value.equals : Value → Value → Bool
  | .float x, .float y => x.equals y
  | x, y => x = y

/-- A time of zero stands for no time: whoever stores the sample assigns one. -/
structure Point where
  measurement : String
  tags : Entries String := []
  fields : Entries Value := []
  time : Int64 := 0
  precision : Precision := .nanosecond
deriving DecidableEq

namespace Point

def putTag (p : Point) (key value : String) : Point := { p with tags := p.tags.put key value }

def putField (p : Point) (key : String) (value : Value) : Point :=
  { p with fields := p.fields.put key value }

def setTime (p : Point) (time : Int64) (precision : Precision) : Point :=
  { p with time, precision }

def tag? (p : Point) (key : String) : Option String := p.tags.get? key

def field? (p : Point) (key : String) : Option Value := p.fields.get? key

def equals (p q : Point) : Bool :=
  p.measurement = q.measurement && p.tags = q.tags && p.fields.length = q.fields.length &&
    (p.fields.zip q.fields).all (fun (x, y) => x.1 = y.1 && x.2.equals y.2) &&
    p.time = q.time && p.precision = q.precision

end Point

def Precision.nanos (unit : Precision) (time : Int64) : Except EncodingFault Int64 :=
  match unit.scale? time with
  | some nanos => .ok nanos
  | none => .error (.timeOverflow time)

def Point.nanos? (p : Point) : Except EncodingFault (Option Int64) :=
  if p.time = 0 then .ok none else (p.precision.nanos p.time).map some

def Value.fault? (field : String) : Value → Option EncodingFault
  | .float v => if v.isFinite then none else some (.nonFinite field v)
  | _ => none

/-- Records hold every float, text lines do not. -/
def Protocol.fault? (protocol : Protocol) (p : Point) : Option EncodingFault :=
  if p.measurement = "" then some .emptyMeasurement
  else match p.nanos?, protocol with
    | .error fault, _ => some fault
    | .ok _, .http => p.fields.findSome? fun (key, v) => v.fault? key
    | .ok _, .grpc => none

end SeriesIngest
