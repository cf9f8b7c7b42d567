import SeriesIngest.Line.Escape
import SeriesIngest.Point
/-! One line per sample: the measurement and its tags, a blank, the fields, and a blank
and the time in nanoseconds where there is one. A body joins lines with line feeds. -/
namespace SeriesIngest.Line

def literal (field : String) : Value → Except EncodingFault String
  | .int v => .ok (String.ofList (Decimal.intDigits v.toInt) ++ "i")
  | .float v =>
    if v.isFinite then .ok (String.ofList (Decimal.floatText v)) else .error (.nonFinite field v)
  | .bool v => .ok (if v then "true" else "false")
  | .text v => .ok ("\"" ++ escape quotedSpecial v ++ "\"")

def appendTags (buffer : String) : Entries String → String
  | [] => buffer
  | (key, value) :: rest =>
    appendTags (buffer ++ "," ++ escapeKey key ++ "=" ++ escapeKey value) rest

/-- What is in the buffer when a field fails stays there, the key before its value too. -/
def appendFields (buffer separator : String) : Entries Value → String × Option EncodingFault
  | [] => (buffer, none)
  | (key, value) :: rest =>
    let buffer := buffer ++ separator ++ escapeKey key ++ "="
    match literal key value with
    | .ok text => appendFields (buffer ++ text) "," rest
    | .error fault => (buffer, some fault)

/-- The buffer with the sample's line after its content, or with the part of the line that
was written before a fault showed. -/
def append (buffer : String) (p : Point) : String × Option EncodingFault :=
  if p.measurement = "" then (buffer, some .emptyMeasurement) else
    let head := appendTags (buffer ++ escapeMeasurement p.measurement) p.tags
    match appendFields (head ++ " ") "" p.fields with
    | (buffer, some fault) => (buffer, some fault)
    | (buffer, none) =>
      match p.nanos? with
      | .ok none => (buffer, none)
      | .ok (some t) => (buffer ++ " " ++ String.ofList (Decimal.intDigits t.toInt), none)
      | .error fault => (buffer, some fault)

def write (p : Point) : Except EncodingFault String :=
  match append "" p with
  | (line, none) => .ok line
  | (_, some fault) => .error fault

def appendAll (buffer separator : String) : List Point → Except EncodingFault String
  | [] => .ok buffer
  | p :: rest =>
    match append (buffer ++ separator) p with
    | (buffer, none) => appendAll buffer "\n" rest
    | (_, some fault) => .error fault

def writeAll (points : List Point) : Except EncodingFault String := appendAll "" "" points

end SeriesIngest.Line
