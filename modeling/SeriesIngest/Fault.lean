import SeriesIngest.Decimal.Shortest
import SeriesIngest.Protocol
import SeriesIngest.Text.Utf8
/-! Everything that can go wrong, as causes, and the text that describes each. -/
namespace SeriesIngest

inductive RecordDefect where
  | truncated
  | negativeLength (length : Int)
  | nameNotUtf8 (fault : Utf8.Fault)
  | unknownType (id : Int64) (name : String)
  | columnCount (columns entries : Nat)
  | columnHeader (rows nulls bitmapOffset : Int)
  | shortBitmap (bytes rows : Nat)
  | longVarint
  | trailing (bytes : Nat)
  | oversize (length : Nat)
deriving DecidableEq

def RecordDefect.message : RecordDefect → String
  | truncated => "truncated record"
  | negativeLength n => s!"negative length {n}"
  | nameNotUtf8 fault => s!"field name is not UTF-8: {fault.message}"
  | unknownType id name => s!"unknown type id {id.toInt} for '{name}'"
  | columnCount columns entries => s!"{columns} column(s) for {entries} schema entries"
  | columnHeader rows nulls bitmapOffset =>
    s!"bad column header: len={rows} null_count={nulls} bitmap_offset={bitmapOffset}"
  | shortBitmap bytes rows => s!"bitmap of {bytes} byte(s) cannot hold {rows} row(s)"
  | longVarint => "varint longer than 10 bytes"
  | trailing bytes => s!"{bytes} trailing byte(s) after record"
  | oversize length => s!"length {length} exceeds i32"

inductive EncodingFault where
  | emptyMeasurement
  | nonFinite (field : String) (value : Binary64)
  | timeOverflow (time : Int64)
  | malformed (defect : RecordDefect)
deriving DecidableEq

def EncodingFault.message : EncodingFault → String
  | emptyMeasurement => "measurement name is empty"
  | nonFinite field value =>
    let float := String.ofList (Decimal.floatText value)
    s!"field '{field}' holds a non-finite float ({float}) which has no line protocol literal"
  | timeOverflow time => s!"timestamp {time.toInt} overflows i64 when scaled to nanoseconds"
  | malformed defect => s!"malformed record: {defect.message}"

inductive DeliveryFault where
  | unreachable (endpoint reason : String)
  | status (code : Nat) (text : String)
  | timeout
  | other (text : String)
deriving DecidableEq

def DeliveryFault.message : DeliveryFault → String
  | unreachable endpoint reason => s!"endpoint {endpoint} unreachable: {reason}"
  | status code text => s!"server returned status {code}: {text}"
  | timeout => "request timed out"
  | other text => s!"transport error: {text}"

inductive SettingsFault where
  | noEndpoints
  | invalidEndpoint (url : String)
  | notPositive (option : String)
  | unsupportedCompression (algorithm : Algorithm) (protocol : Protocol)
  | unreadableText
  | unreadableFile
deriving DecidableEq

def SettingsFault.message : SettingsFault → String
  | noEndpoints => "endpoint list is empty"
  | invalidEndpoint url => s!"invalid endpoint '{url}': expected scheme://host[:port]"
  | notPositive option => s!"{option} must be positive"
  | unsupportedCompression algorithm protocol =>
    s!"compression {algorithm.name} is not supported by the {protocol.name} protocol"
  | unreadableText => "YAML parse error"
  | unreadableFile => "I/O error"

inductive WriteFault where
  | encoding (fault : EncodingFault)
  | delivery (fault : DeliveryFault)
  | settings (fault : SettingsFault)
  | closed
  | panicked (text : String)
deriving DecidableEq

def WriteFault.message : WriteFault → String
  | encoding fault => s!"encoding error: {fault.message}"
  | delivery fault => s!"transport error: {fault.message}"
  | settings fault => s!"configuration error: {fault.message}"
  | closed => "batch processor is closed"
  | panicked text => s!"flush panicked: {text}"

end SeriesIngest
