/-! The two wire protocols and the compressions that a body may have under them. -/
namespace SeriesIngest

inductive Algorithm where
  | none | gzip | lz4
deriving DecidableEq, Inhabited

def Algorithm.name : Algorithm → String
  | none => "none"
  | gzip => "gzip"
  | lz4 => "lz4"

def Algorithm.contentEncoding? : Algorithm → Option String
  | gzip => some "gzip"
  | _ => Option.none

/-- Text lines over HTTP, or columnar records over remote calls. -/
inductive Protocol where
  | http | grpc
deriving DecidableEq, Inhabited

def Protocol.name : Protocol → String
  | http => "http"
  | grpc => "grpc"

def Protocol.supports : Protocol → Algorithm → Bool
  | http, .lz4 => false
  | _, _ => true

end SeriesIngest
