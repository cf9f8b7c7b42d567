import SeriesIngest.Client.History
/-! What a destination has received: the texts of the requests that were brought to it. -/
namespace SeriesIngest

def Request.text? (codecs : Codecs) (r : Request) : Option String :=
  match r.body with
  | .lines _ block =>
    let compressor : Compressor := { codecs, algorithm := r.algorithm }
    (compressor.decompress? block).bind fun data => (Utf8.decode data).toOption
  | .records .. => none

namespace Client

def Call.request? : Call → Option Request
  | .posted _ request _ => some request
  | _ => none

def requestsTo (history : List Call) (destination : Destination) : List Request :=
  (history.filterMap Call.request?).filter (·.destination = destination)

/-- Their texts joined by line feeds, if all of them have one. -/
def textTo? (codecs : Codecs) (history : List Call) (destination : Destination) : Option String :=
  ((requestsTo history destination).mapM (Request.text? codecs)).map ("\n".intercalate ·)

end Client
end SeriesIngest
