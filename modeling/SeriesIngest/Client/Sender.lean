import SeriesIngest.Client.Request
import SeriesIngest.Compression.Compressor
import SeriesIngest.Endpoint.Rotation
import SeriesIngest.Line.Writer
import SeriesIngest.Record.Notices
import SeriesIngest.Record.Wire
/-! From samples to requests. Each request goes to the endpoint whose turn it is, and an
endpoint that cannot be reached is flagged down. -/
namespace SeriesIngest

structure Sender where
  protocol : Protocol
  rotation : Rotation
  compressor : Compressor

namespace Sender

def blocks (c : Compressor) : List Record → Except EncodingFault (List (List UInt8)) × Compressor
  | [] => (.ok [], c)
  | r :: rest =>
    match r.toBytes with
    | .error defect => (.error (.malformed defect), c)
    | .ok bytes =>
      let (block, c) := c.compress bytes
      let (result, c) := blocks c rest
      (result.map (block :: ·), c)

/-- The body of a request; there is none when no sample fits into a record. -/
def body? (s : Sender) (now : Int64) (points : List Point) :
    Except EncodingFault (Option Body) × Sender :=
  match s.protocol with
  | .http =>
    match Line.writeAll points with
    | .error fault => (.error fault, s)
    | .ok text =>
      let (block, compressor) := s.compressor.compress (Utf8.encode text)
      (.ok (some (.lines .nanosecond block)), { s with compressor })
  | .grpc =>
    match Record.all now points with
    | [] => (.ok none, s)
    | records =>
      let (result, compressor) := blocks s.compressor records
      (result.map fun blocks => some (.records records blocks), { s with compressor })

def notices (s : Sender) (now : Int64) (points : List Point) : List Notice :=
  match s.protocol with
  | .http => []
  | .grpc => Record.allNotices now points

def noteAll (out : Listener τ) (notices : List Notice) (t : τ) : τ :=
  notices.foldl (fun t n => out.note n t) t

def flag (s : Sender) (out : Carrier τ) (url : String) (down : Bool) (t : τ) : Sender × τ :=
  ({ s with rotation := s.rotation.setDown url down },
    noteAll out.toListener (s.rotation.flagNotices url down) t)

def settle (s : Sender) (out : Carrier τ) (url : String) (outcome : Outcome DeliveryFault)
    (t : τ) : Outcome WriteFault × Sender × τ :=
  match outcome with
  | .done => (.done, s, t)
  | .panicked panic => (.panicked panic, s, t)
  | .failed fault =>
    match fault with
    | .unreachable .. => (.failed (.delivery fault), s.flag out url true t)
    | _ => (.failed (.delivery fault), s, t)

def post (s : Sender) (out : Carrier τ) (destination : Destination) (body : Body) (t : τ) :
    Outcome WriteFault × Sender × τ :=
  let (url, rotation) := s.rotation.next
  let s := { s with rotation }
  let (outcome, t) := out.post url { destination, algorithm := s.compressor.algorithm, body } t
  s.settle out url outcome t

def send (s : Sender) (out : Carrier τ) (parcel : Parcel) (t : τ) :
    Outcome WriteFault × Sender × τ :=
  let (destination, points) := parcel
  if points = [] then (.done, s, t)
  else
    let now := out.now t
    let t := noteAll out.toListener (s.notices now points) t
    match s.body? now points with
    | (.error fault, s) => (.failed (.encoding fault), s, t)
    | (.ok none, s) =>
      (.done, s, out.note (.nothingEncodable points.length destination.text) t)
    | (.ok (some body), s) => s.post out destination body t

def sendAll (s : Sender) (out : Carrier τ) : List Parcel → τ → Outcome WriteFault × Sender × τ
  | [], t => (.done, s, t)
  | parcel :: rest, t =>
    match s.send out parcel t with
    | (.done, s, t) => s.sendAll out rest t
    | failed => failed

def check (s : Sender) (out : Carrier τ) : List String → τ → Nat × Sender × τ
  | [], t => (0, s, t)
  | url :: rest, t =>
    match out.ping url t with
    | (none, t) =>
      let (s, t) := s.flag out url false t
      let (answered, s, t) := s.check out rest t
      (answered + 1, s, t)
    | (some fault, t) =>
      let (s, t) := s.flag out url true (out.note (.pingFailed url fault) t)
      s.check out rest t

def outside (out : Carrier τ) : Outside (Sender × τ) where
  dropped entry st := (st.1, out.dropped entry st.2)
  failed fault points st :=
    let (panic, t) := out.failed fault points st.2
    (panic, st.1, t)
  note notice st := (st.1, out.note notice st.2)
  send parcels st := st.1.sendAll out parcels st.2
  close st := (st.1, out.close st.2)

end Sender
end SeriesIngest
