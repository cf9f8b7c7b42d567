import SeriesIngest.Client
import SeriesIngest.Outbox.History
/-! Clients in use: steps, and a carrier that writes down what reaches it. -/
namespace SeriesIngest.Client

inductive Call where
  | posted (url : String) (request : Request) (outcome : Outcome DeliveryFault)
  | pinged (url : String) (fault : Option DeliveryFault)
  | closed
  | heard (what : Heard)
deriving DecidableEq

/-- What a server does, which may hang on all that was before. -/
structure Server where
  post : List Call → String → Request → Outcome DeliveryFault
  ping : List Call → String → Option DeliveryFault
  now : List Call → Int64

def recording (server : Server) (handlers : Handlers) : Carrier (List Call) where
  toListener := .recording handlers .heard
  post url request history :=
    let outcome := server.post history url request
    (outcome, history ++ [.posted url request outcome])
  ping url history :=
    let fault := server.ping history url
    (fault, history ++ [.pinged url fault])
  close history := history ++ [.closed]
  now := server.now

inductive Step where
  | write (destination : Destination) (points : List Point)
  | flush
  | check
  | close
deriving DecidableEq

inductive Result where
  | wrote (outcome : Outcome WriteFault)
  | checked (answered : Nat)
  | done
deriving DecidableEq

def perform (c : Client) (out : Carrier τ) (t : τ) : Step → Result × Client × τ
  | .write destination points =>
    let (outcome, c, t) := c.write out destination points t
    (.wrote outcome, c, t)
  | .flush => (.done, c.flush out t)
  | .check =>
    let (answered, c, t) := c.check out t
    (.checked answered, c, t)
  | .close => (.done, c.close out t)

def run (c : Client) (out : Carrier τ) (t : τ) : List Step → List Result × Client × τ
  | [] => ([], c, t)
  | step :: steps =>
    let (result, c, t) := c.perform out t step
    let (results, c, t) := c.run out t steps
    (result :: results, c, t)

end SeriesIngest.Client
