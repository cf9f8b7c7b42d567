import SeriesIngest.Client.History
import SeriesIngest.Outbox.Events
/-! Clients in use whose flushes run beside their writes. -/
namespace SeriesIngest.Client

/-- What may happen to a client. The flushes of a queue run beside the writes: they may come
before any sample of a write, and the one that a sample sets off may lag behind. -/
inductive Event where
  | step (step : Step)
  | writeAhead (destination : Destination) (puts : List (Nat × Point))
  | drop

def refusal? (c : Client) (points : List Point) : Option WriteFault :=
  if c.closed then some .closed else (points.findSome? c.sender.protocol.fault?).map .encoding

def putsAhead (destination : Destination) (puts : List (Nat × Point)) : List Outbox.Event :=
  puts.flatMap fun (flushes, point) =>
    List.replicate flushes (.step .flush) ++ [.putAhead ⟨point, destination⟩ .flush]

def happen (c : Client) (out : Carrier τ) (t : τ) : Event → Result × Client × τ
  | .step step => c.perform out t step
  | .drop => (.done, c.drop out t)
  | .writeAhead destination puts =>
    match c.refusal? (puts.map (·.2)), c.outbox with
    | some fault, _ => (.wrote (.failed fault), c, t)
    | none, none => c.perform out t (.write destination (puts.map (·.2)))
    | none, some box =>
      let fates := box.fates (Sender.outside out) (c.sender, t) (putsAhead destination puts)
      (.wrote (if fates.any (·.2 = .refused) then .failed .closed else .done),
        c.onOutbox t fun box st => box.live (Sender.outside out) st (putsAhead destination puts))

def live (c : Client) (out : Carrier τ) (t : τ) : List Event → Client × τ
  | [] => (c, t)
  | event :: events => (c.happen out t event).2.1.live out (c.happen out t event).2.2 events

def results (c : Client) (out : Carrier τ) (t : τ) : List Event → List Result
  | [] => []
  | event :: events =>
    (c.happen out t event).1 ::
      (c.happen out t event).2.1.results out (c.happen out t event).2.2 events

def Event.isFlush : Event → Bool
  | .step .flush => true
  | _ => false

/-- The flush that a full number of actions sets off is the next event, if it was not over before. -/
def isTimely (c : Client) (out : Carrier τ) (t : τ) : List Event → Bool
  | [] => true
  | event :: events =>
    (event.isFlush || c.outbox.all fun box => box.queue.length < box.options.actions) &&
      (c.happen out t event).2.1.isTimely out (c.happen out t event).2.2 events

def Event.entries : Event → List Entry
  | .step (.write destination points) => points.map fun point => { point, destination }
  | .writeAhead destination puts => puts.map fun put => { point := put.2, destination }
  | _ => []

def written (c : Client) (out : Carrier τ) (t : τ) : List Event → List Entry
  | [] => []
  | event :: events =>
    (if (c.happen out t event).1 = .wrote .done then event.entries else []) ++
      (c.happen out t event).2.1.written out (c.happen out t event).2.2 events

/-- What an event of a client is to its outbox. -/
def Event.inOutbox (c : Client) : Event → List Outbox.Event
  | .step (.write destination points) =>
    if (c.refusal? points).isSome then []
    else points.map fun point => .step (.put { point, destination } .flush)
  | .writeAhead destination puts =>
    if (c.refusal? (puts.map (·.2))).isSome then [] else putsAhead destination puts
  | .step .flush => [.step .flush]
  | .step .check => []
  | .step .close | .drop => if c.closed then [] else [.step .shutDown]

def fates (c : Client) (out : Carrier τ) (t : τ) : List Event → List (Entry × Outbox.Fate)
  | [] => []
  | event :: events =>
    (match c.outbox with
      | none => []
      | some box => box.fates (Sender.outside out) (c.sender, t) (event.inOutbox c)) ++
      (c.happen out t event).2.1.fates out (c.happen out t event).2.2 events

end SeriesIngest.Client
