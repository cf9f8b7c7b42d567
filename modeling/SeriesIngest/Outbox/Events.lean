import SeriesIngest.Outbox.History
/-! What may happen to an outbox whose flushes run beside the puts, and what becomes of the
entries. A put is made of moves, so that the flush it sets off can come later. -/
namespace SeriesIngest.Outbox

inductive Move where
  | arm
  | take (entry : Entry)
  | discard (entry : Entry)
  | write
  | rest
  | shut
  | warn
deriving DecidableEq

def act (o : Outbox) (out : Outside σ) (s : σ) : Move → Outbox × σ
  | .arm =>
    ({ o with phase := .armed }, out.note (.enabled o.options.actions o.options.bufferLimit) s)
  | .take entry => (o.accept entry, s)
  | .discard entry => o.discard out entry s
  | .write => o.write out s
  | .rest => ({ o with phase := .disabled }, out.note .disabled s)
  | .shut => ({ o with phase := .closed }, out.note .shutDown (out.close s))
  | .warn => (o, out.note .droppedWhileArmed s)

def follow (o : Outbox) (out : Outside σ) (s : σ) : List Move → Outbox × σ
  | [] => (o, s)
  | move :: moves => (o.act out s move).1.follow out (o.act out s move).2 moves

def admission (o : Outbox) (entry : Entry) (how : Release) : List Move :=
  if o.phase ≠ .armed then []
  else if !o.isFull then [.take entry]
  else if o.options.dropWhenFull then [.discard entry]
  else match how with
    | .flush => [.write, .take entry]
    | .disable => [.write, .rest]
    | .shutDown => [.write, .shut]

/-- What may happen to an outbox. The flush that an entry sets off runs beside the puts, so
that entries can be ahead of it: it is then a step of its own. -/
inductive Event where
  | step (step : Step)
  | putAhead (entry : Entry) (how : Release)
  | drop

def Event.entry? : Event → Option Entry
  | .step (.put entry _) => some entry
  | .putAhead entry _ => some entry
  | _ => none

def happen (o : Outbox) (out : Outside σ) (s : σ) :
    Event → Except WriteFault Unit × Outbox × σ
  | .step step => o.perform out s step
  | .putAhead entry how => ((o.put out entry how s).1, o.follow out s (o.admission entry how))
  | .drop => (.ok (), o.drop out s)

def live (o : Outbox) (out : Outside σ) (s : σ) : List Event → Outbox × σ
  | [] => (o, s)
  | event :: events => (o.happen out s event).2.1.live out (o.happen out s event).2.2 events

inductive Fate where
  | taken | discarded | refused
deriving DecidableEq

/-- A put that is no fault has lost its entry when the queue was full and no one waits. -/
def fate (o : Outbox) : Except WriteFault Unit → Fate
  | .error _ => .refused
  | .ok () => if o.isFull && o.options.dropWhenFull then .discarded else .taken

def fates (o : Outbox) (out : Outside σ) (s : σ) : List Event → List (Entry × Fate)
  | [] => []
  | event :: events =>
    (event.entry?.map (·, o.fate (o.happen out s event).1)).toList ++
      (o.happen out s event).2.1.fates out (o.happen out s event).2.2 events

def withFate (fate : Fate) (fates : List (Entry × Fate)) : List Entry :=
  (fates.filter (·.2 = fate)).map (·.1)

end SeriesIngest.Outbox
