import SeriesIngest.Outbox.Options
import SeriesIngest.Outbox.Outside
/-! A queue of entries that leaves in flushes:

  disabled --enable--> armed --shutDown--> closed
      ^                  |                    ^
      +---- disable -----+    disabled -------+

Only an armed outbox takes entries. A flush empties the queue, groups its entries into parcels
and hands them over in one call; what fails goes to a listener and is not tried again. -/
namespace SeriesIngest

inductive Outbox.Phase where
  | disabled | armed | closed
deriving DecidableEq

structure Outbox.Counts where
  enqueued : Nat := 0
  dropped : Nat := 0
  flushedPoints : Nat := 0
  flushes : Nat := 0
  failedFlushes : Nat := 0
deriving DecidableEq

structure Outbox where
  options : Outbox.Options
  valid : options.validate = .ok ()
  phase : Outbox.Phase := .disabled
  queue : List Entry := []
  counts : Outbox.Counts := {}

namespace Outbox

def ofOptions (options : Options) : Except SettingsFault Outbox :=
  match h : options.validate with
  | .error fault => .error fault
  | .ok () => .ok { options, valid := h }

inductive Release where
  | flush | disable | shutDown
deriving DecidableEq

/-- A listener that panics is itself worth a notice. -/
def report (out : Outside σ) (fault : WriteFault) (points : List Point) (s : σ) : σ :=
  match out.failed fault points (out.note (.flushFailed points.length fault) s) with
  | (none, s) => s
  | (some panic, s) => out.note (.handlerPanicked panic.message) s

/-- The whole queue leaves in one call, also when it is empty. -/
def write (o : Outbox) (out : Outside σ) (s : σ) : Outbox × σ :=
  let points := o.queue.length
  let counts := { o.counts with flushes := o.counts.flushes + 1 }
  let (parcels, order) := Entry.pack o.queue
  let (outcome, s) := out.send parcels s
  match outcome.fault? with
  | none =>
    let counts := { counts with flushedPoints := counts.flushedPoints + points }
    ({ o with queue := [], counts },
      if points = 0 then s else out.note (.flushed points parcels.length) s)
  | some fault =>
    let counts := { counts with failedFlushes := counts.failedFlushes + 1 }
    ({ o with queue := [], counts }, report out fault (Parcel.unpack parcels order) s)

def enable (o : Outbox) (out : Outside σ) (s : σ) : Except WriteFault Unit × Outbox × σ :=
  match o.phase with
  | .armed => (.ok (), o, s)
  | .closed => (.error .closed, o, s)
  | .disabled =>
    (.ok (), { o with phase := .armed },
      out.note (.enabled o.options.actions o.options.bufferLimit) s)

def flush (o : Outbox) (out : Outside σ) (s : σ) : Outbox × σ :=
  if o.phase = .armed then o.write out s else (o, s)

def disable (o : Outbox) (out : Outside σ) (s : σ) : Outbox × σ :=
  if o.phase = .armed then
    let (o, s) := o.write out s
    ({ o with phase := .disabled }, out.note .disabled s)
  else (o, s)

def shutDown (o : Outbox) (out : Outside σ) (s : σ) : Outbox × σ :=
  if o.phase = .closed then (o, s)
  else
    let (o, s) := o.flush out s
    ({ o with phase := .closed }, out.note .shutDown (out.close s))

/-- The end of an outbox that nobody shut down. One that is not armed holds nothing back. -/
def drop (o : Outbox) (out : Outside σ) (s : σ) : Outbox × σ :=
  if o.phase = .armed then o.shutDown out (out.note .droppedWhileArmed s) else (o, s)

def release (o : Outbox) (out : Outside σ) (how : Release) (s : σ) : Outbox × σ :=
  match how with
  | .flush => o.flush out s
  | .disable => o.disable out s
  | .shutDown => o.shutDown out s

def isFull (o : Outbox) : Bool :=
  o.options.bufferLimit ≠ 0 && o.options.bufferLimit ≤ o.queue.length

def isBlocked (o : Outbox) : Bool :=
  o.phase = .armed && o.isFull && !o.options.dropWhenFull

def accept (o : Outbox) (e : Entry) : Outbox :=
  { o with
    queue := o.queue ++ [e]
    counts := { o.counts with enqueued := o.counts.enqueued + 1 } }

def append (o : Outbox) (out : Outside σ) (e : Entry) (s : σ) : Outbox × σ :=
  let o := o.accept e
  if o.options.actions ≤ o.queue.length then o.write out s else (o, s)

def discard (o : Outbox) (out : Outside σ) (e : Entry) (s : σ) : Outbox × σ :=
  ({ o with counts := { o.counts with dropped := o.counts.dropped + 1 } },
    out.dropped e (out.note (.queueFull o.options.bufferLimit e.destination.text) s))

/-- Takes an entry. When the queue is full the entry is discarded, which is no fault, or it
waits for a release: a flush makes room for it, and after any other it is refused. -/
def put (o : Outbox) (out : Outside σ) (e : Entry) (how : Release) (s : σ) :
    Except WriteFault Unit × Outbox × σ :=
  if o.phase ≠ .armed then (.error .closed, o, s)
  else if !o.isFull then (.ok (), o.append out e s)
  else if o.options.dropWhenFull then (.ok (), o.discard out e s)
  else
    let (o, s) := o.release out how s
    if o.phase ≠ .armed then (.error .closed, o, s) else (.ok (), o.append out e s)

def putAll (o : Outbox) (out : Outside σ) (how : Release) :
    List Entry → σ → Except WriteFault Unit × Outbox × σ
  | [], s => (.ok (), o, s)
  | e :: rest, s =>
    match o.put out e how s with
    | (.ok (), o, s) => o.putAll out how rest s
    | refused => refused

end Outbox
end SeriesIngest
