import SeriesIngest.Outbox.History
/-! What stands behind the phase of an outbox. The queue has a door of its own. While the outbox
is armed a worker carries out orders to flush, one after the other, and flushes by itself each
time the interval is over. The put that completes the number of actions does not flush but asks
the worker to, unless that was asked already. -/
namespace SeriesIngest.Outbox

structure Staffed extends Outbox where
  isOpen : Bool := false
  hasWorker : Bool := false
  /-- A flush was asked for and none has begun since. -/
  requested : Bool := false
  /-- Orders to flush that the worker has not begun. -/
  orders : Nat := 0

namespace Staffed

def ofOptions (options : Options) : Except SettingsFault Staffed :=
  (Outbox.ofOptions options).map fun box => { toOutbox := box }

def write (o : Staffed) (out : Outside σ) (s : σ) : Staffed × σ :=
  let (box, s) := o.toOutbox.write out s
  ({ o with toOutbox := box, requested := false }, s)

def ask (o : Staffed) : Staffed :=
  if o.requested then o else { o with requested := true, orders := o.orders + 1 }

def carryOut (o : Staffed) (out : Outside σ) (s : σ) : Staffed × σ :=
  { o with orders := o.orders - 1 }.write out s

def serve (o : Staffed) (out : Outside σ) (s : σ) : Nat → Staffed × σ
  | 0 => (o, s)
  | n + 1 =>
    let (o, s) := o.carryOut out s
    o.serve out s n

def finish (o : Staffed) (out : Outside σ) (s : σ) : Staffed × σ :=
  if o.hasWorker then o.serve out s o.orders else (o, s)

def enable (o : Staffed) (out : Outside σ) (s : σ) : Except WriteFault Unit × Staffed × σ :=
  match o.phase with
  | .armed => (.ok (), o, s)
  | .closed => (.error .closed, o, s)
  | .disabled =>
    (.ok (), { o with phase := .armed, isOpen := true, hasWorker := true },
      out.note (.enabled o.options.actions o.options.bufferLimit) s)

def flush (o : Staffed) (out : Outside σ) (s : σ) : Staffed × σ :=
  if o.phase = .armed then
    let (o, s) := o.finish out s
    o.write out s
  else (o, s)

/-- The worker leaves after its last order. Entries that are queued by now go in one more flush,
made by the caller. -/
def stop (o : Staffed) (out : Outside σ) (s : σ) : Staffed × σ :=
  let (o, s) := o.finish out s
  { o with hasWorker := false, isOpen := false }.write out s

def disable (o : Staffed) (out : Outside σ) (s : σ) : Staffed × σ :=
  if o.phase = .armed then
    let (o, s) := o.stop out s
    ({ o with phase := .disabled }, out.note .disabled s)
  else (o, s)

def shutDown (o : Staffed) (out : Outside σ) (s : σ) : Staffed × σ :=
  if o.phase = .closed then (o, s)
  else
    let (o, s) := if o.phase = .armed then o.stop out s else (o, s)
    ({ o with phase := .closed }, out.note .shutDown (out.close s))

def drop (o : Staffed) (out : Outside σ) (s : σ) : Staffed × σ :=
  if o.phase = .armed then o.shutDown out (out.note .droppedWhileArmed s) else (o, s)

def release (o : Staffed) (out : Outside σ) (how : Release) (s : σ) : Staffed × σ :=
  match how with
  | .flush => o.flush out s
  | .disable => o.disable out s
  | .shutDown => o.shutDown out s

def isBlocked (o : Staffed) : Bool :=
  o.isOpen && o.isFull && !o.options.dropWhenFull

def accept (o : Staffed) (e : Entry) : Staffed :=
  { o with toOutbox := o.toOutbox.accept e }

def offer (o : Staffed) (out : Outside σ) (e : Entry) (how : Release) (s : σ) :
    Except WriteFault Bool × Staffed × σ :=
  if !o.isOpen then (.error .closed, o, s)
  else if !o.isFull then (.ok true, o.accept e, s)
  else if o.options.dropWhenFull then
    let (box, s) := o.toOutbox.discard out e s
    (.ok false, { o with toOutbox := box }, s)
  else
    let (o, s) := o.release out how s
    if !o.isOpen then (.error .closed, o, s) else (.ok true, o.accept e, s)

def put (o : Staffed) (out : Outside σ) (e : Entry) (how : Release) (s : σ) :
    Except WriteFault Unit × Staffed × σ :=
  match o.offer out e how s with
  | (.ok true, o, s) => (.ok (), if o.options.actions ≤ o.queue.length then o.ask else o, s)
  | (.ok false, o, s) => (.ok (), o, s)
  | (.error fault, o, s) => (.error fault, o, s)

def perform (o : Staffed) (out : Outside σ) (s : σ) :
    Step → Except WriteFault Unit × Staffed × σ
  | .enable => o.enable out s
  | .disable => (.ok (), o.disable out s)
  | .flush => (.ok (), o.flush out s)
  | .shutDown => (.ok (), o.shutDown out s)
  | .put entry how => o.put out entry how s

/-- Who is next: a caller, or the worker on its own. A put may be overtaken by the worker between
its two halves, the entry and the request, which then are two turns. -/
inductive Turn where
  | call (step : Step)
  | offer (entry : Entry) (how : Release)
  | ask
  | work
  | tick
deriving DecidableEq

def happen (o : Staffed) (out : Outside σ) (s : σ) :
    Turn → Except WriteFault Unit × Staffed × σ
  | .call step => o.perform out s step
  | .offer entry how =>
    let (result, o, s) := o.offer out entry how s
    (result.map fun _ => (), o, s)
  | .ask => (.ok (), o.ask, s)
  | .work => (.ok (), if o.hasWorker && o.orders ≠ 0 then o.carryOut out s else (o, s))
  | .tick => (.ok (), if o.hasWorker then o.write out s else (o, s))

def live (o : Staffed) (out : Outside σ) (s : σ) : List Turn → Staffed × σ
  | [] => (o, s)
  | turn :: turns =>
    let (_, o, s) := o.happen out s turn
    o.live out s turns

end Staffed
end SeriesIngest.Outbox
