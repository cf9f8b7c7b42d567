import SeriesIngest.Fault
/-! What the library tells its log, as events, with the level and the text of each. -/
namespace SeriesIngest

inductive Level where
  | debug | info | warn | error
deriving DecidableEq

namespace Level

def name : Level → String
  | debug => "DEBUG"
  | info => "INFO"
  | warn => "WARN"
  | error => "ERROR"

def rank : Level → Nat
  | debug => 0
  | info => 1
  | warn => 2
  | error => 3

end Level

inductive Notice where
  | mismatchedCells (column type : String) (count : Nat)
  | rowSkipped (measurement : String) (fault : EncodingFault)
  | groupSkipped (measurement : String) (points : Nat) (fault : EncodingFault)
  | markedDown (url : String)
  | markedUp (url : String)
  | enabled (actions bufferLimit : Nat)
  | disabled
  | shutDown
  | queueFull (limit : Nat) (destination : String)
  | flushed (points destinations : Nat)
  | flushFailed (points : Nat) (fault : WriteFault)
  | handlerPanicked (text : String)
  | droppedWhileArmed
  | nothingEncodable (points : Nat) (destination : String)
  | pingFailed (url : String) (fault : DeliveryFault)
  | clientReady (endpoints : Nat) (protocol : Protocol) (algorithm : Algorithm) (batching : Bool)
  | clientClosed
  | clientDropped
deriving DecidableEq

namespace Notice

def level : Notice → Level
  | markedUp _ => .info
  | rowSkipped .. | groupSkipped .. | markedDown _ | queueFull .. | flushFailed ..
  | droppedWhileArmed | nothingEncodable .. | clientDropped => .warn
  | handlerPanicked _ => .error
  | _ => .debug

def text : Notice → String
  | mismatchedCells column type count =>
    s!"[record] column '{column}' ({type}): {count} value(s) of another type stored as null"
  | rowSkipped measurement fault => s!"[record] '{measurement}': skipping row: {fault.message}"
  | groupSkipped measurement points fault =>
    s!"[record] skipping {points} point(s) of '{measurement}': {fault.message}"
  | markedDown url => s!"[endpoint] {url} marked down"
  | markedUp url => s!"[endpoint] {url} back up"
  | enabled actions bufferLimit =>
    s!"[batch] enabled (actions={actions}, buffer_limit={bufferLimit})"
  | disabled => "[batch] disabled"
  | shutDown => "[batch] shut down"
  | queueFull limit destination =>
    s!"[batch] queue full ({limit}), dropping point for {destination}"
  | flushed points destinations =>
    s!"[batch] flushed {points} point(s) to {destinations} destination(s)"
  | flushFailed points fault => s!"[batch] flush of {points} point(s) failed: {fault.message}"
  | handlerPanicked text => s!"[batch] exception handler panicked: {text}"
  | droppedWhileArmed => "[batch] processor dropped while armed, flushing pending points"
  | nothingEncodable points destination =>
    s!"[dispatch] none of {points} point(s) for {destination} could be encoded"
  | pingFailed url fault => s!"[dispatch] ping {url} failed: {fault.message}"
  | clientReady endpoints protocol algorithm batching =>
    s!"[dispatch] client ready ({endpoints} endpoint(s), protocol={protocol.name}, " ++
      s!"compression={algorithm.name}, batching={batching})"
  | clientClosed => "[dispatch] client closed"
  | clientDropped => "[dispatch] WriteClient dropped without close(), flushing"

def line (n : Notice) : String := s!"{n.level.name} {n.text}"

end Notice
end SeriesIngest
