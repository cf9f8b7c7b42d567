import SeriesIngest.Outbox
/-! An outbox in words, for people who look for a fault. -/
namespace SeriesIngest

/-- A time span in its largest unit that leaves a whole part; the fraction has no trailing
zeros. -/
def spanText (milliseconds : Nat) : String :=
  let seconds := milliseconds / 1000
  let rest := milliseconds % 1000
  if milliseconds = 0 then "0ns"
  else if seconds = 0 then s!"{rest}ms"
  else if rest = 0 then s!"{seconds}s"
  else
    let places := [rest / 100, rest / 10 % 10, rest % 10]
    let fraction := (places.reverse.dropWhile (· = 0)).reverse
    s!"{seconds}.{String.join (fraction.map toString)}s"

def recordText (name : String) (members : List (String × String)) : String :=
  let items := members.map fun (key, value) => key ++ ": " ++ value
  name ++ " \x7b " ++ String.intercalate ", " items ++ " \x7d"

namespace Outbox

def Options.describe (o : Options) : String :=
  recordText "BatchOptions" [("actions", toString o.actions),
    ("flush_interval", spanText o.interval), ("jitter", spanText o.jitter),
    ("buffer_limit", toString o.bufferLimit), ("drop_on_exhaustion", toString o.dropWhenFull)]

def Counts.describe (c : Counts) : String :=
  recordText "ProcessorStats" [("enqueued", toString c.enqueued), ("dropped", toString c.dropped),
    ("flushed_points", toString c.flushedPoints), ("flushes", toString c.flushes),
    ("failed_flushes", toString c.failedFlushes)]

def describe (o : Outbox) : String :=
  recordText "BatchProcessor" [("options", o.options.describe),
    ("pending", toString o.queue.length), ("stats", o.counts.describe)]

end Outbox
end SeriesIngest
