import SeriesIngest.Fault
/-! When the queue is flushed and what it does when it is full. Times are in milliseconds. -/
namespace SeriesIngest

structure Outbox.Options where
  /-- A queue of that length is flushed at once. -/
  actions : Nat := 1000
  interval : Nat := 1000
  /-- Each interval is drawn out by a random time below this bound. -/
  jitter : Nat := 0
  /-- Zero stands for no limit. -/
  bufferLimit : Nat := 10000
  dropWhenFull : Bool := false
deriving DecidableEq

namespace Outbox.Options

def validate (o : Options) : Except SettingsFault Unit :=
  if o.actions = 0 then .error (.notPositive "actions")
  else if o.interval = 0 then .error (.notPositive "flush_interval")
  else .ok ()

end Outbox.Options
end SeriesIngest
