import SeriesIngest.Endpoint.Address
import SeriesIngest.Outbox.Options
/-! The settings of a client and the rules that they must meet. -/
namespace SeriesIngest

structure BatchSettings where
  actions : Option Nat := none
  interval : Option Nat := none
  jitter : Option Nat := none
  bufferLimit : Option Nat := none
  dropWhenFull : Bool := false
deriving DecidableEq

def BatchSettings.options (b : BatchSettings) : Outbox.Options :=
  let base : Outbox.Options := {}
  { actions := b.actions.getD base.actions
    interval := b.interval.getD base.interval
    jitter := b.jitter.getD base.jitter
    bufferLimit := b.bufferLimit.getD base.bufferLimit
    dropWhenFull := b.dropWhenFull }

/-- Without batch settings every write is sent at once. -/
structure Settings where
  endpoints : List String
  protocol : Protocol := .http
  algorithm : Algorithm := .none
  batch : Option BatchSettings := none
deriving DecidableEq

namespace Settings

def batchOptions (s : Settings) : Option Outbox.Options := s.batch.map (·.options)

/-- The first rule that is broken is the fault, in this order. -/
def validate (s : Settings) : Except SettingsFault Unit :=
  if s.endpoints = [] then .error .noEndpoints
  else match s.endpoints.find? (!Address.isValid ·) with
    | some url => .error (.invalidEndpoint url)
    | none =>
      if !s.protocol.supports s.algorithm then
        .error (.unsupportedCompression s.algorithm s.protocol)
      else match s.batchOptions with
        | some options => options.validate
        | none => .ok ()

end Settings
end SeriesIngest
