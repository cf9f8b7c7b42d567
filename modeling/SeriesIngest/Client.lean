import SeriesIngest.Client.Sender
import SeriesIngest.Outbox
import SeriesIngest.Settings
/-! A client writes samples to the endpoints of its settings: at once, or through an outbox
when the settings ask for batches. -/
namespace SeriesIngest

structure Client where
  sender : Sender
  outbox : Option Outbox
  closed : Bool := false

namespace Client

def isBatching (c : Client) : Bool := c.outbox.isSome

def ofSettings (codecs : Codecs) (settings : Settings) : Except SettingsFault Client := do
  settings.validate
  let rotation ← Rotation.ofUrls settings.endpoints
  let outbox ← settings.batchOptions.mapM Outbox.ofOptions
  let compressor : Compressor := { codecs, algorithm := settings.algorithm }
  return { sender := { protocol := settings.protocol, rotation, compressor }, outbox }

def onOutbox (c : Client) (t : τ) (act : Outbox → Sender × τ → Outbox × Sender × τ) : Client × τ :=
  match c.outbox with
  | none => (c, t)
  | some box =>
    let (box, sender, t) := act box (c.sender, t)
    ({ c with sender, outbox := some box }, t)

def start (codecs : Codecs) (settings : Settings) (out : Carrier τ) (t : τ) :
    Except WriteFault (Client × τ) :=
  match ofSettings codecs settings with
  | .error fault => .error (.settings fault)
  | .ok c =>
    let (c, t) := c.onOutbox t fun box st => (box.enable (Sender.outside out) st).2
    let ready : Notice := .clientReady c.sender.rotation.size settings.protocol settings.algorithm
      c.isBatching
    .ok (c, out.note ready t)

/-- Writes the samples, or none of them if one cannot be encoded. With batches a full queue
holds the samples up until it is flushed. -/
def write (c : Client) (out : Carrier τ) (destination : Destination) (points : List Point)
    (t : τ) : Outcome WriteFault × Client × τ :=
  if c.closed then (.failed .closed, c, t)
  else match points.findSome? c.sender.protocol.fault? with
    | some fault => (.failed (.encoding fault), c, t)
    | none =>
      match c.outbox with
      | none =>
        let (outcome, sender, t) := c.sender.send out (destination, points) t
        (outcome, { c with sender }, t)
      | some box =>
        let entries := points.map fun point => { point, destination }
        let (result, box, sender, t) := box.putAll (Sender.outside out) .flush entries (c.sender, t)
        let c := { c with sender, outbox := some box }
        match result with
        | .ok () => (.done, c, t)
        | .error fault => (.failed fault, c, t)

def flush (c : Client) (out : Carrier τ) (t : τ) : Client × τ :=
  c.onOutbox t fun box st => box.flush (Sender.outside out) st

def check (c : Client) (out : Carrier τ) (t : τ) : Nat × Client × τ :=
  let (answered, sender, t) := c.sender.check out c.sender.rotation.urls t
  (answered, { c with sender }, t)

def close (c : Client) (out : Carrier τ) (t : τ) : Client × τ :=
  if c.closed then (c, t)
  else
    let (c, t) :=
      if c.isBatching then c.onOutbox t fun box st => box.shutDown (Sender.outside out) st
      else (c, out.close t)
    ({ c with closed := true }, out.note .clientClosed t)

def drop (c : Client) (out : Carrier τ) (t : τ) : Client × τ :=
  if c.closed then (c, t) else c.close out (out.note .clientDropped t)

end Client
end SeriesIngest
