import SeriesIngest.Outbox
/-! Outboxes in use: steps, and an outside that writes down what reaches it. -/
namespace SeriesIngest

inductive Heard where
  | dropped (entry : Entry)
  | failed (fault : WriteFault) (points : List Point)
  | noted (notice : Notice)
deriving DecidableEq

structure Handlers where
  dropped : Bool := false
  failed : Option (WriteFault → List Point → Option Panic) := none

def Listener.recording (handlers : Handlers) (item : Heard → α) : Listener (List α) where
  dropped entry history := if handlers.dropped then history ++ [item (.dropped entry)] else history
  failed fault points history :=
    match handlers.failed with
    | none => (none, history)
    | some answer => (answer fault points, history ++ [item (.failed fault points)])
  note notice history := history ++ [item (.noted notice)]

namespace Outbox

inductive Call where
  | sent (parcels : List Parcel) (outcome : Outcome WriteFault)
  | closed
  | heard (what : Heard)
deriving DecidableEq

def recording (answer : List Call → List Parcel → Outcome WriteFault) (handlers : Handlers) :
    Outside (List Call) where
  toListener := .recording handlers .heard
  send parcels history :=
    let outcome := answer history parcels
    (outcome, history ++ [.sent parcels outcome])
  close history := history ++ [.closed]

inductive Step where
  | enable
  | disable
  | flush
  | shutDown
  | put (entry : Entry) (how : Release)
deriving DecidableEq

def perform (o : Outbox) (out : Outside σ) (s : σ) : Step → Except WriteFault Unit × Outbox × σ
  | .enable => o.enable out s
  | .disable => (.ok (), o.disable out s)
  | .flush => (.ok (), o.flush out s)
  | .shutDown => (.ok (), o.shutDown out s)
  | .put entry how => o.put out entry how s

def run (o : Outbox) (out : Outside σ) (s : σ) :
    List Step → List (Except WriteFault Unit) × Outbox × σ
  | [] => ([], o, s)
  | step :: steps =>
    let (result, o, s) := o.perform out s step
    let (results, o, s) := o.run out s steps
    (result :: results, o, s)

end Outbox
end SeriesIngest
