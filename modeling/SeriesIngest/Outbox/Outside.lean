import SeriesIngest.Notice
import SeriesIngest.Outbox.Parcel
/-! What an outbox talks to. Its state `σ` is open: every call takes one and gives the next. -/
namespace SeriesIngest

inductive Panic where
  | text (message : String)
  | other
deriving DecidableEq

def Panic.message : Panic → String
  | text message => message
  | other => "non-string panic payload"

inductive Outcome (ε : Type) where
  | done
  | failed (fault : ε)
  | panicked (panic : Panic)
deriving DecidableEq

def Outcome.fault? : Outcome WriteFault → Option WriteFault
  | done => none
  | failed fault => some fault
  | panicked panic => some (.panicked panic.message)

/-- Those who hear of what happens. Without a handler the state stays as it is. -/
structure Listener (σ : Type) where
  /-- An entry found the queue full and is lost. -/
  dropped : Entry → σ → σ
  /-- A flush failed; the samples are in the order of their arrival. -/
  failed : WriteFault → List Point → σ → Option Panic × σ
  note : Notice → σ → σ

structure Outside (σ : Type) extends Listener σ where
  /-- Takes all that one flush brings, which may be nothing. -/
  send : List Parcel → σ → Outcome WriteFault × σ
  /-- Comes once, after the last flush. -/
  close : σ → σ

end SeriesIngest
