import SeriesIngest.Outbox.Outside
import SeriesIngest.Record
/-! Requests to a server, and the carrier that brings them there. -/
namespace SeriesIngest

/-- Blocks of bytes are compressed already. -/
inductive Body where
  /-- Lines of text; the unit is that of their times. -/
  | lines (unit : Precision) (block : List UInt8)
  /-- Records, and the block of each. -/
  | records (records : List Record) (blocks : List (List UInt8))
deriving DecidableEq

structure Request where
  destination : Destination
  algorithm : Algorithm
  body : Body
deriving DecidableEq

structure Carrier (τ : Type) extends Listener τ where
  /-- Brings a request to the endpoint with that URL. -/
  post : String → Request → τ → Outcome DeliveryFault × τ
  /-- Asks the endpoint for a sign of life; a fault means that there was none. -/
  ping : String → τ → Option DeliveryFault × τ
  close : τ → τ
  /-- The present time, for samples without one. -/
  now : τ → Int64

end SeriesIngest
