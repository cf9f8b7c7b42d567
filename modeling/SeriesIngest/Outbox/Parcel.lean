import SeriesIngest.Grouping
import SeriesIngest.Point
/-! Samples on their way to a database, and the parcels in which they travel. -/
namespace SeriesIngest

structure Destination where
  database : String
  retentionPolicy : String
deriving DecidableEq

/-- For people to read: two destinations may share a text. -/
def Destination.text (d : Destination) : String := s!"{d.database}/{d.retentionPolicy}"

structure Entry where
  point : Point
  destination : Destination
deriving DecidableEq

abbrev Parcel := Destination × List Point

/-- The parcels of some entries, and for each entry the number of its parcel. -/
def Entry.pack (entries : List Entry) : List Parcel × List Nat :=
  Groups.ofList (entries.map fun e => (e.destination, e.point))

def Parcel.unpack (parcels : List Parcel) (order : List Nat) : List Point :=
  Groups.merge (parcels.map (·.2)) order

end SeriesIngest
