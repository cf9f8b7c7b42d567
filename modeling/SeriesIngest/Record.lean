import SeriesIngest.Grouping
import SeriesIngest.Schema
/-! A batch of samples of one measurement in columns, the last of which holds the times.
A sample whose time overflows leaves no trace in the record. -/
namespace SeriesIngest

structure Record where
  measurement : String
  schema : Schema
  columns : List Column
  minTime : Int64
  maxTime : Int64
deriving DecidableEq

namespace Record

def timeEntry : SchemaEntry := ⟨"time", .int64⟩

def timeOf (now : Int64) (p : Point) : Except EncodingFault Int64 := p.nanos?.map (·.getD now)

def timed (now : Int64) (points : List Point) : List (Point × Int64) :=
  points.filterMap fun p => ((timeOf now p).toOption).map (p, ·)

def ofRows (measurement : String) (rows : List (Point × Int64)) : Record :=
  let points := rows.map (·.1)
  let times := rows.map (·.2)
  let schema := Schema.infer points
  { measurement
    schema := schema ++ [timeEntry]
    columns := schema.columns points ++ [times.foldl Column.pushInt {}]
    minTime := times.foldl (fun a t => if t < a then t else a) Int64.maxValue
    maxTime := times.foldl (fun a t => if a < t then t else a) Int64.minValue }

/-- The first sample names the record. The record is refused when that name is empty, or
when every time overflows: then the first overflow is the fault. -/
def ofPoints (now : Int64) : List Point → Except EncodingFault Record
  | [] => .error .emptyMeasurement
  | first :: rest =>
    if first.measurement = "" then .error .emptyMeasurement
    else match timed now (first :: rest), timeOf now first with
      | [], .error fault => .error fault
      | rows, _ => .ok (ofRows first.measurement rows)

def byMeasurement (points : List Point) : Groups String Point :=
  (Groups.ofList (points.map fun p => (p.measurement, p))).1

def all (now : Int64) (points : List Point) : List Record :=
  (byMeasurement points).filterMap fun (_, group) => (ofPoints now group).toOption

def index? (r : Record) (name : String) : Option Nat := r.schema.findIdx? (·.name = name)

def indexOf? (r : Record) (name : String) (type : ColumnType) : Option Nat :=
  r.schema.findIdx? (· = ⟨name, type⟩)

def column? (r : Record) (name : String) : Option Column :=
  (r.index? name).bind (r.columns[·]?)

def columnOf? (r : Record) (name : String) (type : ColumnType) : Option Column :=
  (r.indexOf? name type).bind (r.columns[·]?)

def rowCount (r : Record) : Nat := (r.columns.getLast?.map (·.rows)).getD 0

end Record
end SeriesIngest
