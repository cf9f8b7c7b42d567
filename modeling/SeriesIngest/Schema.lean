import SeriesIngest.Column
/-! Schemas inferred from samples, and the columns of samples under a schema. The first use
of a name fixes its type, tags and fields being separate name spaces. A sample whose field has
another type has no cell there, but an integer under a float column becomes the nearest float. -/
namespace SeriesIngest

inductive ColumnType where
  | int64 | float64 | bool | text | tag
deriving DecidableEq

namespace ColumnType

def name : ColumnType → String
  | int64 => "Int64"
  | float64 => "Float64"
  | bool => "Bool"
  | text => "String"
  | tag => "Tag"

def id : ColumnType → Int64
  | int64 => 1
  | float64 => 3
  | text => 4
  | bool => 5
  | tag => 6

def ofId? (id : Int64) : Option ColumnType :=
  [int64, float64, text, bool, tag].find? (·.id = id)

def ofValue : Value → ColumnType
  | .int _ => int64
  | .float _ => float64
  | .bool _ => bool
  | .text _ => text

end ColumnType

structure SchemaEntry where
  name : String
  type : ColumnType
deriving DecidableEq

namespace SchemaEntry

/-- Whether both name the same tag, or both the same field. -/
def sameName (e f : SchemaEntry) : Bool :=
  e.name == f.name && (e.type == .tag) == (f.type == .tag)

def cell? (e : SchemaEntry) (p : Point) : Option Value :=
  match e.type with
  | .tag => (p.tag? e.name).map .text
  | .float64 =>
    match p.field? e.name with
    | some (.int v) => some (.float (.ofInt v.toInt))
    | some (.float v) => some (.float v)
    | _ => none
  | type => (p.field? e.name).filter (ColumnType.ofValue · = type)

def mismatches (e : SchemaEntry) (p : Point) : Bool :=
  e.type != .tag && (p.field? e.name).isSome && (e.cell? p).isNone

def push (e : SchemaEntry) (c : Column) : Option Value → Column
  | some (.int v) => c.pushInt v
  | some (.float v) => c.pushFloat v
  | some (.bool v) => c.pushBool v
  | some (.text v) => c.pushText v
  | none => if e.type = .text ∨ e.type = .tag then c.pushTextNull else c.pushNull

def column (e : SchemaEntry) (points : List Point) : Column :=
  points.foldl (fun c p => e.push c (e.cell? p)) {}

end SchemaEntry

abbrev Schema := List SchemaEntry

namespace Schema

def entriesOf (p : Point) : List SchemaEntry :=
  p.tags.map (fun t => ⟨t.1, .tag⟩) ++ p.fields.map (fun f => ⟨f.1, .ofValue f.2⟩)

/-- Drops every entry whose name came before, in `seen` or in the list itself. -/
def firstOfEach (seen : Schema) : List SchemaEntry → Schema
  | [] => []
  | e :: rest =>
    if seen.any (·.sameName e) then firstOfEach seen rest
    else e :: firstOfEach (e :: seen) rest

def infer (points : List Point) : Schema := firstOfEach [] (points.flatMap entriesOf)

def columns (schema : Schema) (points : List Point) : List Column :=
  schema.map (·.column points)

end Schema
end SeriesIngest
