import SeriesIngest.Notice
import SeriesIngest.Record
/-! What encoding samples as records tells the log. -/
namespace SeriesIngest

def Schema.notices (schema : Schema) (points : List Point) : List Notice :=
  schema.filterMap fun e =>
    match points.countP e.mismatches with
    | 0 => none
    | count => some (.mismatchedCells e.name e.type.name count)

namespace Record

/-- The skipped rows come first; columns follow only when a row is left. -/
def notices (points : List Point) : List Notice :=
  match points with
  | [] => []
  | first :: _ =>
    if first.measurement = "" then [] else
      let skipped := points.filterMap fun p =>
        match p.nanos? with
        | .ok _ => none
        | .error fault => some (Notice.rowSkipped first.measurement fault)
      let kept := points.filter fun p => p.nanos?.isOk
      skipped ++ if kept.isEmpty then [] else (Schema.infer kept).notices kept

/-- A measurement without a record is reported after its rows. -/
def allNotices (now : Int64) (points : List Point) : List Notice :=
  (byMeasurement points).flatMap fun (measurement, group) =>
    notices group ++ match ofPoints now group with
      | .ok _ => []
      | .error fault => [.groupSkipped measurement group.length fault]

end Record
end SeriesIngest
