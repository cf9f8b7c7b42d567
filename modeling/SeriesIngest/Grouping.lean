/-! Grouping by a key. Groups stand in the order in which their keys first came, and keep
the order of their items; the recorded order of group numbers undoes the grouping. -/
namespace SeriesIngest

abbrev Groups (κ α : Type) := List (κ × List α)

namespace Groups

def place [DecidableEq κ] (key : κ) (item : α) : Groups κ α → Groups κ α × Nat
  | [] => ([(key, [item])], 0)
  | (k, items) :: rest =>
    if k = key then ((k, items ++ [item]) :: rest, 0)
    else
      let (rest, i) := place key item rest
      ((k, items) :: rest, i + 1)

/-- The groups of a list of keyed items, and for each item the number of its group. -/
def ofList [DecidableEq κ] (entries : List (κ × α)) : Groups κ α × List Nat :=
  entries.foldl (fun (groups, order) (key, item) =>
    let (groups, i) := place key item groups
    (groups, order ++ [i])) ([], [])

def merge (groups : List (List α)) : List Nat → List α
  | [] => []
  | i :: order =>
    match groups[i]? with
    | some (item :: rest) => item :: merge (groups.set i rest) order
    | _ => merge groups order

end Groups
end SeriesIngest
