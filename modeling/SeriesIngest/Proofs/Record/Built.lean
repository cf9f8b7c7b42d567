import SeriesIngest.Proofs.Grouping
import SeriesIngest.Proofs.Schema.Columns

/-! Records built from samples: the rows are those samples whose time does not overflow, and
every column, the times last, is built row by row. -/
namespace SeriesIngest.Record

theorem ofPoints_ok {now : Int64} {points : List Point} {r : Record}
    (h : ofPoints now points = .ok r) :
    ∃ first rest, points = first :: rest ∧ first.measurement ≠ "" ∧ timed now points ≠ [] ∧
      r = ofRows first.measurement (timed now points) := by
  cases points with
  | nil => cases h
  | cons first rest =>
    rw [ofPoints] at h
    by_cases hname : first.measurement = ""
    · rw [if_pos hname] at h
      cases h
    · rw [if_neg hname] at h
      refine ⟨first, rest, rfl, hname, ?_⟩
      cases htimed : timed now (first :: rest) with
      | nil =>
        -- the first sample has no row either, so its fault is the answer
        cases htime : timeOf now first with
        | error fault => simp [htimed, htime] at h
        | ok time => simp [timed, htime, Except.toOption] at htimed
      | cons row rows =>
        rw [htimed] at h
        exact ⟨List.cons_ne_nil _ _, (Except.ok.inj h).symm⟩

theorem columns_ofRows (measurement : String) (rows : List (Point × Int64)) :
    (ofRows measurement rows).columns =
      (Schema.infer (rows.map (·.1))).columns (rows.map (·.1)) ++
        [Column.ofPushes (rows.map fun row => .int row.2)] := by
  have htimes : (rows.map (·.2)).foldl Column.pushInt {} =
      Column.ofPushes (rows.map fun row => .int row.2) := by
    unfold Column.ofPushes
    rw [List.foldl_map, List.foldl_map]
    rfl
  rw [← htimes]
  rfl

theorem length_columns_ofRows (measurement : String) (rows : List (Point × Int64)) :
    (ofRows measurement rows).columns.length = (ofRows measurement rows).schema.length := by
  simp [ofRows, Schema.columns]

theorem exists_ofPushes {measurement : String} {rows : List (Point × Int64)} {c : Column}
    (h : c ∈ (ofRows measurement rows).columns) : ∃ pushes, c = Column.ofPushes pushes := by
  rw [columns_ofRows, List.mem_append, List.mem_singleton] at h
  rcases h with h | rfl
  · obtain ⟨e, -, rfl⟩ := List.mem_map.1 h
    exact ⟨_, e.column_eq_ofPushes _⟩
  · exact ⟨_, rfl⟩

/-- A record as the rows of some samples: the cells of each column, and the times. -/
structure HasRows (r : Record) (rows : List (Point × Int64)) : Prop where
  schema : r.schema = Schema.infer (rows.map (·.1)) ++ [timeEntry]
  cells : List.Forall₂ (fun e c => ∃ cells, SchemaEntry.Holds e (rows.map (·.1)) c cells)
    (Schema.infer (rows.map (·.1))) r.columns.dropLast
  times : r.columns.getLast?.map Column.ints = some (rows.map fun row => some row.2)

theorem hasRows_ofRows (measurement : String) (rows : List (Point × Int64)) :
    (ofRows measurement rows).HasRows rows where
  schema := rfl
  cells := by
    rw [columns_ofRows, List.dropLast_concat, Schema.columns, List.forall₂_map_right_iff]
    exact List.forall₂_same.2 fun e _ => ⟨_, e.holds_column _⟩
  times := by
    have htimes : (rows.map fun row => Column.Push.int row.2) =
        (rows.map fun row => some row.2).map Column.intPush := by
      rw [List.map_map]
      rfl
    rw [columns_ofRows, List.getLast?_concat, Option.map_some, htimes, Column.ints_ofPushes]

def timeAt (now : Int64) (p : Point) : Int64 :=
  match p.nanos? with
  | .ok (some time) => time
  | _ => now

def rowsOf (now : Int64) (points : List Point) (measurement : String) : List (Point × Int64) :=
  (points.filter (·.measurement = measurement)).map fun p => (p, timeAt now p)

theorem of_checked {protocol : Protocol} {p : Point} (h : protocol.fault? p = none) :
    p.measurement ≠ "" ∧ ∃ time, p.nanos? = .ok time := by
  unfold Protocol.fault? at h
  by_cases hname : p.measurement = ""
  · simp [hname] at h
  · rw [if_neg hname] at h
    cases htime : p.nanos? with
    | error fault => simp [htime] at h
    | ok time => exact ⟨hname, time, rfl⟩

theorem timed_of_checked {protocol : Protocol} {points : List Point}
    (h : ∀ p ∈ points, protocol.fault? p = none) (now : Int64) :
    timed now points = points.map fun p => (p, timeAt now p) := by
  rw [← List.filterMap_eq_map]
  unfold timed
  apply List.filterMap_congr
  intro p hp
  obtain ⟨-, time, htime⟩ := of_checked (h p hp)
  cases time <;> simp [timeOf, timeAt, htime, Except.map, Except.toOption]

theorem byMeasurement_eq (points : List Point) :
    byMeasurement points = (points.map (·.measurement)).eraseDups.map fun m =>
      (m, points.filter (·.measurement = m)) := by
  unfold byMeasurement
  rw [Groups.ofList_groups, List.map_map]
  apply List.map_congr_left
  intro m _
  simp [Groups.itemsOf, List.filter_map, Function.comp_def]

end SeriesIngest.Record
