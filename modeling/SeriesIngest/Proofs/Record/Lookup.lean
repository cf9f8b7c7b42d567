import SeriesIngest.Proofs.Record.Partition

/-! Columns looked up by name. With the type of the entry, every column is found but for the times,
which a field of integers of the same name stands before. Without it, the column found is that of the
first use of the name, so a tag shadows a field only where it comes first. -/
namespace SeriesIngest

theorem SchemaEntry.isNull_column (e : SchemaEntry) (points : List Point) (row : Nat) :
    (e.column points).isNull row = (points[row]?.bind e.cell?).isNone := by
  rw [column_eq_ofPushes, (Column.represents_ofPushes _).isNull, List.getElem?_map,
    List.getElem?_map, List.getElem?_map]
  cases points[row]? with
  | none => rfl
  | some p => simp [isPresent_toPush]

namespace Record

variable {now : Int64} {points : List Point} {r : Record} {name : String}

def encoded (points : List Point) : List Point := points.filter (·.nanos?.isOk)

theorem map_timed (now : Int64) (points : List Point) :
    (timed now points).map (·.1) = encoded points := by
  rw [← timed_filter_isOk]
  exact (timed_of_isOk (fun p hp => (List.mem_filter.1 hp).2) now).1

/-- Two columns are told apart by a sample that has a cell in one of them only. -/
theorem column_ne {e f : SchemaEntry} {p : Point} (hp : p ∈ points) (he : e.cell? p ≠ none)
    (hf : f.cell? p = none) : e.column points ≠ f.column points := by
  obtain ⟨row, hrow⟩ := List.mem_iff_getElem?.1 hp
  intro hsame
  have hnull := congrArg (Column.isNull · row) hsame
  simp only [SchemaEntry.isNull_column, hrow, Option.bind_some, hf, Option.isNone_none,
    Option.isNone_iff_eq_none] at hnull
  exact he hnull

theorem column_ne_tag {e : SchemaEntry} (h : Schema.firstUse? points name = some e)
    (htype : e.type ≠ .tag) : e.column points ≠ SchemaEntry.column ⟨name, .tag⟩ points := by
  obtain ⟨p, hp, huse⟩ := List.exists_of_findSome?_eq_some h
  obtain ⟨htag, v, hfield, rfl⟩ := Point.use?_field huse htype
  have hcell : SchemaEntry.cell? ⟨name, .ofValue v⟩ p = some v :=
    SchemaEntry.cell_iff.1 (.field hfield)
  exact column_ne hp (by simp [hcell]) (SchemaEntry.cell_iff.1 (.noTag htag))

section Rows

variable {m : String} {rows : List (Point × Int64)} {e : SchemaEntry}

theorem indexOf?_ofRows {i : Nat} (h : (Schema.infer (rows.map (·.1)))[i]? = some e) :
    (ofRows m rows).indexOf? e.name e.type = some i := by
  obtain ⟨hlt, he⟩ := List.getElem?_eq_some_iff.1 h
  have hnodup := Schema.nodup_infer (rows.map (·.1))
  have hfound : (Schema.infer (rows.map (·.1))).findIdx? (· = e) = some i := by
    rw [List.findIdx?_eq_some_iff_getElem]
    refine ⟨hlt, by simpa using he, fun j hj hsame => ?_⟩
    have heq := he.trans (of_decide_eq_true hsame).symm
    exact absurd (hnodup.getElem_inj_iff.1 heq) (by omega)
  rw [indexOf?, ofRows, List.findIdx?_append, hfound]
  rfl

theorem columnOf?_ofRows (h : e ∈ Schema.infer (rows.map (·.1))) :
    (ofRows m rows).columnOf? e.name e.type = some (e.column (rows.map (·.1))) := by
  obtain ⟨i, hi⟩ := List.mem_iff_getElem?.1 h
  have hlt : i < (Schema.infer (rows.map (·.1))).length := (List.getElem?_eq_some_iff.1 hi).1
  rw [columnOf?, indexOf?_ofRows hi, Option.bind_some, columns_ofRows, Schema.columns,
    List.getElem?_append_left (by rwa [List.length_map]), List.getElem?_map, hi]
  rfl

theorem index?_ofRows (h : Schema.firstUse? (rows.map (·.1)) name = some e) :
    (ofRows m rows).index? name = (ofRows m rows).indexOf? e.name e.type := by
  have hfind : (ofRows m rows).schema.find? (·.name = name) = some e := by
    rw [ofRows, List.find?_append, Schema.find?_name_infer, h, Option.some_or]
  rw [index?, List.findIdx?_eq_bind_find?_idxOf?, hfind]
  rfl

theorem column?_ofRows (h : Schema.firstUse? (rows.map (·.1)) name = some e) :
    (ofRows m rows).column? name = (ofRows m rows).columnOf? e.name e.type := by
  rw [column?, index?_ofRows h, columnOf?]

theorem column?_eq_tag_iff {type : ColumnType}
    (htag : ⟨name, .tag⟩ ∈ Schema.infer (rows.map (·.1)))
    (h : Schema.firstUse? (rows.map (·.1)) name = some ⟨name, type⟩) :
    (ofRows m rows).column? name = (ofRows m rows).columnOf? name .tag ↔ type = .tag := by
  have hfound := column?_ofRows (m := m) h
  constructor
  · intro hsame
    by_contra hne
    rw [hfound, columnOf?_ofRows (Schema.mem_infer_of_firstUse? h), columnOf?_ofRows htag] at hsame
    exact column_ne_tag h hne (Option.some.inj hsame)
  · rintro rfl
    exact hfound

theorem index?_eq_tag_iff {type : ColumnType}
    (htag : ⟨name, .tag⟩ ∈ Schema.infer (rows.map (·.1)))
    (h : Schema.firstUse? (rows.map (·.1)) name = some ⟨name, type⟩) :
    (ofRows m rows).index? name = (ofRows m rows).indexOf? name .tag ↔ type = .tag := by
  constructor
  · intro hsame
    rw [← column?_eq_tag_iff (m := m) htag h, column?, hsame, columnOf?]
  · rintro rfl
    exact index?_ofRows h

end Rows

/-- The column found by a name that rows carry as a tag is that of the first use of the name. It is
the column of the tag exactly when this use is a tag: a field of that name in an earlier row than any
with the tag is found instead. -/
theorem tag_shadows_iff (h : ofPoints now points = .ok r) {p : Point} (hp : p ∈ encoded points)
    {text : String} (htag : p.tag? name = some text) :
    (∃ c cells, r.columnOf? name .tag = some c ∧
      SchemaEntry.Holds ⟨name, .tag⟩ (encoded points) c cells) ∧
    ∃ type, Schema.firstUse? (encoded points) name = some ⟨name, type⟩ ∧
      r.column? name = r.columnOf? name type ∧
      (r.column? name = r.columnOf? name .tag ↔ type = .tag) ∧
      (r.index? name = r.indexOf? name .tag ↔ type = .tag) := by
  obtain ⟨first, -, -, -, -, rfl⟩ := ofPoints_ok h
  obtain ⟨type, hfirst⟩ := Schema.exists_firstUse? hp htag
  have hmem := Schema.mem_infer_of_tag hp htag
  have hrow := hfirst
  rw [← map_timed now] at hmem hrow
  have hcolumn := columnOf?_ofRows (m := first.measurement) hmem
  rw [map_timed] at hcolumn
  exact ⟨⟨_, _, hcolumn, SchemaEntry.holds_column _ _⟩, type, hfirst, column?_ofRows hrow,
    column?_eq_tag_iff hmem hrow, index?_eq_tag_iff hmem hrow⟩

def fieldFirst : List Point := [
  { measurement := "m", fields := [("k", .int 1)], time := 1 },
  { measurement := "m", tags := [("k", "t")], time := 2 }]

/-- The field is found, though a row carries the tag. -/
theorem field_found_first :
    ∃ r p, ofPoints 0 fieldFirst = .ok r ∧ p ∈ encoded fieldFirst ∧ p.tag? "k" = some "t" ∧
      r.index? "k" = some 0 ∧ r.indexOf? "k" .tag = some 1 ∧
      r.column? "k" ≠ r.columnOf? "k" .tag := by
  refine ⟨ofRows "m" (timed 0 fieldFirst), fieldFirst[1], ?_⟩
  decide +kernel

/-- A field in a row that is skipped, then a tag and a field in one row. -/
def tagFirst : List Point := [
  { measurement := "m", fields := [("k", .int 1)], time := Int64.maxValue, precision := .second },
  { measurement := "m", tags := [("k", "t")], fields := [("k", .int 42)], time := 1 }]

theorem tag_shadows_iff_skipped_field :
    ∃ r p, ofPoints 0 tagFirst = .ok r ∧ p ∈ encoded tagFirst ∧ p.tag? "k" = some "t" ∧
      r.column? "k" = r.columnOf? "k" .tag ∧ r.column? "k" ≠ r.columnOf? "k" .int64 := by
  have hr : ofPoints 0 tagFirst = .ok (ofRows "m" (timed 0 tagFirst)) := by decide +kernel
  have hp : tagFirst[1] ∈ encoded tagFirst := by decide +kernel
  have htag : tagFirst[1].tag? "k" = some "t" := by decide +kernel
  have huse : Schema.firstUse? (encoded tagFirst) "k" = some ⟨"k", .tag⟩ := by decide +kernel
  obtain ⟨-, type, hfirst, -, hiff, -⟩ := tag_shadows_iff hr hp htag
  rw [huse] at hfirst
  cases hfirst
  exact ⟨_, _, hr, hp, htag, hiff.2 rfl, by decide +kernel⟩

/-- By its name and type every entry is found where it stands. -/
def Addressable (r : Record) : Prop :=
  ∀ i e, r.schema[i]? = some e → r.indexOf? e.name e.type = some i

section Rows

variable {m : String} {rows : List (Point × Int64)}

theorem nodup_schema_iff :
    (ofRows m rows).schema.Nodup ↔ timeEntry ∉ Schema.infer (rows.map (·.1)) := by
  have hnodup := Schema.nodup_infer (rows.map (·.1))
  rw [ofRows, List.nodup_append]
  simp [hnodup, List.forall_mem_ne']

theorem indexOf?_time (h : timeEntry ∉ Schema.infer (rows.map (·.1))) :
    (ofRows m rows).indexOf? timeEntry.name timeEntry.type =
      some (Schema.infer (rows.map (·.1))).length := by
  have hnone : (Schema.infer (rows.map (·.1))).findIdx? (· = timeEntry) = none := by
    rw [List.findIdx?_eq_none_iff]
    intro e he
    simpa using fun hsame : e = timeEntry => h (hsame ▸ he)
  rw [indexOf?, ofRows, List.findIdx?_append, hnone, Option.none_or]
  simp

theorem schema_getElem? {i : Nat} {e : SchemaEntry} (h : (ofRows m rows).schema[i]? = some e) :
    (Schema.infer (rows.map (·.1)))[i]? = some e ∨
      i = (Schema.infer (rows.map (·.1))).length ∧ e = timeEntry := by
  rw [ofRows, List.getElem?_append] at h
  split at h
  next => exact .inl h
  next hlast =>
    rw [List.getElem?_singleton, Option.ite_none_right_eq_some] at h
    exact .inr ⟨by omega, (Option.some.inj h.2).symm⟩

theorem addressable_ofRows :
    (ofRows m rows).Addressable ↔ timeEntry ∉ Schema.infer (rows.map (·.1)) := by
  constructor
  · intro h hmem
    -- the entry of the times is found where the field of that name is
    obtain ⟨i, hi⟩ := List.mem_iff_getElem?.1 hmem
    have hlt := (List.getElem?_eq_some_iff.1 hi).1
    have hfound := indexOf?_ofRows (m := m) hi
    have hlast := h (Schema.infer (rows.map (·.1))).length timeEntry (by simp [ofRows])
    rw [hfound] at hlast
    exact absurd (Option.some.inj hlast) (by omega)
  · intro h i e he
    rcases schema_getElem? he with hi | ⟨rfl, rfl⟩
    · exact indexOf?_ofRows hi
    · exact indexOf?_time h

theorem columnOf?_time (h : timeEntry ∉ Schema.infer (rows.map (·.1))) :
    (ofRows m rows).columnOf? timeEntry.name timeEntry.type = (ofRows m rows).columns.getLast? := by
  rw [columnOf?, indexOf?_time h, Option.bind_some, columns_ofRows, List.getLast?_concat,
    List.getElem?_append_right (by simp [Schema.columns])]
  simp [Schema.columns]

end Rows

/-- All columns but that of the times are found by the name and the type of their entry, and the last
one holds the times. It is found, and the entries are all different, exactly when no field named like
it has integers in its column: such a field is found in its place. -/
theorem addressable_iff (h : ofPoints now points = .ok r) :
    let taken := Schema.firstType? (encoded points) timeEntry.name = some timeEntry.type
    r.HasRows (timed now points) ∧ r.columns.length = r.schema.length ∧
      (∀ i e, r.schema[i]? = some e → i + 1 < r.schema.length →
        r.indexOf? e.name e.type = some i) ∧
      (r.Addressable ↔ ¬ taken) ∧ (r.schema.Nodup ↔ ¬ taken) ∧
      r.columnOf? timeEntry.name timeEntry.type =
        if taken then some (timeEntry.column (encoded points)) else r.columns.getLast? := by
  intro taken
  obtain ⟨first, -, -, -, -, rfl⟩ := ofPoints_ok h
  have htaken : timeEntry ∈ Schema.infer ((timed now points).map (·.1)) ↔ taken := by
    rw [map_timed]
    exact Schema.mem_infer_iff (by decide)
  refine ⟨hasRows_ofRows _ _, length_columns_ofRows _ _, ?_, addressable_ofRows.trans htaken.not,
    nodup_schema_iff.trans htaken.not, ?_⟩
  · intro i e he hi
    rcases schema_getElem? he with hinner | ⟨rfl, -⟩
    · exact indexOf?_ofRows hinner
    · simp [ofRows] at hi
  · split
    next hyes => rw [columnOf?_ofRows (htaken.2 hyes), map_timed]
    next hno => exact columnOf?_time (htaken.not.2 hno)

def timeField : List Point := [{ measurement := "m", fields := [("time", .int 7)], time := 1 }]

/-- The values of the field are taken for the times. -/
theorem time_field_found :
    ∃ r, ofPoints 0 timeField = .ok r ∧ ¬ r.schema.Nodup ∧
      r.indexOf? "time" .int64 = some 0 ∧ r.schema.length = 2 ∧
      (r.columnOf? "time" .int64).map Column.ints = some [some 7] ∧
      r.columns.getLast?.map Column.ints = some [some 1] := by
  refine ⟨ofRows "m" (timed 0 timeField), ?_⟩
  decide +kernel

def timeNames : List Point := [
  { measurement := "m", tags := [("time", "t")], fields := [("time", .float .one)], time := 1 },
  { measurement := "m", fields := [("time", .int 7)], time := 2 }]

theorem addressable_iff_float_time :
    ∃ r, ofPoints 0 timeNames = .ok r ∧ r.schema.length = 3 ∧ r.Addressable ∧ r.schema.Nodup ∧
      r.columnOf? "time" .int64 = r.columns.getLast? ∧
      r.columns.getLast?.map Column.ints = some [some 1, some 2] := by
  have hr : ofPoints 0 timeNames = .ok (ofRows "m" (timed 0 timeNames)) := by decide +kernel
  have hfree : Schema.firstType? (encoded timeNames) timeEntry.name ≠ some timeEntry.type := by
    decide +kernel
  obtain ⟨-, -, -, haddressable, hnodup, hcolumn⟩ := addressable_iff hr
  rw [if_neg hfree] at hcolumn
  exact ⟨_, hr, by decide +kernel, haddressable.2 hfree, hnodup.2 hfree, hcolumn, by decide +kernel⟩

end Record
end SeriesIngest
