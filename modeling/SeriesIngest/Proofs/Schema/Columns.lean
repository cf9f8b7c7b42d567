import SeriesIngest.Proofs.Column.Rows
import SeriesIngest.Proofs.Schema.Inference
import SeriesIngest.Record.Wire
import Mathlib.Data.List.Forall2

/-! Columns hold their samples cell by cell: what a column of some type gives back, row by
row, is what the samples have under the name of its entry. -/
namespace SeriesIngest

def Utf8.overlong : String := String.ofList (List.replicate (2 ^ 31) 'a')

theorem Utf8.length_encode_replicate (n : Nat) :
    (encode (String.ofList (List.replicate n 'a'))).length = n := by
  have hsize : (List.replicate n 'a').utf8Encode.size = n := by
    induction n with
    | zero => rfl
    | succ n ih =>
      rw [List.replicate_succ, List.utf8Encode_cons, ByteArray.size_append, ih]
      exact Nat.add_comm 1 n
  rw [encode, Array.length_toList]
  exact (congrArg ByteArray.size String.toByteArray_ofList).trans hsize

theorem Utf8.length_overlong : (encode overlong).length = 2 ^ 31 := length_encode_replicate _

def ColumnType.rows (type : ColumnType) (c : Column) : List (Option Value) :=
  match type with
  | .int64 => c.ints.map (·.map .int)
  | .float64 => c.floats.map (·.map .float)
  | .bool => c.bools.map (·.map .bool)
  | .text | .tag => c.texts.map (·.map .text)

def ColumnType.hasOffsets (type : ColumnType) : Bool := type = .text || type = .tag

theorem Record.columnBytes_of_long {c : Column} (h : 2 ^ 31 ≤ c.values.length) :
    columnBytes c = .error (.oversize c.values.length) := by
  have hlarge : ¬ c.values.length < 0x80000000 := Nat.not_lt.2 h
  rw [columnBytes, blockBytes, lengthBytes, if_neg hlarge]
  rfl

namespace SchemaEntry

/-- What a sample has in the column of an entry. -/
inductive Cell (p : Point) : SchemaEntry → Option Value → Prop
  | tag {name text : String} (h : p.tag? name = some text) :
    Cell p ⟨name, .tag⟩ (some (.text text))
  | noTag {name : String} (h : p.tag? name = none) : Cell p ⟨name, .tag⟩ none
  | field {name : String} {v : Value} (h : p.field? name = some v) :
    Cell p ⟨name, .ofValue v⟩ (some v)
  | widened {name : String} {v : Int64} (h : p.field? name = some (.int v)) :
    Cell p ⟨name, .float64⟩ (some (.float (.ofInt v.toInt)))
  | noField {name : String} {type : ColumnType} (htype : type ≠ .tag)
    (h : p.field? name = none) : Cell p ⟨name, type⟩ none
  | otherType {name : String} {type : ColumnType} {v : Value} (htype : type ≠ .tag)
    (h : p.field? name = some v) (hother : type ≠ .ofValue v)
    (hwide : ¬ (type = .float64 ∧ ColumnType.ofValue v = .int64)) : Cell p ⟨name, type⟩ none

theorem cell_cell? (e : SchemaEntry) (p : Point) : Cell p e (e.cell? p) := by
  obtain ⟨name, type⟩ := e
  cases htag : decide (type = .tag) with
  | true =>
    obtain rfl := of_decide_eq_true htag
    cases h : p.tag? name with
    | none => simpa [cell?, h] using Cell.noTag h
    | some text => simpa [cell?, h] using Cell.tag h
  | false =>
    have hne := of_decide_eq_false htag
    cases h : p.field? name with
    | none =>
      have hcell : cell? ⟨name, type⟩ p = none := by cases type <;> simp_all [cell?]
      rw [hcell]
      exact .noField hne h
    | some v =>
      by_cases hsame : type = .ofValue v
      · subst hsame
        have hcell : cell? ⟨name, .ofValue v⟩ p = some v := by
          cases v <;> simp [cell?, h, ColumnType.ofValue]
        rw [hcell]
        exact .field h
      · by_cases hwide : type = .float64 ∧ ColumnType.ofValue v = .int64
        · obtain ⟨rfl, hint⟩ := hwide
          cases v with
          | int i => simpa [cell?, h] using Cell.widened h
          | float f => cases hint
          | bool b => cases hint
          | text t => cases hint
        · have hcell : cell? ⟨name, type⟩ p = none := by
            cases type <;> cases v <;> simp_all [cell?, ColumnType.ofValue]
          rw [hcell]
          exact .otherType hne h hsame hwide

theorem cell_iff {e : SchemaEntry} {p : Point} {cell : Option Value} :
    Cell p e cell ↔ e.cell? p = cell := by
  constructor
  · intro h
    cases h with
    | tag h | noTag h | widened h => simp [cell?, h]
    | @field name v h => cases v <;> simp [cell?, h, ColumnType.ofValue]
    | @noField name type htype h => cases type <;> simp_all [cell?]
    | @otherType name type v htype h hother hwide =>
      cases type <;> cases v <;> simp_all [cell?, ColumnType.ofValue]
  · rintro rfl
    exact e.cell_cell? p

def toPush (e : SchemaEntry) : Option Value → Column.Push
  | some (.int v) => .int v
  | some (.float v) => .float v
  | some (.bool v) => .bool v
  | some (.text v) => .text v
  | none => if e.type = .text ∨ e.type = .tag then .textNull else .null

theorem push_eq_apply (e : SchemaEntry) (c : Column) (cell : Option Value) :
    e.push c cell = (e.toPush cell).apply c := by
  cases cell with
  | none =>
    simp only [push, toPush]
    split_ifs <;> rfl
  | some v => cases v <;> rfl

theorem isPresent_toPush (e : SchemaEntry) (cell : Option Value) :
    (e.toPush cell).isPresent = cell.isSome := by
  cases cell with
  | none =>
    simp only [toPush]
    split_ifs <;> rfl
  | some v => cases v <;> rfl

theorem column_eq_ofPushes (e : SchemaEntry) (points : List Point) :
    e.column points = Column.ofPushes ((points.map e.cell?).map e.toPush) := by
  unfold column Column.ofPushes
  rw [List.map_map, List.foldl_map]
  simp only [push_eq_apply, Function.comp_apply]

theorem rows_column (e : SchemaEntry) (points : List Point) :
    (e.column points).rows = points.length := by
  rw [column_eq_ofPushes, (Column.represents_ofPushes _).rows]
  simp

theorem nulls_column (e : SchemaEntry) (points : List Point) :
    (e.column points).nulls = (points.map e.cell?).count none := by
  rw [column_eq_ofPushes, (Column.represents_ofPushes _).nulls, List.map_map, List.map_map,
    List.count_eq_countP, List.count_eq_countP, List.countP_map, List.countP_map]
  congr 1
  funext p
  cases h : e.cell? p <;> simp [isPresent_toPush, h]

def valueType (e : SchemaEntry) : ColumnType := if e.type = .tag then .text else e.type

theorem ofValue_cell? {e : SchemaEntry} {p : Point} {v : Value} (h : e.cell? p = some v) :
    ColumnType.ofValue v = e.valueType := by
  have hcell := e.cell_cell? p
  rw [h] at hcell
  cases hcell with
  | tag => rfl
  | field => simp [valueType, Schema.ofValue_ne_tag]
  | widened => rfl

theorem map_read_column {α : Type} {e : SchemaEntry} {points : List Point} {wrap : α → Value}
    (push : Option α → Column.Push) {read : Column → List (Option α)}
    (hwrap : ∀ v, ColumnType.ofValue v = e.valueType → ∃ x, v = wrap x)
    (hpush : ∀ cell : Option α, e.toPush (cell.map wrap) = push cell)
    (hread : ∀ cells, e.column points = Column.ofPushes (cells.map push) →
      read (Column.ofPushes (cells.map push)) = cells) :
    (read (e.column points)).map (·.map wrap) = points.map e.cell? := by
  have htyped (p : Point) : ∃ cell : Option α, e.cell? p = cell.map wrap := by
    cases hcell : e.cell? p with
    | none => exact ⟨none, rfl⟩
    | some v =>
      obtain ⟨x, rfl⟩ := hwrap v (ofValue_cell? hcell)
      exact ⟨some x, rfl⟩
  choose cell hcell using htyped
  have hcolumn : e.column points = Column.ofPushes ((points.map cell).map push) := by
    rw [column_eq_ofPushes, List.map_map, List.map_map]
    congr 2
    funext p
    simp [hcell, hpush]
  rw [hcolumn, hread _ hcolumn, List.map_map]
  congr 1
  funext p
  exact (hcell p).symm

theorem rows_column_eq (e : SchemaEntry) (points : List Point) (h : e.type.hasOffsets = false) :
    e.type.rows (e.column points) = points.map e.cell? := by
  obtain ⟨name, type⟩ := e
  cases type with
  | int64 =>
    apply map_read_column Column.intPush
    · intro v hv
      cases v <;> first | exact ⟨_, rfl⟩ | cases hv
    · intro cell
      cases cell <;> rfl
    · exact fun cells _ => Column.ints_ofPushes cells
  | float64 =>
    apply map_read_column Column.floatPush
    · intro v hv
      cases v <;> first | exact ⟨_, rfl⟩ | cases hv
    · intro cell
      cases cell <;> rfl
    · exact fun cells _ => Column.floats_ofPushes cells
  | bool =>
    apply map_read_column Column.boolPush
    · intro v hv
      cases v <;> first | exact ⟨_, rfl⟩ | cases hv
    · intro cell
      cases cell <;> rfl
    · exact fun cells _ => Column.bools_ofPushes cells
  | text => cases h
  | tag => cases h

/-! Columns of text. Their offsets are words, so where a row starts decides whether it is read. -/

def textLength : Option Value → Nat
  | some (.text v) => (Utf8.encode v).length
  | _ => 0

def startAt (cells : List (Option Value)) (row : Nat) : Nat :=
  ((cells.take row).map textLength).sum

/-- The word of an offset can hold where the row starts, and where the next one does. -/
def Reached (cells : List (Option Value)) (row : Nat) : Prop :=
  startAt cells row < 2 ^ 31 ∧ (row + 1 < cells.length → startAt cells (row + 1) < 2 ^ 31)

def Lost (cells : List (Option Value)) (row : Nat) : Prop :=
  ∃ next, (next = row ∨ next = row + 1) ∧ next < cells.length ∧
    2 ^ 31 ≤ startAt cells next ∧ startAt cells next < 2 ^ 32

section Text

variable {e : SchemaEntry} (htype : e.type.hasOffsets) (points : List Point)

include htype

theorem valueType_of_hasOffsets : e.valueType = .text := by
  unfold valueType
  cases h : e.type <;> simp_all [ColumnType.hasOffsets]

theorem cell?_of_hasOffsets (p : Point) :
    e.cell? p = none ∨ ∃ text, e.cell? p = some (.text text) := by
  cases hcell : e.cell? p with
  | none => exact .inl rfl
  | some v =>
    have htext := (ofValue_cell? hcell).trans (valueType_of_hasOffsets htype)
    cases v with
    | text text => exact .inr ⟨text, rfl⟩
    | int v => cases htext
    | float v => cases htext
    | bool v => cases htext

theorem toPush_of_hasOffsets (p : Point) :
    (e.toPush (e.cell? p)).isText ∧ (e.toPush (e.cell? p)).text?.map .text = e.cell? p ∧
      (e.toPush (e.cell? p)).bytes.length = textLength (e.cell? p) := by
  rcases cell?_of_hasOffsets htype p with hcell | ⟨text, hcell⟩
  · have hnull : e.toPush none = .textNull := by
      have hor : e.type = .text ∨ e.type = .tag := by simpa [ColumnType.hasOffsets] using htype
      simp only [toPush, if_pos hor]
    rw [hcell, hnull]
    exact ⟨rfl, rfl, rfl⟩
  · rw [hcell]
    exact ⟨rfl, rfl, rfl⟩

theorem isText_toPush : ∀ push ∈ (points.map e.cell?).map e.toPush, push.isText := by
  intro push hpush
  rw [List.map_map] at hpush
  obtain ⟨p, -, rfl⟩ := List.mem_map.1 hpush
  exact (toPush_of_hasOffsets htype p).1

theorem startOf_toPush (row : Nat) :
    Column.startOf ((points.map e.cell?).map e.toPush) row = startAt (points.map e.cell?) row := by
  unfold Column.startOf startAt
  rw [← List.map_take, ← List.map_take, List.length_flatMap, List.map_map, List.map_map,
    List.map_map]
  congr 1
  apply List.map_congr_left
  intro p _
  exact (toPush_of_hasOffsets htype p).2.2

theorem length_values_column :
    (e.column points).values.length = startAt (points.map e.cell?) points.length := by
  rw [← startOf_toPush htype points, column_eq_ofPushes, Column.values_ofPushes,
    ← Column.startOf_length, List.length_map, List.length_map]

theorem rows_of_hasOffsets (c : Column) : e.type.rows c = c.texts.map (·.map .text) := by
  cases h : e.type <;> simp_all [ColumnType.hasOffsets, ColumnType.rows]

theorem rows_column_getElem? {row : Nat} (hrow : row < points.length) :
    (e.type.rows (e.column points))[row]? = some (((e.column points).text? row).map .text) := by
  rw [rows_of_hasOffsets htype, List.getElem?_map, Column.texts, List.getElem?_map, rows_column,
    List.getElem?_range hrow]
  rfl

theorem text?_column {row : Nat} (hrow : row < points.length)
    (hreached : e.cell? points[row] ≠ none → Reached (points.map e.cell?) row) :
    ((e.column points).text? row).map .text = e.cell? points[row] := by
  have hpush : row < ((points.map e.cell?).map e.toPush).length := by simpa using hrow
  obtain ⟨htext, hback, -⟩ := toPush_of_hasOffsets htype points[row]
  rw [column_eq_ofPushes]
  by_cases hcell : e.cell? points[row] = none
  · have habsent : (Column.ofPushes ((points.map e.cell?).map e.toPush)).isNull row = true := by
      rw [Column.isNull_ofPushes, List.getElem?_eq_getElem hpush, Option.any_some]
      simp [isPresent_toPush, hcell]
    rw [hcell, Column.text?, habsent]
    rfl
  · obtain ⟨hstart, hnext⟩ := hreached hcell
    rw [← startOf_toPush htype] at hstart
    rw [← startOf_toPush htype, List.length_map] at hnext
    rw [Column.text?_ofPushes (isText_toPush htype points) hpush hstart (by simpa using hnext)]
    simpa using hback

theorem text?_column_lost {row : Nat} (hrow : row < points.length)
    (hlost : Lost (points.map e.cell?) row) : (e.column points).text? row = none := by
  have hpush : row < ((points.map e.cell?).map e.toPush).length := by simpa using hrow
  obtain ⟨next, hnext, hlength, hlow, hhigh⟩ := hlost
  rw [← startOf_toPush htype] at hlow hhigh
  rw [column_eq_ofPushes]
  apply Column.text?_lost (isText_toPush htype points) hpush
  rcases hnext with rfl | rfl
  · exact .inl (Column.position?_ofNat_of_le hlow hhigh)
  · exact .inr ⟨by simpa using hlength, Column.position?_ofNat_of_le hlow hhigh⟩

end Text

/-- What a column owes to its entry and to the samples behind it. A null is always read as such, and
so is every cell of a fixed width. A text is read where the words of the offsets reach, and lost
where the word of an offset at either end of it is negative. -/
structure Holds (e : SchemaEntry) (points : List Point) (c : Column)
    (cells : List (Option Value)) : Prop where
  each : List.Forall₂ (fun p cell => Cell p e cell) points cells
  rows : c.rows = points.length
  nulls : c.nulls = cells.count none
  length : (e.type.rows c).length = points.length
  read : ∀ row cell, cells[row]? = some cell →
    (e.type.hasOffsets → cell ≠ none → Reached cells row) → (e.type.rows c)[row]? = some cell
  lost : e.type.hasOffsets → ∀ row, Lost cells row → row < cells.length →
    (e.type.rows c)[row]? = some none
  size : e.type.hasOffsets → c.values.length = startAt cells cells.length
  unwritable : 2 ^ 31 ≤ c.values.length →
    Record.columnBytes c = .error (.oversize c.values.length)

theorem holds_column (e : SchemaEntry) (points : List Point) :
    e.Holds points (e.column points) (points.map e.cell?) where
  each := by
    rw [List.forall₂_map_right_iff]
    exact List.forall₂_same.2 fun p _ => e.cell_cell? p
  rows := e.rows_column points
  nulls := e.nulls_column points
  length := by
    cases htype : e.type.hasOffsets with
    | false => rw [e.rows_column_eq points htype, List.length_map]
    | true => rw [rows_of_hasOffsets htype, List.length_map, Column.texts, List.length_map,
        List.length_range, rows_column]
  read row cell hcell hreached := by
    obtain ⟨hrow, rfl⟩ := List.getElem?_eq_some_iff.1 hcell
    cases htype : e.type.hasOffsets with
    | false => rw [e.rows_column_eq points htype, hcell]
    | true =>
      have hlt : row < points.length := by simpa using hrow
      rw [List.getElem_map] at hreached ⊢
      rw [rows_column_getElem? htype points hlt, text?_column htype points hlt (hreached htype)]
  lost htype row hlost hrow := by
    have hlt : row < points.length := by simpa using hrow
    rw [rows_column_getElem? htype points hlt, text?_column_lost htype points hlt hlost]
    rfl
  size htype := by rw [length_values_column htype, List.length_map]
  unwritable := Record.columnBytes_of_long

theorem startAt_le (cells : List (Option Value)) (row : Nat) :
    startAt cells row ≤ startAt cells cells.length := by
  unfold startAt
  conv_rhs => rw [List.take_length, ← List.take_append_drop row cells, List.map_append,
    List.sum_append]
  exact Nat.le_add_right _ _

theorem Holds.read_all {e : SchemaEntry} {points : List Point} {c : Column}
    {cells : List (Option Value)} (h : e.Holds points c cells)
    (hshort : e.type.hasOffsets → c.values.length < 2 ^ 31) : e.type.rows c = cells := by
  have hlength := h.length.trans h.each.length_eq
  refine List.ext_getElem? fun row => ?_
  by_cases hrow : row < cells.length
  · have hcell := List.getElem?_eq_getElem hrow
    rw [hcell]
    refine h.read row _ hcell fun htype _ => ?_
    have hend (next : Nat) : startAt cells next < 2 ^ 31 :=
      (startAt_le cells next).trans_lt (h.size htype ▸ hshort htype)
    exact ⟨hend row, fun _ => hend (row + 1)⟩
  · rw [List.getElem?_eq_none (by omega), List.getElem?_eq_none (by omega)]

end SchemaEntry

namespace Schema

end Schema
end SeriesIngest
