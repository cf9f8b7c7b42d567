import SeriesIngest.Proofs.Binary64.Whole
import SeriesIngest.Proofs.Schema.Columns

/-! Integers in float columns. -/
namespace SeriesIngest

open Binary64 (roundedInt lastPlace Fits)

namespace SchemaEntry

theorem slots_column (name : String) (points : List Point) :
    (column ⟨name, .float64⟩ points).slots 8 = points.map fun p =>
      (cell? ⟨name, .float64⟩ p).map fun v => (toPush ⟨name, .float64⟩ (some v)).bytes := by
  have hwidth : ∀ push ∈ (points.map (cell? ⟨name, .float64⟩)).map (toPush ⟨name, .float64⟩),
      push.isPresent → push.bytes.length = 8 := by
    intro push hpush hpresent
    simp only [List.map_map, List.mem_map, Function.comp_apply] at hpush
    obtain ⟨p, -, rfl⟩ := hpush
    rw [isPresent_toPush] at hpresent
    obtain ⟨v, hv⟩ := Option.isSome_iff_exists.1 hpresent
    have htype := ofValue_cell? hv
    rw [hv]
    cases v with
    | float x => exact Column.length_floatBytes x
    | int | bool | text => cases htype
  rw [column_eq_ofPushes, Column.slots_ofPushes hwidth, List.map_map, List.map_map]
  apply List.map_congr_left
  intro p _
  rw [Function.comp_apply, Function.comp_apply, isPresent_toPush]
  cases cell? ⟨name, .float64⟩ p <;> rfl

theorem slot_of_int {name : String} {points : List Point} {row : Nat} {p : Point} {v : Int64}
    (hp : points[row]? = some p) (hv : p.field? name = some (.int v)) :
    ((column ⟨name, .float64⟩ points).slots 8)[row]? =
      some (some (Column.floatBytes (.ofInt v.toInt))) := by
  have hcell : cell? ⟨name, .float64⟩ p = some (.float (.ofInt v.toInt)) :=
    cell_iff.1 (.widened hv)
  rw [slots_column, List.getElem?_map, hp, Option.map_some, hcell]
  rfl

end SchemaEntry

theorem natAbs_toInt_lt (v : Int64) : v.toInt.natAbs < 2 ^ 64 := by
  have hlow := v.le_toInt
  have hhigh := v.toInt_lt
  omega

/-- What the cell of an integer in a float column says of it. -/
structure Widened (v : Int64) (cell : List UInt8) : Prop where
  length : cell.length = 8
  value : (Column.readFloat cell).value = roundedInt v.toInt
  near : 2 * (roundedInt v.toInt - v.toInt).natAbs ≤ lastPlace v.toInt.natAbs
  kept : (Column.readFloat cell).value = v.toInt ↔ Fits v.toInt

theorem widened_floatBytes (v : Int64) : Widened v (Column.floatBytes (.ofInt v.toInt)) := by
  have hvalue := Binary64.value_ofInt (natAbs_toInt_lt v)
  refine ⟨Column.length_floatBytes _, ?_, Binary64.near_roundedInt _, ?_⟩
  · rw [Column.readFloat_floatBytes, hvalue]
  · rw [Column.readFloat_floatBytes, hvalue, Int.cast_inj, Binary64.roundedInt_eq_self_iff]

namespace Schema

/-- An integer in a float column becomes the nearest one with 53 significant bits. So two integers have
the same cell exactly when these are the same, which they are not for different integers that have no
more bits than that. -/
theorem widened_cells {schema : Schema} {points : List Point} {name : String} {column row row' : Nat}
    {c : Column} {p q : Point} {v w : Int64}
    (hentry : schema[column]? = some ⟨name, .float64⟩)
    (hcolumn : (schema.columns points)[column]? = some c)
    (hp : points[row]? = some p) (hv : p.field? name = some (.int v))
    (hq : points[row']? = some q) (hw : q.field? name = some (.int w)) :
    ∃ x y, (c.slots 8)[row]? = some (some x) ∧ (c.slots 8)[row']? = some (some y) ∧
      Widened v x ∧ Widened w y ∧ (x = y ↔ roundedInt v.toInt = roundedInt w.toInt) ∧
      (Fits v.toInt → Fits w.toInt → v ≠ w → x ≠ y) := by
  rw [columns, List.getElem?_map, hentry] at hcolumn
  obtain rfl := Option.some.inj hcolumn
  have hiff : Column.floatBytes (.ofInt v.toInt) = Column.floatBytes (.ofInt w.toInt) ↔
      roundedInt v.toInt = roundedInt w.toInt := by
    rw [← Binary64.ofInt_eq_iff (natAbs_toInt_lt v) (natAbs_toInt_lt w)]
    exact (Function.LeftInverse.injective Column.readFloat_floatBytes).eq_iff
  refine ⟨_, _, SchemaEntry.slot_of_int hp hv, SchemaEntry.slot_of_int hq hw, widened_floatBytes v,
    widened_floatBytes w, hiff, ?_⟩
  intro hfits hfits' hne hsame
  rw [hiff, (Binary64.roundedInt_eq_self_iff _).2 hfits,
    (Binary64.roundedInt_eq_self_iff _).2 hfits'] at hsame
  exact hne (Int64.toInt_inj.1 hsame)

def pastLimit : List Point := [
  { measurement := "m", fields := [("v", .float ⟨0x3FE0000000000000⟩)] },
  { measurement := "m", fields := [("v", .int 9007199254740992)] },
  { measurement := "m", fields := [("v", .int 9007199254740993)] },
  { measurement := "m", fields := [("v", .int 9007199254740994)] }]

/-- The first two integers have one cell. -/
theorem widened_cells_merge :
    infer pastLimit = [⟨"v", .float64⟩] ∧
      pastLimit[1].field? "v" = some (.int 9007199254740992) ∧
      pastLimit[2].field? "v" = some (.int 9007199254740993) ∧
      (9007199254740992 : Int64) ≠ 9007199254740993 ∧
      ∃ c, ((infer pastLimit).columns pastLimit)[0]? = some c ∧
        (c.slots 8)[1]? = some (some [0x43, 0x40, 0, 0, 0, 0, 0, 0]) ∧
        (c.slots 8)[2]? = (c.slots 8)[1]? := by
  refine ⟨by decide, by decide, by decide, by decide, SchemaEntry.column ⟨"v", .float64⟩ pastLimit, ?_⟩
  decide +kernel

/-- The last integer is past the limit as well, but even. -/
theorem widened_cells_even :
    Fits 9007199254740992 ∧ Fits 9007199254740994 ∧ ¬ Fits 9007199254740993 ∧
      ∃ c x y, ((infer pastLimit).columns pastLimit)[0]? = some c ∧
        (c.slots 8)[1]? = some (some x) ∧ (c.slots 8)[3]? = some (some y) ∧ x ≠ y := by
  have hentry : (infer pastLimit)[0]? = some ⟨"v", .float64⟩ := by decide
  have hcolumn : ((infer pastLimit).columns pastLimit)[0]? =
      some (SchemaEntry.column ⟨"v", .float64⟩ pastLimit) := by decide +kernel
  have hp : pastLimit[1]? = some pastLimit[1] := rfl
  have hq : pastLimit[3]? = some pastLimit[3] := rfl
  have hv : pastLimit[1].field? "v" = some (.int 9007199254740992) := by decide
  have hw : pastLimit[3].field? "v" = some (.int 9007199254740994) := by decide
  have hfits : Fits 9007199254740992 := Binary64.fits_of_le (by decide)
  have hfits' : Fits 9007199254740994 := by decide +kernel
  obtain ⟨x, y, hx, hy, -, -, -, hne⟩ := widened_cells hentry hcolumn hp hv hq hw
  exact ⟨hfits, hfits', by decide +kernel, _, x, y, hcolumn, hx, hy, hne hfits hfits' (by decide)⟩

end Schema
end SeriesIngest
