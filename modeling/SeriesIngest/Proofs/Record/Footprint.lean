import SeriesIngest.Proofs.Record.Spelling
import Mathlib.Algebra.Order.BigOperators.Group.List

/-! What bytes that are read as a record can make it hold. The record is never larger than they
are: its shortest wire form, which all of its parts go into, is no longer. Each row of a column
has a bit in the bitmap, so the rows are paid for as well. -/
namespace SeriesIngest

namespace Column

def footprint (c : Column) : Nat :=
  24 + c.values.length + 4 * c.offsets.length + c.bitmap.length

theorem Consistent.bits {c : Column} (h : c.Consistent) :
    c.rows + c.bitmapOffset ≤ 8 * c.bitmap.length := by
  have hbitmap := h.bitmap
  rw [Record.bitmapBytes] at hbitmap
  omega

theorem length_takeRows (width : Nat) (read : List UInt8 → α) (present : List Bool)
    (bytes : List UInt8) : (takeRows width read present bytes).length = present.length := by
  induction present generalizing bytes with
  | nil => rfl
  | cons here present ih =>
    cases here with
    | false => rw [takeRows, List.length_cons, ih, List.length_cons]
    | true =>
      rw [takeRows]
      split <;> rw [List.length_cons, ih, List.length_cons]

theorem length_presence (c : Column) : c.presence.length = c.rows := by
  rw [presence, List.length_map, List.length_range]

/-- What the reader of a column relies on: whether a row is null is read from a byte that is there,
and each of the four ways to decode the column gives all of its rows, whatever its type is. -/
structure Readable (c : Column) : Prop where
  bits : c.rows + c.bitmapOffset ≤ 8 * c.bitmap.length
  isNull : ∀ row < c.rows, ∃ byte, c.bitmap[(row + c.bitmapOffset) / 8]? = some byte ∧
    c.isNull row = (byte &&& bit (row + c.bitmapOffset) == 0)
  ints : c.ints.length = c.rows
  floats : c.floats.length = c.rows
  bools : c.bools.length = c.rows
  texts : c.texts.length = c.rows

theorem Consistent.readable {c : Column} (h : c.Consistent) : c.Readable where
  bits := h.bits
  isNull row hrow := by
    have hbits := h.bits
    have hbyte : (row + c.bitmapOffset) / 8 < c.bitmap.length := by omega
    refine ⟨c.bitmap[(row + c.bitmapOffset) / 8], List.getElem?_eq_getElem hbyte, ?_⟩
    rw [Column.isNull, List.getElem?_eq_getElem hbyte]
  ints := (length_takeRows _ _ _ _).trans c.length_presence
  floats := (length_takeRows _ _ _ _).trans c.length_presence
  bools := (length_takeRows _ _ _ _).trans c.length_presence
  texts := by rw [texts, List.length_map, List.length_range]

end Column

def SchemaEntry.footprint (e : SchemaEntry) : Nat := 5 + (Utf8.encode e.name).length

namespace Record

def footprint (r : Record) : Nat :=
  24 + (r.schema.map (·.footprint)).sum + (r.columns.map (·.footprint)).sum

theorem length_blockWire (bytes : List UInt8) : (blockWire bytes).length = 4 + bytes.length := by
  rw [blockWire, List.length_append, BigEndian.length_encode]

theorem length_entryWire (e : SchemaEntry) : (entryWire e).length = e.footprint := by
  rw [entryWire, List.length_append, length_blockWire, length_encode_id, SchemaEntry.footprint]
  omega

theorem length_columnWire (c : Column) : (columnWire c).length = c.footprint := by
  simp only [columnWire, List.length_append, length_blockWire, BigEndian.length_encode,
    length_flatMap_wordBytes, Column.footprint]
  omega

theorem length_wire (r : Record) : r.wire.length = r.footprint := by
  simp only [wire, List.length_append, BigEndian.length_encode, Column.length_intBytes,
    List.length_flatMap, length_entryWire, length_columnWire, footprint]
  omega

theorem footprint_le_of_mem {r : Record} {c : Column} (h : c ∈ r.columns) :
    c.footprint ≤ r.footprint := by
  have hsum : c.footprint ≤ (r.columns.map (·.footprint)).sum :=
    List.le_sum_of_mem (List.mem_map_of_mem h)
  rw [footprint]
  omega

/-- A record that was read is no larger than the bytes it came from. It has a column for each entry,
and a column has fewer rows than the bytes have bits, which all of its readers give, whatever its
offsets, its null count and its values are. -/
theorem footprint_of_ofBytes {measurement : String} {bytes : List UInt8} {r : Record}
    (h : ofBytes measurement bytes = .ok r) :
    r.columns.length = r.schema.length ∧ r.footprint ≤ bytes.length ∧
      ∀ c ∈ r.columns, c.Readable ∧ c.rows < 8 * bytes.length := by
  obtain ⟨-, -, hsound, varints, hspelled⟩ := takes_of_ofBytes h
  have hsize : r.footprint ≤ bytes.length := by
    rw [← length_wire]
    exact length_wire_le hspelled
  refine ⟨hsound.aligned, hsize, fun c hc => ?_⟩
  have hreadable := (hsound.consistent c hc).readable
  have hbits := hreadable.bits
  have hcolumn := footprint_le_of_mem hc
  rw [Column.footprint] at hcolumn
  exact ⟨hreadable, by omega⟩

/-- An offset that points nowhere, and a bitmap that starts at its second bit. -/
theorem footprint_of_ofBytes_verbose :
    ofBytes "m" verbose = .ok ofVerbose ∧ ofVerbose.footprint = 63 ∧ verbose.length = 65 ∧
      ofVerbose.footprint ≤ verbose.length ∧
      ∀ c ∈ ofVerbose.columns, c.Readable ∧ c.rows < 8 * verbose.length := by
  obtain ⟨-, hsize, hcolumns⟩ := footprint_of_ofBytes ofBytes_verbose
  exact ⟨ofBytes_verbose, by decide, by decide, hsize, hcolumns⟩

end Record
end SeriesIngest
