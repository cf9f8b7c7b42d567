import SeriesIngest.Proofs.Column.Rows
import Mathlib.Data.List.Forall2

/-! What the parts of a column hold after any mixture of pushes: its counters, every bit of its
bitmap, its values and its offsets. -/
namespace SeriesIngest.Column

inductive Push.Spelled : Push → List UInt8 → Prop
  | int {v : Int64} {bytes : List UInt8} (hlength : bytes.length = 8)
    (hvalue : BigEndian.decode bytes = v.toUInt64.toNat) : Spelled (.int v) bytes
  | float {v : Binary64} {bytes : List UInt8} (hlength : bytes.length = 8)
    (hvalue : BigEndian.decode bytes = v.bits.toNat) : Spelled (.float v) bytes
  | bool (v : Bool) : Spelled (.bool v) [if v then 1 else 0]
  | text (v : String) : Spelled (.text v) v.toUTF8.data.toList
  | null : Spelled .null []
  | textNull : Spelled .textNull []

theorem Push.spelled_bytes (p : Push) : p.Spelled p.bytes := by
  cases p with
  | int v => exact .int (length_intBytes v) (BigEndian.decode_encode_of_lt v.toUInt64.toNat_lt)
  | float v => exact .float (length_floatBytes v) (BigEndian.decode_encode_of_lt v.bits.toNat_lt)
  | bool v => exact .bool v
  | text v => exact .text v
  | null => exact .null
  | textNull => exact .textNull

theorem startOf_mono (pushes : List Push) {row row' : Nat} (h : row ≤ row') :
    startOf pushes row ≤ startOf pushes row' := by
  have htake : (pushes.take row').take row = pushes.take row := by
    rw [List.take_take, Nat.min_eq_left h]
  have hle := startOf_le (pushes.take row') row
  rwa [startOf, htake] at hle

def textStarts (pushes : List Push) : List Nat :=
  ((List.range pushes.length).filter fun row => pushes[row]?.any Push.isText).map (startOf pushes)

theorem offsets_eq_textStarts (pushes : List Push) :
    (ofPushes pushes).offsets = (textStarts pushes).map Int32.ofNat := by
  rw [offsets_ofPushes, textStarts, List.map_map]
  rfl

theorem textStarts_ordered (pushes : List Push) : (textStarts pushes).Pairwise (· ≤ ·) := by
  rw [textStarts, List.pairwise_map]
  apply (List.pairwise_lt_range.filter _).imp
  intro row row' hlt
  exact startOf_mono pushes (Nat.le_of_lt hlt)

theorem le_of_mem_textStarts {pushes : List Push} {start : Nat} (h : start ∈ textStarts pushes) :
    start ≤ (ofPushes pushes).values.length := by
  obtain ⟨row, -, rfl⟩ := List.mem_map.1 h
  rw [values_ofPushes]
  exact startOf_le pushes row

/-- What the parts of a column hold. The bits after the last row fill up its byte. -/
structure Layout (c : Column) (pushes : List Push) : Prop where
  rows : c.rows = pushes.length
  nulls : c.nulls = pushes.countP (!·.isPresent)
  words : pushes.length < 2 ^ 31 → c.len.toInt = c.rows ∧ c.nullCount.toInt = c.nulls
  bytes : c.bitmap.length = (pushes.length + 7) / 8
  bits : ∀ row, (h : row < pushes.length) → hasBit c.bitmap row = pushes[row].isPresent
  padding : ∀ bit, pushes.length ≤ bit → hasBit c.bitmap bit = false
  isNull : ∀ row, c.isNull row = !pushes[row]?.any Push.isPresent
  values : ∃ parts, List.Forall₂ Push.Spelled pushes parts ∧ c.values = parts.flatten
  starts : c.offsets = (textStarts pushes).map Int32.ofNat
  ordered : c.offsets.Pairwise (· ≤ ·)
  bounded : ∀ offset ∈ c.offsets, 0 ≤ offset.toInt ∧ offset.toInt ≤ c.values.length

/-- What the readers of a column give where all of its rows are of one kind. -/
structure ReadsBack (c : Column) (pushes : List Push) : Prop where
  ints : ∀ cells, pushes = cells.map intPush → c.ints = cells
  floats : ∀ cells, pushes = cells.map floatPush → c.floats = cells
  bools : ∀ cells, pushes = cells.map boolPush → c.bools = cells
  texts : ∀ cells, pushes = cells.map textPush → c.texts = cells

variable {pushes : List Push}

theorem nulls_ofPushes (pushes : List Push) :
    (ofPushes pushes).nulls = pushes.countP (!·.isPresent) := by
  rw [(represents_ofPushes pushes).nulls, List.count_eq_countP, List.countP_map]
  congr 1
  funext p
  cases hp : p.isPresent <;> simp [hp]

theorem words_ofPushes (h : pushes.length < 2 ^ 31) :
    (ofPushes pushes).len.toInt = (ofPushes pushes).rows ∧
      (ofPushes pushes).nullCount.toInt = (ofPushes pushes).nulls := by
  have hrows : (ofPushes pushes).rows = pushes.length := by
    rw [(represents_ofPushes pushes).rows, List.length_map]
  have hnulls : (ofPushes pushes).nulls ≤ pushes.length := by
    rw [nulls_ofPushes]
    exact List.countP_le_length
  exact ⟨Int32.toInt_ofNat_of_lt (hrows ▸ h), Int32.toInt_ofNat_of_lt (hnulls.trans_lt h)⟩

theorem hasBit_ofPushes (pushes : List Push) (row : Nat) :
    hasBit (ofPushes pushes).bitmap row = pushes[row]?.any Push.isPresent := by
  rw [(represents_ofPushes pushes).bits, List.getElem?_map]
  cases pushes[row]? <;> rfl

theorem spelled_values (pushes : List Push) : ∃ parts, List.Forall₂ Push.Spelled pushes parts ∧
    (ofPushes pushes).values = parts.flatten := by
  refine ⟨pushes.map Push.bytes, ?_, ?_⟩
  · rw [List.forall₂_map_right_iff]
    exact List.forall₂_same.2 fun p _ => p.spelled_bytes
  · rw [values_ofPushes, List.flatMap_def]

theorem toInt_start {start : Nat} (hsize : (ofPushes pushes).values.length < 2 ^ 31)
    (h : start ∈ textStarts pushes) : (Int32.ofNat start).toInt = start :=
  Int32.toInt_ofNat_of_lt ((le_of_mem_textStarts h).trans_lt hsize)

theorem ordered_offsets (hsize : (ofPushes pushes).values.length < 2 ^ 31) :
    (ofPushes pushes).offsets.Pairwise (· ≤ ·) := by
  rw [offsets_eq_textStarts, List.pairwise_map]
  apply (textStarts_ordered pushes).imp_of_mem
  intro start start' hstart hstart' hle
  rw [Int32.le_iff_toInt_le, toInt_start hsize hstart, toInt_start hsize hstart']
  exact Int.ofNat_le.2 hle

theorem bounded_offsets (hsize : (ofPushes pushes).values.length < 2 ^ 31) :
    ∀ offset ∈ (ofPushes pushes).offsets,
      0 ≤ offset.toInt ∧ offset.toInt ≤ (ofPushes pushes).values.length := by
  intro offset hoffset
  rw [offsets_eq_textStarts] at hoffset
  obtain ⟨start, hstart, rfl⟩ := List.mem_map.1 hoffset
  rw [toInt_start hsize hstart]
  exact ⟨Int.natCast_nonneg start, Int.ofNat_le.2 (le_of_mem_textStarts hstart)⟩

/-- Every column that is built row by row, with fewer bytes than an offset can count, has the layout
of its rows, and rows of one kind are read back as they were pushed. -/
theorem layout_ofPushes (hsize : (ofPushes pushes).values.length < 2 ^ 31) :
    (ofPushes pushes).Layout pushes ∧ (ofPushes pushes).ReadsBack pushes := by
  have hrep := represents_ofPushes pushes
  refine ⟨{ rows := ?_, nulls := nulls_ofPushes pushes, words := words_ofPushes, bytes := ?_
            bits := ?_, padding := ?_
            isNull := isNull_ofPushes pushes, values := spelled_values pushes
            starts := offsets_eq_textStarts pushes, ordered := ordered_offsets hsize
            bounded := bounded_offsets hsize }, ?_⟩
  · rw [hrep.rows, List.length_map]
  · rw [hrep.bytes, List.length_map]
  · intro row hrow
    rw [hasBit_ofPushes, List.getElem?_eq_getElem hrow, Option.any_some]
  · intro bit hbit
    rw [hasBit_ofPushes, List.getElem?_eq_none hbit, Option.any_none]
  · constructor
    · rintro cells rfl
      exact ints_ofPushes cells
    · rintro cells rfl
      exact floats_ofPushes cells
    · rintro cells rfl
      exact bools_ofPushes cells
    · rintro cells rfl
      exact texts_ofPushes cells hsize

/-- Nulls at both ends, empty texts, and rows past the first byte of the bitmap. -/
def gaps : List (Option String) :=
  [none, some "", some "é", none, some "", some "ab", none, none, some "c", none]

theorem layout_ofPushes_gaps :
    (ofPushes (gaps.map textPush)).values.length < 2 ^ 31 ∧
      (ofPushes (gaps.map textPush)).Layout (gaps.map textPush) ∧
      (ofPushes (gaps.map textPush)).bitmap = [0x36, 0x01] ∧
      (ofPushes (gaps.map textPush)).offsets = [0, 0, 0, 2, 2, 2, 4, 4, 4, 5] ∧
      (ofPushes (gaps.map textPush)).texts = gaps := by
  have hsize : (ofPushes (gaps.map textPush)).values.length < 2 ^ 31 := by decide +kernel
  obtain ⟨hlayout, hreads⟩ := layout_ofPushes hsize
  exact ⟨hsize, hlayout, by decide +kernel, by decide +kernel, hreads.texts gaps rfl⟩

example : ofPushes [.int (-2), .text "ab", .null, .textNull, .bool true] = {
    values := [255, 255, 255, 255, 255, 255, 255, 254, 97, 98, 1]
    offsets := [8, 10], bitmap := [0x13], rows := 5, nulls := 2 } := by decide +kernel

end SeriesIngest.Column
