import SeriesIngest.Column
import Mathlib.Data.Nat.Bitwise
import Mathlib.Tactic.IntervalCases

/-! The presence bits of a column. A bitmap is read as a sequence of bits, lowest bit first. -/
namespace SeriesIngest.Column

def hasBit (bitmap : List UInt8) (i : Nat) : Bool :=
  (bitmap[i / 8]?.map (·.toNat.testBit (i % 8))).getD false

theorem toNat_bit (row : Nat) : (bit row).toNat = 2 ^ (row % 8) := by
  unfold bit
  have hrow : row % 8 < 8 := Nat.mod_lt _ (by decide)
  generalize row % 8 = k at hrow
  interval_cases k <;> rfl

theorem and_bit_eq_zero (byte : UInt8) (row : Nat) :
    (byte &&& bit row == 0) = !byte.toNat.testBit (row % 8) := by
  have hnat : (byte &&& bit row).toNat = (byte.toNat.testBit (row % 8)).toNat * 2 ^ (row % 8) := by
    rw [UInt8.toNat_and, toNat_bit, Nat.and_two_pow]
  have hzero : (byte &&& bit row == 0) = decide ((byte &&& bit row).toNat = 0) := by
    rw [Bool.eq_iff_iff, beq_iff_eq, decide_eq_true_eq, ← UInt8.toNat_inj]
    rfl
  rw [hzero, hnat]
  cases byte.toNat.testBit (row % 8) <;> simp

theorem testBit_or_bit (byte : UInt8) (row j : Nat) :
    (byte ||| bit row).toNat.testBit j = (byte.toNat.testBit j || decide (row % 8 = j)) := by
  rw [UInt8.toNat_or, Nat.testBit_or, toNat_bit, Nat.testBit_two_pow]

theorem isNull_eq (c : Column) (row : Nat) :
    c.isNull row = !hasBit c.bitmap (row + c.bitmapOffset) := by
  unfold isNull hasBit
  cases c.bitmap[(row + c.bitmapOffset) / 8]? with
  | none => rfl
  | some byte => exact and_bit_eq_zero byte _

theorem hasBit_append_zero (bitmap : List UInt8) (i : Nat) :
    hasBit (bitmap ++ [0]) i = hasBit bitmap i := by
  unfold hasBit
  rw [List.getElem?_append]
  split
  · rfl
  · rename_i h
    rw [List.getElem?_eq_none (Nat.le_of_not_lt h)]
    cases hi : ([0] : List UInt8)[i / 8 - bitmap.length]? with
    | none => rfl
    | some byte =>
      have hbyte : byte = 0 := List.mem_singleton.1 (List.mem_of_getElem? hi)
      simp [hbyte]

theorem hasBit_modify {bitmap : List UInt8} {row : Nat} (h : row / 8 < bitmap.length) (i : Nat) :
    hasBit (bitmap.modify (row / 8) (· ||| bit row)) i = (hasBit bitmap i || decide (i = row)) := by
  unfold hasBit
  rw [List.getElem?_modify]
  by_cases hbyte : row / 8 = i / 8
  · rw [← hbyte, List.getElem?_eq_getElem h]
    simp only [if_true, Option.map_eq_map, Option.map_some, Option.getD_some, testBit_or_bit]
    congr 1
    apply decide_eq_decide.2
    omega
  · have hne : i ≠ row := by rintro rfl; exact hbyte rfl
    simp only [hbyte, if_false, hne, decide_false, Bool.or_false]
    cases bitmap[i / 8]? <;> rfl

def grown (c : Column) : List UInt8 := if c.rows % 8 = 0 then c.bitmap ++ [0] else c.bitmap

theorem length_grown {c : Column} (h : c.bitmap.length = (c.rows + 7) / 8) :
    c.grown.length = (c.rows + 1 + 7) / 8 := by
  unfold grown
  split
  · rw [List.length_append, h, List.length_singleton]
    omega
  · rw [h]
    omega

theorem hasBit_grown (c : Column) (i : Nat) : hasBit c.grown i = hasBit c.bitmap i := by
  unfold grown
  split
  · exact hasBit_append_zero _ _
  · rfl

theorem length_bitmap_pushRow {c : Column} (h : c.bitmap.length = (c.rows + 7) / 8) (b : Bool) :
    (c.pushRow b).bitmap.length = (c.rows + 1 + 7) / 8 := by
  rw [← length_grown h]
  cases b
  · rfl
  · exact List.length_modify _ _ _

theorem hasBit_pushRow {c : Column} (h : c.bitmap.length = (c.rows + 7) / 8) (b : Bool) (i : Nat) :
    hasBit (c.pushRow b).bitmap i = (hasBit c.bitmap i || (b && decide (i = c.rows))) := by
  have hlt : c.rows / 8 < c.grown.length := by
    rw [length_grown h]
    omega
  rw [← hasBit_grown c]
  cases b
  · rw [Bool.false_and, Bool.or_false]
    rfl
  · exact hasBit_modify hlt i

/-- The rows of a column, present or not, as its counters and its bitmap hold them. -/
structure Represents (c : Column) (present : List Bool) : Prop where
  rows : c.rows = present.length
  nulls : c.nulls = present.count false
  bitmapOffset : c.bitmapOffset = 0
  bytes : c.bitmap.length = (present.length + 7) / 8
  bits : ∀ i, hasBit c.bitmap i = present[i]?.getD false

theorem represents_empty : Represents {} [] :=
  ⟨rfl, rfl, rfl, rfl, fun i => by simp [hasBit]⟩

theorem Represents.withValues {c : Column} {present : List Bool} (h : Represents c present)
    (values : List UInt8) (offsets : List Int32) :
    Represents { c with values, offsets } present :=
  ⟨h.rows, h.nulls, h.bitmapOffset, h.bytes, h.bits⟩

theorem Represents.pushRow {c : Column} {present : List Bool} (h : Represents c present)
    (b : Bool) : Represents (c.pushRow b) (present ++ [b]) := by
  obtain ⟨rows, nulls, bitmapOffset, bytes, bits⟩ := h
  rw [← rows] at bytes
  refine ⟨by simp [Column.pushRow, rows], ?_, bitmapOffset, ?_, ?_⟩
  · cases b <;> simp [Column.pushRow, nulls]
  · rw [length_bitmap_pushRow bytes, rows, List.length_append, List.length_singleton]
  · intro i
    rw [hasBit_pushRow bytes, bits, rows, List.getElem?_append]
    by_cases hlt : i < present.length
    · have hne : i ≠ present.length := Nat.ne_of_lt hlt
      simp [hlt, hne]
    · rw [List.getElem?_eq_none (Nat.le_of_not_lt hlt)]
      by_cases heq : i = present.length
      · subst heq
        cases b <;> simp
      · have hnone : ([b] : List Bool)[i - present.length]? = none :=
          List.getElem?_eq_none (by simp only [List.length_singleton]; omega)
        simp [hlt, heq, hnone]

theorem Represents.isNull {c : Column} {present : List Bool} (h : Represents c present)
    (row : Nat) : c.isNull row = !present[row]?.getD false := by
  rw [isNull_eq, h.bitmapOffset, Nat.add_zero, h.bits]

theorem Represents.presence {c : Column} {present : List Bool} (h : Represents c present) :
    c.presence = present := by
  apply List.ext_getElem?
  intro i
  unfold Column.presence
  rw [List.getElem?_map, h.rows]
  by_cases hi : i < present.length
  · simp [hi, h.isNull]
  · have hle := Nat.le_of_not_lt hi
    simp [hle]

end SeriesIngest.Column
