import SeriesIngest.Proofs.Column.Bits
import Mathlib.Data.List.Induction

/-! What a column that was built row by row holds: the bytes of its present rows one after
the other, the offset at which each text starts, and the rows themselves, which its readers
give back. -/
namespace SeriesIngest.Column

inductive Push where
  | int (v : Int64)
  | float (v : Binary64)
  | bool (v : Bool)
  | text (v : String)
  | null
  | textNull
deriving DecidableEq

namespace Push

def apply (c : Column) : Push → Column
  | int v => c.pushInt v
  | float v => c.pushFloat v
  | bool v => c.pushBool v
  | text v => c.pushText v
  | null => c.pushNull
  | textNull => c.pushTextNull

def bytes : Push → List UInt8
  | int v => intBytes v
  | float v => floatBytes v
  | bool v => boolBytes v
  | text v => Utf8.encode v
  | null | textNull => []

def isPresent : Push → Bool
  | null | textNull => false
  | _ => true

def isText : Push → Bool
  | text _ | textNull => true
  | _ => false

end Push

def ofPushes (pushes : List Push) : Column := pushes.foldl Push.apply {}

theorem ofPushes_concat (pushes : List Push) (p : Push) :
    ofPushes (pushes ++ [p]) = p.apply (ofPushes pushes) := by
  simp [ofPushes]

def startOf (pushes : List Push) (row : Nat) : Nat := ((pushes.take row).flatMap Push.bytes).length

theorem represents_ofPushes (pushes : List Push) :
    Represents (ofPushes pushes) (pushes.map Push.isPresent) := by
  induction pushes using List.reverseRecOn with
  | nil => exact represents_empty
  | append_singleton pushes p ih =>
    rw [ofPushes_concat, List.map_append, List.map_singleton]
    cases p with
    | int v => exact (ih.withValues (_ ++ intBytes v) _).pushRow true
    | float v => exact (ih.withValues (_ ++ floatBytes v) _).pushRow true
    | bool v => exact (ih.withValues (_ ++ boolBytes v) _).pushRow true
    | text v => exact (ih.withValues (_ ++ Utf8.encode v) (_ ++ [_])).pushRow true
    | null => exact ih.pushRow false
    | textNull => exact (ih.withValues _ (_ ++ [_])).pushRow false

theorem values_ofPushes (pushes : List Push) :
    (ofPushes pushes).values = pushes.flatMap Push.bytes := by
  induction pushes using List.reverseRecOn with
  | nil => rfl
  | append_singleton pushes p ih =>
    rw [ofPushes_concat, List.flatMap_append, ← ih]
    cases p <;>
      simp [Push.apply, Push.bytes, pushInt, pushFloat, pushBool, pushText, pushNull,
        pushTextNull, pushBytes, pushOffset, pushRow]

theorem startOf_append (pushes more : List Push) {row : Nat} (h : row ≤ pushes.length) :
    startOf (pushes ++ more) row = startOf pushes row := by
  rw [startOf, startOf, List.take_append_of_le_length h]

theorem startOf_length (pushes : List Push) :
    startOf pushes pushes.length = (pushes.flatMap Push.bytes).length := by
  rw [startOf, List.take_length]

theorem startOf_succ {pushes : List Push} {row : Nat} (h : row < pushes.length) :
    startOf pushes (row + 1) = startOf pushes row + pushes[row].bytes.length := by
  rw [startOf, startOf, List.take_succ_eq_append_getElem h, List.flatMap_append,
    List.length_append]
  simp

theorem startOf_le (pushes : List Push) (row : Nat) :
    startOf pushes row ≤ (pushes.flatMap Push.bytes).length := by
  unfold startOf
  conv_rhs => rw [← List.take_append_drop row pushes, List.flatMap_append, List.length_append]
  exact Nat.le_add_right _ _

theorem offsets_ofPushes (pushes : List Push) :
    (ofPushes pushes).offsets =
      ((List.range pushes.length).filter fun row => pushes[row]?.any Push.isText).map
        fun row => Int32.ofNat (startOf pushes row) := by
  induction pushes using List.reverseRecOn with
  | nil => rfl
  | append_singleton pushes p ih =>
    have hfilter : (List.range pushes.length).filter
          (fun row => (pushes ++ [p])[row]?.any Push.isText) =
        (List.range pushes.length).filter fun row => pushes[row]?.any Push.isText := by
      apply List.filter_congr
      intro row hrow
      rw [List.getElem?_append_left (List.mem_range.1 hrow)]
    have hmap (rows : List Nat) (h : ∀ row ∈ rows, row ≤ pushes.length) :
        rows.map (fun row => Int32.ofNat (startOf (pushes ++ [p]) row)) =
          rows.map fun row => Int32.ofNat (startOf pushes row) := by
      apply List.map_congr_left
      intro row hrow
      rw [startOf_append _ _ (h row hrow)]
    have hlast : (pushes ++ [p])[pushes.length]? = some p := by simp
    rw [ofPushes_concat, List.length_append, List.length_singleton, List.range_succ,
      List.filter_append, hfilter, List.map_append, hmap, ← ih, hmap]
    · cases hp : p.isText <;> cases p <;> simp_all [Push.isText, Push.apply, pushInt, pushFloat,
        pushBool, pushText, pushNull, pushTextNull, pushBytes, pushOffset, pushRow,
        startOf_length, values_ofPushes]
    · intro row hrow
      simp only [List.mem_filter, List.mem_singleton] at hrow
      exact Nat.le_of_eq hrow.1
    · intro row hrow
      exact Nat.le_of_lt (List.mem_range.1 (List.mem_filter.1 hrow).1)

theorem length_offsets_le (pushes : List Push) :
    (ofPushes pushes).offsets.length ≤ pushes.length := by
  rw [offsets_ofPushes, List.length_map]
  exact (List.length_filter_le _ _).trans (Nat.le_of_eq List.length_range)

end SeriesIngest.Column
