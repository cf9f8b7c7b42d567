import SeriesIngest.Proofs.Column.Pushes
import SeriesIngest.Proofs.Wire.BigEndian

/-! The readers of a column give back the rows that were pushed, nulls in place. -/
namespace SeriesIngest.Column

theorem length_intBytes (v : Int64) : (intBytes v).length = 8 := BigEndian.length_encode _ _

theorem length_floatBytes (v : Binary64) : (floatBytes v).length = 8 :=
  BigEndian.length_encode _ _

theorem readInt_intBytes (v : Int64) : readInt (intBytes v) = v := by
  unfold readInt intBytes
  rw [BigEndian.decode_encode_of_lt v.toUInt64.toNat_lt]
  simp

theorem readFloat_floatBytes (v : Binary64) : readFloat (floatBytes v) = v := by
  unfold readFloat floatBytes
  rw [BigEndian.decode_encode_of_lt v.bits.toNat_lt]
  simp

theorem readBool_boolBytes (v : Bool) : readBool (boolBytes v) = v := by
  cases v <;> rfl

theorem Push.bytes_of_absent {p : Push} (h : p.isPresent = false) : p.bytes = [] := by
  cases p <;> first | rfl | cases h

theorem takeRows_eq_map (width : Nat) (read : List UInt8 → α) (present : List Bool)
    (bytes : List UInt8) :
    takeRows width read present bytes = (takeRows width id present bytes).map (·.map read) := by
  induction present generalizing bytes with
  | nil => rfl
  | cons here present ih =>
    cases here with
    | false => rw [takeRows, takeRows, ih, List.map_cons, Option.map_none]
    | true =>
      rw [takeRows, takeRows]
      split
      · rw [ih, List.map_cons, Option.map_none]
      · rw [ih, List.map_cons, Option.map_some, id]

theorem takeRows_pushes {width : Nat} {pushes : List Push}
    (h : ∀ p ∈ pushes, p.isPresent → p.bytes.length = width) :
    takeRows width id (pushes.map Push.isPresent) (pushes.flatMap Push.bytes) =
      pushes.map fun p => if p.isPresent then some p.bytes else none := by
  induction pushes with
  | nil => rfl
  | cons p pushes ih =>
    obtain ⟨hp, hpushes⟩ := List.forall_mem_cons.1 h
    rw [List.map_cons, List.flatMap_cons, List.map_cons]
    cases hpresent : p.isPresent with
    | false =>
      rw [takeRows, Push.bytes_of_absent hpresent, List.nil_append, ih hpushes]
      rfl
    | true =>
      have hlength := hp hpresent
      have hshort : ¬ (p.bytes ++ pushes.flatMap Push.bytes).length < width := by
        rw [List.length_append, hlength]
        omega
      rw [takeRows, if_neg hshort, List.take_left' hlength, List.drop_left' hlength, ih hpushes]
      rfl

def slots (width : Nat) (c : Column) : List (Option (List UInt8)) :=
  takeRows width id c.presence c.values

theorem slots_ofPushes {width : Nat} {pushes : List Push}
    (h : ∀ p ∈ pushes, p.isPresent → p.bytes.length = width) :
    (ofPushes pushes).slots width =
      pushes.map fun p => if p.isPresent then some p.bytes else none := by
  rw [slots, (represents_ofPushes _).presence, values_ofPushes, takeRows_pushes h]

structure FixedWidth (width : Nat) (read : List UInt8 → α) (push : Option α → Push) : Prop where
  none_bytes : (push none).bytes = []
  isPresent : ∀ cell, (push cell).isPresent = cell.isSome
  length_bytes : ∀ v, (push (some v)).bytes.length = width
  read_bytes : ∀ v, read (push (some v)).bytes = v

theorem FixedWidth.takeRows {width : Nat} {read : List UInt8 → α} {push : Option α → Push}
    (h : FixedWidth width read push) (cells : List (Option α)) :
    takeRows width read ((cells.map push).map Push.isPresent)
      ((cells.map push).flatMap Push.bytes) = cells := by
  have hwidth : ∀ p ∈ cells.map push, p.isPresent → p.bytes.length = width := by
    intro p hp hpresent
    obtain ⟨cell, -, rfl⟩ := List.mem_map.1 hp
    rw [h.isPresent] at hpresent
    obtain ⟨v, rfl⟩ := Option.isSome_iff_exists.1 hpresent
    exact h.length_bytes v
  have hcell (cell : Option α) :
      (if (push cell).isPresent then some (push cell).bytes else none).map read = cell := by
    rw [h.isPresent]
    cases cell with
    | none => rfl
    | some v => simp [h.read_bytes]
  rw [takeRows_eq_map, takeRows_pushes hwidth, List.map_map, List.map_map]
  exact List.map_id'' hcell cells

theorem FixedWidth.rows {width : Nat} {read : List UInt8 → α} {push : Option α → Push}
    (h : FixedWidth width read push) (cells : List (Option α)) :
    Column.takeRows width read (ofPushes (cells.map push)).presence
      (ofPushes (cells.map push)).values = cells := by
  rw [(represents_ofPushes _).presence, values_ofPushes, h.takeRows]

def intPush : Option Int64 → Push
  | some v => .int v
  | none => .null

def floatPush : Option Binary64 → Push
  | some v => .float v
  | none => .null

def boolPush : Option Bool → Push
  | some v => .bool v
  | none => .null

def textPush : Option String → Push
  | some v => .text v
  | none => .textNull

theorem ints_ofPushes (cells : List (Option Int64)) :
    (ofPushes (cells.map intPush)).ints = cells :=
  FixedWidth.rows ⟨rfl, fun cell => by cases cell <;> rfl, length_intBytes, readInt_intBytes⟩ _

theorem floats_ofPushes (cells : List (Option Binary64)) :
    (ofPushes (cells.map floatPush)).floats = cells :=
  FixedWidth.rows ⟨rfl, fun cell => by cases cell <;> rfl, length_floatBytes,
    readFloat_floatBytes⟩ _

theorem bools_ofPushes (cells : List (Option Bool)) :
    (ofPushes (cells.map boolPush)).bools = cells :=
  FixedWidth.rows ⟨rfl, fun cell => by cases cell <;> rfl, fun _ => rfl, readBool_boolBytes⟩ _

theorem position?_ofNat {n : Nat} (h : n < 2 ^ 31) : position? (Int32.ofNat n) = some n := by
  have hint : (Int32.ofNat n).toInt = n := Int32.toInt_ofNat_of_lt h
  have hnonneg : ¬ Int32.ofNat n < 0 := by
    rw [Int32.lt_iff_toInt_lt, hint]
    simp
  unfold position?
  rw [if_neg hnonneg, hint, Int.toNat_natCast]

/-- A word counts up to its half and then from the negative end: nothing is found there. -/
theorem position?_ofNat_of_le {n : Nat} (h : 2 ^ 31 ≤ n) (hn : n < 2 ^ 32) :
    position? (Int32.ofNat n) = none := by
  have hneg : Int32.ofNat n < 0 := by
    have hint : (Int32.ofNat n).toInt = n - 2 ^ 32 := by
      have hsize : (Int32.size : Int) = 2 ^ 32 := rfl
      rw [Int32.toInt_ofNat', Int.bmod_def, hsize]
      omega
    rw [Int32.lt_iff_toInt_lt, hint, Int32.toInt_zero]
    omega
  rw [position?, if_pos hneg]

theorem text?_eq {c : Column} {row start stop : Nat} {v : String} (hpresent : c.isNull row = false)
    (hstart : c.offsets[row]?.bind position? = some start)
    (hstop : (match c.offsets[row + 1]? with
      | some next => position? next
      | none => some c.values.length) = some stop)
    (hle : start ≤ stop) (hend : stop ≤ c.values.length)
    (hv : (c.values.drop start).take (stop - start) = Utf8.encode v) : c.text? row = some v := by
  obtain ⟨offset, hoffset, hposition⟩ := Option.bind_eq_some_iff.1 hstart
  unfold text?
  cases hnext : c.offsets[row + 1]? with
  | none =>
    have hlast : c.values.length = stop := by simpa [hnext] using hstop
    simp [hpresent, hoffset, hposition, hlast, hle, hv, Utf8.decode_encode, Except.toOption]
  | some next =>
    have hnextPosition : position? next = some stop := by simpa [hnext] using hstop
    simp [hpresent, hoffset, hposition, hnextPosition, hle, hend, hv, Utf8.decode_encode,
      Except.toOption]

theorem slice_flatMap {pushes : List Push} {row : Nat} (h : row < pushes.length) :
    ((pushes.flatMap Push.bytes).drop (startOf pushes row)).take
        (startOf pushes (row + 1) - startOf pushes row) = pushes[row].bytes := by
  have hsplit : pushes.flatMap Push.bytes = (pushes.take row).flatMap Push.bytes ++
      (pushes[row].bytes ++ (pushes.drop (row + 1)).flatMap Push.bytes) := by
    conv_lhs => rw [← List.take_append_drop row pushes, List.drop_eq_getElem_cons h]
    rw [List.flatMap_append, List.flatMap_cons]
  have hstart : ((pushes.take row).flatMap Push.bytes).length = startOf pushes row := rfl
  have hwidth : startOf pushes (row + 1) - startOf pushes row = pushes[row].bytes.length := by
    rw [startOf_succ h]
    omega
  rw [hsplit, List.drop_left' hstart, hwidth, List.take_left' rfl]

theorem offsets_of_text {pushes : List Push} (h : ∀ p ∈ pushes, p.isText) :
    (ofPushes pushes).offsets =
      (List.range pushes.length).map fun row => Int32.ofNat (startOf pushes row) := by
  rw [offsets_ofPushes, List.filter_eq_self.2]
  intro row hrow
  have hlt := List.mem_range.1 hrow
  rw [List.getElem?_eq_getElem hlt]
  exact h _ (List.getElem_mem hlt)

def Push.text? : Push → Option String
  | .text v => some v
  | _ => none

theorem offset_of_text {pushes : List Push} (h : ∀ p ∈ pushes, p.isText) {row : Nat}
    (hrow : row < pushes.length) :
    (ofPushes pushes).offsets[row]? = some (Int32.ofNat (startOf pushes row)) := by
  rw [offsets_of_text h, List.getElem?_map, List.getElem?_range hrow]
  rfl

theorem isNull_ofPushes (pushes : List Push) (row : Nat) :
    (ofPushes pushes).isNull row = !pushes[row]?.any Push.isPresent := by
  rw [(represents_ofPushes pushes).isNull, List.getElem?_map]
  cases pushes[row]? <;> rfl

theorem stop_of_text {pushes : List Push} (h : ∀ p ∈ pushes, p.isText) {row : Nat}
    (hrow : row < pushes.length) :
    (match (ofPushes pushes).offsets[row + 1]? with
      | some next => position? next
      | none => some (ofPushes pushes).values.length) =
      if row + 1 < pushes.length then position? (Int32.ofNat (startOf pushes (row + 1)))
      else some (startOf pushes (row + 1)) := by
  split_ifs with hlast
  · rw [offset_of_text h hlast]
  · have hend : row + 1 = pushes.length := by omega
    rw [offsets_of_text h, hend, List.getElem?_eq_none (by simp), startOf_length, values_ofPushes]

/-- A row of text is read back when words of 31 bits hold where it starts and where the next one
does. -/
theorem text?_ofPushes {pushes : List Push} (h : ∀ p ∈ pushes, p.isText) {row : Nat}
    (hrow : row < pushes.length) (hstart : startOf pushes row < 2 ^ 31)
    (hnext : row + 1 < pushes.length → startOf pushes (row + 1) < 2 ^ 31) :
    (ofPushes pushes).text? row = pushes[row].text? := by
  have hnull : (ofPushes pushes).isNull row = !pushes[row].isPresent := by
    rw [isNull_ofPushes, List.getElem?_eq_getElem hrow, Option.any_some]
  have htext := h _ (List.getElem_mem hrow)
  cases hpush : pushes[row] with
  | text v =>
    have hsucc := startOf_succ hrow
    have hbegin : (ofPushes pushes).offsets[row]?.bind position? = some (startOf pushes row) := by
      rw [offset_of_text h hrow, Option.bind_some, position?_ofNat hstart]
    have hfinish := stop_of_text h hrow
    have hstop : (if row + 1 < pushes.length
        then position? (Int32.ofNat (startOf pushes (row + 1)))
        else some (startOf pushes (row + 1))) = some (startOf pushes (row + 1)) := by
      split_ifs with hlast
      · exact position?_ofNat (hnext hlast)
      · rfl
    rw [hpush] at hnull
    apply text?_eq hnull hbegin (hfinish.trans hstop)
    · omega
    · rw [values_ofPushes]
      exact startOf_le _ _
    · rw [values_ofPushes, slice_flatMap hrow, hpush]
      rfl
  | textNull =>
    rw [hpush] at hnull
    simp [Column.text?, hnull, Push.isPresent, Push.text?]
  | int v => simp [hpush, Push.isText] at htext
  | float v => simp [hpush, Push.isText] at htext
  | bool v => simp [hpush, Push.isText] at htext
  | null => simp [hpush, Push.isText] at htext

/-- An offset whose word is negative takes its row with it, be it the start of the row or of the
next one. -/
theorem text?_lost {pushes : List Push} (h : ∀ p ∈ pushes, p.isText) {row : Nat}
    (hrow : row < pushes.length)
    (hlost : position? (Int32.ofNat (startOf pushes row)) = none ∨
      row + 1 < pushes.length ∧ position? (Int32.ofNat (startOf pushes (row + 1))) = none) :
    (ofPushes pushes).text? row = none := by
  unfold text?
  rw [offset_of_text h hrow]
  rcases hlost with hstart | ⟨hlast, hnext⟩
  · simp [hstart]
  · rw [offset_of_text h hlast]
    simp [hnext]

theorem texts_ofPushes (cells : List (Option String))
    (hsize : (ofPushes (cells.map textPush)).values.length < 2 ^ 31) :
    (ofPushes (cells.map textPush)).texts = cells := by
  have htext : ∀ p ∈ cells.map textPush, p.isText := by
    intro p hp
    obtain ⟨cell, -, rfl⟩ := List.mem_map.1 hp
    cases cell <;> rfl
  rw [values_ofPushes] at hsize
  apply List.ext_getElem?
  intro row
  unfold texts
  rw [List.getElem?_map, (represents_ofPushes _).rows, List.length_map, List.length_map]
  by_cases hrow : row < cells.length
  · have hpush : row < (cells.map textPush).length := by rwa [List.length_map]
    have hshort (row : Nat) : startOf (cells.map textPush) row < 2 ^ 31 :=
      (startOf_le _ _).trans_lt hsize
    rw [List.getElem?_range hrow, List.getElem?_eq_getElem hrow, Option.map_some,
      text?_ofPushes htext hpush (hshort row) fun _ => hshort (row + 1), List.getElem_map]
    cases cells[row] <;> rfl
  · have hnone : cells.length ≤ row := Nat.not_lt.1 hrow
    rw [List.getElem?_eq_none (by simpa using hnone), List.getElem?_eq_none hnone]
    rfl

end SeriesIngest.Column
