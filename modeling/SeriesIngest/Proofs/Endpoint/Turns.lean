import SeriesIngest.Proofs.Endpoint.Flags
import Mathlib.Algebra.Order.Ring.Nat

/-! Whose turn it is. As long as the counter does not run over, the turns go round the slots, and
a pick passes over a slot that is down. -/
namespace SeriesIngest.Rotation

variable (r : Rotation)

/-- The slot of a turn, when turns are counted without end. -/
def slotAt (turn : Nat) : Fin r.size := ⟨turn % r.size, Nat.mod_lt _ r.size_pos⟩

theorem getElem?_slotAt (turn : Nat) :
    r.slots[turn % r.size]? = some (r.slots.get (r.slotAt turn)) :=
  List.getElem?_eq_getElem (r.slotAt turn).isLt

theorem turn_val {i : Nat} (hi : i < 2 ^ 64) :
    (r.turn i).val = (r.counter.toNat + i) % 2 ^ 64 % r.size := by
  have hsum : (r.counter + i.toUInt64).toNat = (r.counter.toNat + i) % 2 ^ 64 := by
    rw [UInt64.toNat_add, Nat.toUInt64, UInt64.toNat_ofNat', Nat.mod_eq_of_lt hi]
  exact congrArg (· % r.size) hsum

theorem turn_eq {i : Nat} (h : r.counter.toNat + i < 2 ^ 64) :
    r.turn i = r.slotAt (r.counter.toNat + i) :=
  Fin.ext (by rw [r.turn_val (by omega), Nat.mod_eq_of_lt h]; rfl)

theorem slotAt_val (slot : Fin r.size) : r.slotAt slot.val = slot :=
  Fin.ext (Nat.mod_eq_of_lt slot.isLt)

@[simp] theorem slotAt_add_size (turn : Nat) : r.slotAt (turn + r.size) = r.slotAt turn :=
  Fin.ext (Nat.add_mod_right _ _)

theorem exists_slotAt (start : Nat) (slot : Fin r.size) :
    ∃ i < r.size, r.slotAt (start + i) = slot := by
  let ahead := (slot.val + (r.size - start % r.size)) % r.size
  have hahead : ahead < r.size := Nat.mod_lt _ r.size_pos
  refine ⟨ahead, hahead, Fin.ext ?_⟩
  have hover : start % r.size ≤ r.size := (Nat.mod_lt _ r.size_pos).le
  have hsum : start + (slot.val + (r.size - start % r.size)) =
      slot.val + r.size * (start / r.size + 1) := by
    have hdiv := Nat.div_add_mod start r.size
    rw [Nat.mul_add]
    omega
  calc
    (start + ahead) % r.size = (start + (slot.val + (r.size - start % r.size))) % r.size :=
      Nat.add_mod_mod _ _ _
    _ = slot.val := by rw [hsum, Nat.add_mul_mod_self_left, Nat.mod_eq_of_lt slot.isLt]

theorem pick_of_isUp (h : r.isUp (r.turn 0)) : r.pick = r.turn 0 := by
  obtain ⟨n, hn⟩ := Nat.exists_eq_succ_of_ne_zero (Nat.ne_of_gt r.size_pos)
  have hrange : List.range r.size = 0 :: (List.range n).map (· + 1) := by
    rw [hn, List.range_succ_eq_map]
  simp [pick, hrange, h]

theorem exists_turn_eq_pick : ∃ i < r.size, r.turn i = r.pick := by
  unfold pick
  cases hfind : ((List.range r.size).map r.turn).find? r.isUp with
  | some found =>
    obtain ⟨i, hi, hturn⟩ := List.mem_map.1 (List.mem_of_find?_eq_some hfind)
    exact ⟨i, List.mem_range.1 hi, hturn⟩
  | none => exact ⟨0, r.size_pos, rfl⟩

/-- A slot that is down is picked only when all slots of the round are. -/
theorem turn_down_of_pick_down (h : r.isUp r.pick = false) {i : Nat} (hi : i < r.size) :
    r.isUp (r.turn i) = false := by
  unfold pick at h
  cases hfind : ((List.range r.size).map r.turn).find? r.isUp with
  | some found =>
    rw [hfind, Option.getD_some, List.find?_some hfind] at h
    cases h
  | none =>
    have hnone := List.find?_eq_none.1 hfind (r.turn i)
      (List.mem_map_of_mem (List.mem_range.2 hi))
    simpa using hnone

theorem isUp_of_pick_down (hroom : r.counter.toNat + r.size ≤ 2 ^ 64)
    (h : r.isUp r.pick = false) (slot : Fin r.size) : r.isUp slot = false := by
  obtain ⟨i, hi, rfl⟩ := r.exists_slotAt r.counter.toNat slot
  rw [← r.turn_eq (by omega)]
  exact r.turn_down_of_pick_down h hi

end SeriesIngest.Rotation
