import SeriesIngest.Proofs.Endpoint.Turns
import Mathlib.Data.Nat.Count
import Mathlib.Algebra.Ring.Periodic

/-! How the picks are shared out. A slot that is down leaves its turn to the next slot that is up,
so in every round of turns a slot that is up is picked once for itself and once for each of the
slots right before it that are down. -/
namespace SeriesIngest.Rotation

variable (r : Rotation)

def picks (r : Rotation) : Nat → List (Fin r.size)
  | 0 => []
  | n + 1 => r.pick :: r.advance.picks n

def nexts (r : Rotation) : Nat → List String
  | 0 => []
  | n + 1 => r.next.1 :: r.next.2.nexts n

/-- The other slots, going back from that one all the way round. -/
def behind (slot : Fin r.size) : List Slot :=
  (r.slots.take slot).reverse ++ (r.slots.drop (slot + 1)).reverse

def downBefore (slot : Fin r.size) : Nat := ((r.behind slot).takeWhile (·.down)).length

def passes (turn : Nat) : Nat :=
  ((List.range r.size).find? fun i => r.isUp (r.slotAt (turn + i))).getD 0

/-- The slot that a turn falls to. -/
def heir (turn : Nat) : Fin r.size := r.slotAt (turn + r.passes turn)

theorem nexts_eq_picks (n : Nat) :
    r.nexts n = (r.picks n).map fun slot => (r.slots.get slot).url := by
  induction n generalizing r with
  | zero => rfl
  | succ n ih => exact congrArg ((r.slots.get r.pick).url :: ·) (ih r.advance)

theorem pick_eq_heir (hroom : r.counter.toNat + r.size ≤ 2 ^ 64) :
    r.pick = r.heir r.counter.toNat := by
  have hpos := r.size_pos
  have hturns : (List.range r.size).map r.turn =
      (List.range r.size).map fun i => r.slotAt (r.counter.toNat + i) := by
    apply List.map_congr_left
    intro i hi
    rw [List.mem_range] at hi
    exact r.turn_eq (by omega)
  rw [pick, hturns, List.find?_map, heir, passes, r.turn_eq (by omega)]
  simp only [Function.comp_def]
  cases (List.range r.size).find? fun i => r.isUp (r.slotAt (r.counter.toNat + i)) <;> rfl

theorem picks_eq_heirs {n : Nat} (hroom : r.counter.toNat + n + r.size ≤ 2 ^ 64) :
    r.picks n = (List.range n).map fun i => r.heir (r.counter.toNat + i) := by
  induction n generalizing r with
  | zero => rfl
  | succ n ih =>
    have hpos := r.size_pos
    have hcounter : r.advance.counter.toNat = r.counter.toNat + 1 := by
      rw [advance, UInt64.toNat_add, UInt64.toNat_one, Nat.mod_eq_of_lt (by omega)]
    have hrest := ih r.advance (by
      have hsize : r.advance.size = r.size := rfl
      omega)
    rw [picks, r.pick_eq_heir (by omega), List.range_succ_eq_map, List.map_cons, List.map_map]
    refine congrArg (r.heir r.counter.toNat :: ·) (hrest.trans ?_)
    apply List.map_congr_left
    intro i _
    rw [hcounter, Nat.add_assoc, Nat.add_comm 1]
    rfl

theorem passes_le {turn i : Nat} (hi : i < r.size) (hup : r.isUp (r.slotAt (turn + i))) :
    r.passes turn ≤ i ∧ r.isUp (r.heir turn) := by
  unfold heir passes
  cases hfind : (List.range r.size).find? fun i => r.isUp (r.slotAt (turn + i)) with
  | none =>
    have hnone := List.find?_range_eq_none.1 hfind i hi
    simp [hup] at hnone
  | some first =>
    obtain ⟨hfirst, -, hbefore⟩ := List.find?_range_eq_some.1 hfind
    refine ⟨?_, hfirst⟩
    by_contra hlater
    have hdown := hbefore i (by simpa using hlater)
    simp [hup] at hdown

theorem passes_eq {turn i : Nat} (hi : i < r.size) (hup : r.isUp (r.slotAt (turn + i)))
    (hdown : ∀ e < i, r.isUp (r.slotAt (turn + e)) = false) : r.passes turn = i := by
  unfold passes
  rw [List.find?_range_eq_some.2 ⟨hup, List.mem_range.2 hi, fun e he => by simp [hdown e he]⟩]
  rfl

theorem passes_of_all_down (h : ∀ slot, r.isUp slot = false) (turn : Nat) : r.passes turn = 0 := by
  unfold passes
  rw [List.find?_range_eq_none.2 fun i _ => by simp [h]]
  rfl

theorem heir_add_size (turn : Nat) : r.heir (turn + r.size) = r.heir turn := by
  have hslot (i : Nat) : r.slotAt (turn + r.size + i) = r.slotAt (turn + i) := by
    rw [Nat.add_right_comm, slotAt_add_size]
  unfold heir passes
  simp only [hslot]

theorem behind_eq (slot : Fin r.size) {i : Nat} (hi : i + 1 < r.size) :
    (r.behind slot)[i]? = some (r.slots.get (r.slotAt (slot + r.size - (i + 1)))) := by
  have hslot : slot.val < r.slots.length := slot.isLt
  have hsize : r.size = r.slots.length := rfl
  rw [← getElem?_slotAt, behind]
  by_cases hnear : i < slot
  · have hturn : (slot + r.size - (i + 1)) % r.size = slot - (i + 1) := by
      rw [Nat.mod_eq_sub_mod (by omega), Nat.mod_eq_of_lt (by omega)]
      omega
    rw [List.getElem?_append_left (by simp; omega), List.getElem?_reverse (by simp; omega),
      List.length_take, List.getElem?_take_of_lt (by omega), hturn]
    congr 1
    omega
  · have hturn : (slot + r.size - (i + 1)) % r.size = slot + r.size - (i + 1) :=
      Nat.mod_eq_of_lt (by omega)
    rw [List.getElem?_append_right (by simp; omega), List.getElem?_reverse (by simp; omega),
      List.length_reverse, List.length_take, List.length_drop, List.getElem?_drop, hturn]
    congr 1
    omega

theorem length_behind (slot : Fin r.size) : (r.behind slot).length + 1 = r.size := by
  have hslot : slot.val < r.slots.length := slot.isLt
  have hsize : r.size = r.slots.length := rfl
  simp only [behind, List.length_append, List.length_reverse, List.length_take, List.length_drop]
  omega

theorem le_length_takeWhile_iff {p : α → Bool} {items : List α} {n : Nat} :
    n ≤ (items.takeWhile p).length ↔ ∀ i < n, ∃ item, items[i]? = some item ∧ p item := by
  induction items generalizing n with
  | nil =>
    cases n with
    | zero => simp
    | succ n =>
      rw [Nat.forall_lt_succ_left]
      simp
  | cons item items ih =>
    cases n with
    | zero => simp
    | succ n =>
      rw [Nat.forall_lt_succ_left]
      by_cases hitem : p item <;> simp [hitem, ih]

theorem le_downBefore_iff (slot : Fin r.size) {n : Nat} (hn : n < r.size) :
    n ≤ r.downBefore slot ↔
      ∀ i < n, r.isUp (r.slotAt (slot + r.size - (i + 1))) = false := by
  rw [downBefore, le_length_takeWhile_iff]
  refine forall₂_congr fun i hi => ?_
  simp [r.behind_eq slot (show i + 1 < r.size by omega), isUp]

theorem downBefore_lt (slot : Fin r.size) : r.downBefore slot < r.size := by
  have hle := (List.takeWhile_prefix (·.down) (l := r.behind slot)).length_le
  have hlength := r.length_behind slot
  rw [downBefore]
  omega

theorem slotAt_sub_ne {slot : Fin r.size} {i : Nat} (hpos : 0 < i) (hi : i < r.size) :
    r.slotAt (slot + r.size - i) ≠ slot := by
  intro hsame
  have hval : (slot + r.size - i) % r.size = slot := congrArg Fin.val hsame
  have hslot := slot.isLt
  by_cases hnear : i ≤ slot
  · rw [Nat.mod_eq_sub_mod (by omega), Nat.mod_eq_of_lt (by omega)] at hval
    omega
  · rw [Nat.mod_eq_of_lt (by omega)] at hval
    omega

/-- A slot that is up takes its own turn and those of the slots before it that are down. -/
theorem heir_eq_iff {slot : Fin r.size} (hup : r.isUp slot) {i : Nat} (hi : i < r.size) :
    r.heir (slot + r.size - i) = slot ↔ i ≤ r.downBefore slot := by
  have hturn : slot + r.size - i + i = slot + r.size := by omega
  rw [r.le_downBefore_iff slot hi]
  constructor
  · intro hheir k hk
    by_contra hother
    rw [Bool.not_eq_false] at hother
    -- a slot between the turn and this one is up, so the turn goes no further than to that
    have hplace : slot + r.size - i + (i - (k + 1)) = slot + r.size - (k + 1) := by omega
    rw [← hplace] at hother
    obtain ⟨hshort, -⟩ := r.passes_le (by omega) hother
    have hback : slot + r.size - i + r.passes (slot + r.size - i) =
        slot + r.size - (i - r.passes (slot + r.size - i)) := by omega
    rw [heir, hback] at hheir
    exact r.slotAt_sub_ne (by omega) (by omega) hheir
  · intro hdown
    have hpasses : r.passes (slot + r.size - i) = i := by
      refine r.passes_eq hi ?_ fun e he => ?_
      · rwa [hturn, slotAt_add_size, slotAt_val]
      · rw [show slot + r.size - i + e = slot + r.size - (i - e - 1 + 1) by omega]
        exact hdown (i - e - 1) (by omega)
    rw [heir, hpasses, hturn, slotAt_add_size, slotAt_val]

theorem count_round {q : Nat → Prop} [DecidablePred q] {n : Nat} (hq : Function.Periodic q n)
    (start : Nat) : Nat.count (fun i => q (start + i)) n = Nat.count q n := by
  have hbegun := Nat.count_add q start n
  have hended := Nat.count_add q n start
  have hshift : Nat.count (fun i => q (n + i)) start = Nat.count q start := by
    simp only [Nat.add_comm n, hq _]
  rw [Nat.add_comm n start] at hended
  omega

/-- A slot that takes the turns from so many before its own on takes as many in every round. -/
theorem count_heir {slot : Fin r.size} {reach : Nat} (hreach : reach < r.size)
    (h : ∀ i < r.size, r.heir (slot + r.size - i) = slot ↔ i ≤ reach) (start : Nat) :
    Nat.count (fun i => r.heir (start + i) = slot) r.size = reach + 1 := by
  have hperiodic : Function.Periodic (fun turn => r.heir turn = slot) r.size := fun turn =>
    congrArg (· = slot) (r.heir_add_size turn)
  -- the round that ends with the slot's own turn
  let early := r.size - (reach + 1)
  have hsplit : r.size = early + (reach + 1) := by omega
  have hearly : Nat.count (fun i => r.heir (slot + 1 + i) = slot) early = 0 := by
    refine Nat.count_of_forall_not fun i hi => ?_
    rw [show slot.val + 1 + i = slot + r.size - (r.size - 1 - i) by omega, h _ (by omega)]
    omega
  have hlate : Nat.count (fun i => r.heir (slot + 1 + (early + i)) = slot) (reach + 1) =
      reach + 1 := by
    refine Nat.count_of_forall fun i hi => ?_
    rw [show slot.val + 1 + (early + i) = slot + r.size - (reach - i) by omega, h _ (by omega)]
    omega
  calc
    _ = Nat.count (fun turn => r.heir turn = slot) r.size := count_round hperiodic start
    _ = Nat.count (fun i => r.heir (slot + 1 + i) = slot) r.size :=
      (count_round hperiodic (slot + 1)).symm
    _ = Nat.count (fun i => r.heir (slot + 1 + i) = slot) (early + (reach + 1)) := by rw [← hsplit]
    _ = reach + 1 := by rw [Nat.count_add, hearly, hlate, Nat.zero_add]

theorem count_heir_rounds {slot : Fin r.size} {reach : Nat} (hreach : reach < r.size)
    (h : ∀ i < r.size, r.heir (slot + r.size - i) = slot ↔ i ≤ reach) (start rounds : Nat) :
    ((List.range (rounds * r.size)).map fun i => r.heir (start + i)).count slot =
      rounds * (reach + 1) := by
  have hcount (n : Nat) : ((List.range n).map fun i => r.heir (start + i)).count slot =
      Nat.count (fun i => r.heir (start + i) = slot) n := by
    rw [List.count_eq_countP, List.countP_map]
    rfl
  rw [hcount]
  induction rounds with
  | zero => simp
  | succ rounds ih =>
    have hlast := r.count_heir hreach h (start + rounds * r.size)
    simp only [Nat.add_assoc] at hlast
    rw [Nat.succ_mul, Nat.count_add, ih, hlast, Nat.succ_mul]

structure Shared (r : Rotation) (rounds : Nat) : Prop where
  answers : r.nexts (rounds * r.size) =
    (r.picks (rounds * r.size)).map fun slot => (r.slots.get slot).url
  up : ∀ slot, r.isUp slot →
    (r.picks (rounds * r.size)).count slot = rounds * (1 + r.downBefore slot)
  down : (∃ slot, r.isUp slot) → ∀ slot ∈ r.picks (rounds * r.size), r.isUp slot
  all_down : (∀ slot, r.isUp slot = false) →
    ∀ slot, (r.picks (rounds * r.size)).count slot = rounds

/-- **The load is shared out exactly.** As long as the flags stay as they are and the counter does
not run over, a slot that is up is picked once in a round for itself and once for each slot right
before it that is down. One that is down is not picked, unless all are: then each has its turn. -/
theorem load_shared (rounds : Nat)
    (hroom : r.counter.toNat + (rounds + 1) * r.size ≤ 2 ^ 64) : Shared r rounds := by
  have hpicks := r.picks_eq_heirs (n := rounds * r.size) (by rw [Nat.succ_mul] at hroom; omega)
  constructor
  case answers => exact r.nexts_eq_picks _
  case up =>
    intro slot hup
    rw [hpicks, Nat.add_comm 1]
    exact r.count_heir_rounds (r.downBefore_lt slot) (fun i hi => r.heir_eq_iff hup hi) _ _
  case down =>
    rintro ⟨other, hother⟩ slot hslot
    rw [hpicks, List.mem_map] at hslot
    obtain ⟨i, -, rfl⟩ := hslot
    obtain ⟨e, he, rfl⟩ := r.exists_slotAt (r.counter.toNat + i) other
    exact (r.passes_le he hother).2
  case all_down =>
    intro hdown slot
    have hown (i : Nat) (hi : i < r.size) : r.heir (slot + r.size - i) = slot ↔ i ≤ 0 := by
      rw [heir, r.passes_of_all_down hdown, Nat.add_zero]
      refine ⟨fun hsame => ?_, fun hzero => ?_⟩
      · by_contra hpos
        exact r.slotAt_sub_ne (by omega) hi hsame
      · rw [Nat.le_zero.1 hzero, Nat.sub_zero, slotAt_add_size, slotAt_val]
    rw [hpicks, r.count_heir_rounds r.size_pos hown, Nat.mul_one]

/-- Two slots down between two that are up, in the last rounds before the counter runs over. -/
theorem load_shared_two_down :
    let r : Rotation :=
      { slots := [⟨"http://a", false⟩, ⟨"http://b", true⟩, ⟨"http://c", true⟩, ⟨"http://d", false⟩]
        nonempty := by decide
        counter := 18446744073709551604 }
    r.counter.toNat + (2 + 1) * r.size ≤ 2 ^ 64 ∧ Shared r 2 ∧
      (r.nexts (2 * r.size)).count "http://a" = 2 ∧
      (r.nexts (2 * r.size)).count "http://d" = 6 := by
  intro r
  have hroom : r.counter.toNat + (2 + 1) * r.size ≤ 2 ^ 64 := by decide
  exact ⟨hroom, r.load_shared 2 hroom, by decide +kernel, by decide +kernel⟩

end SeriesIngest.Rotation
